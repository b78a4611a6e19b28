import VolStream.Lib.RowMajor
import VolStream.Space.Dataspace
import VolStream.Space.PackingOrder
import VolStream.Lib.CString
import VolStream.Lib.Outcome
import VolStream.Lib.Table
import VolStream.Manifest
import VolStream.Reader.Index
import VolStream.Reader.Logical
import VolStream.Writer.State
import VolStream.Writer.Replay
import VolStream.Writer.Commit
import VolStream.Writer.Capture
import VolStream.Lib.Dictionary
import VolStream.Writer.TypeDictionary
import VolStream.Reader.Paths
import VolStream.Writer.StepGroups
import VolStream.Writer.PathIndex
import VolStream.Writer.Readable
import VolStream.Writer.Alike
import VolStream.Writer.Reached
import VolStream.Writer.FailedStep
import VolStream.Writer.Independent
import VolStream.Writer.Deferred
import VolStream.Writer.Replayable
import VolStream.Lib.FirstWins
import VolStream.Transport.Backfill
import VolStream.Transport.Course
import VolStream.Transport.Delivery
import VolStream.Writer.EndStep
import VolStream.Lib.Run
import VolStream.Writer.Retention
import VolStream.Writer.Sessions
import VolStream.Writer.Through
import VolStream.Writer.Disposal
import VolStream.Writer.Schema
import VolStream.Writer.Made
import VolStream.Writer.LinkChains
import VolStream.Writer.LinkedRuns
import VolStream.Transport.Routing
import VolStream.Transport.Predicate
import VolStream.Space.Bounds
import VolStream.Transport.Routed
import VolStream.Transport.ZeroCopy
import VolStream.Writer.CarryForward
import VolStream.Transport.Diaspora
import VolStream.Transport.TwoQueues
import VolStream.Transport.NextStep
import VolStream.Transport.Assemble
import VolStream.Transport.Assembled
import VolStream.Overlay.View
import VolStream.Overlay.Rows
import VolStream.Lib.Wire
import VolStream.Codec.VarLen
import VolStream.Codec.SchemaBlob
import VolStream.Codec.Concentrator
import VolStream.Writer.Steady
import VolStream.Writer.PendingBytes
import VolStream.Writer.Refusals
import VolStream.Writer.MemorySelections
import VolStream.Writer.Drain
import VolStream.Lib.Separated
import VolStream.Names.Keys
import VolStream.Names.AttrKeys
import VolStream.Lib.Bits
import VolStream.Codec.Base64
import VolStream.Lib.Probing
import VolStream.Writer.Pathmap
import VolStream.Writer.QueueWindow
import VolStream.Lib.Slices
import VolStream.Writer.PayloadSlices
import VolStream.Transport.SubTable
import VolStream.Transport.Inflight
import VolStream.Writer.Landed
import VolStream.Writer.Requests
import VolStream.Writer.RequestBook
import VolStream.Writer.Durability
import VolStream.Writer.Merge
import VolStream.Writer.MergedIndex
import VolStream.Writer.MergeAgreed
import VolStream.Lib.Interleave
import VolStream.Writer.Replicas
import VolStream.Writer.ReplicaWrites
import VolStream.Writer.ReplicasAgree
import VolStream.Lib.Channels
import VolStream.Writer.Gathering
import VolStream.Lib.Lockstep
import VolStream.Writer.AgreedPolicy
import VolStream.Lib.HighWater
import VolStream.Transport.Acks
import VolStream.Writer.FlowControl
import VolStream.Writer.Placeholders
import VolStream.Writer.Dangling
import VolStream.Lib.Scanning
import VolStream.Config.Settings
import VolStream.Config.InfoString
import VolStream.Config.InfoRoundTrip
import VolStream.Transport.SchemaQuery
