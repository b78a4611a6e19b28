import VolStream.Codec.Concentrator
import VolStream.Codec.VarLen
import VolStream.Lib.Interleave
import VolStream.Lib.LastWins
import VolStream.Writer.CarryForward
import VolStream.Writer.MergedIndex

/-!
# Three ways to apply a step's writes

A serial writer applies its writes in order with its creates, in one loop (`H5VL__stream_replay_manifest`). The ranks
of a parallel writer first create everything together. Then each applies its own writes
(`H5VL__stream_replay_local_writes`), or hands them to the first rank of its group, which applies the group's writes
path by path (`H5VL__stream_replay_concentrated_writes`); nothing orders the writes of one of these ranks against
another's.

A write hands the under connector a buffer with one value for each selected element. Of a variable-length type the
buffer holds pointers, and only the serial loop rebuilds them from the payload it captured. What a pointer leads to is
followed here: the bytes of a payload are no address, and one that is read as such is a fault. No HDF5 or allocation
call fails.
-/

namespace VolStream

open FirstWins LastWins Wire

/-! ## One write -/

/-- A write as the loops hand it on: `H5VL_stream_concentrated_job_t`. -/
structure WriteJob where
  path : Path
  type : Datatype
  space : Dataspace
  payload : Bytes
deriving DecidableEq, Repr

def PendingEntry.job (pe : PendingEntry) : WriteJob := ⟨pe.path, pe.type, pe.space, pe.payload.raw⟩

/-- A type as the variable-length codec sees it; `base` is the size of the base type. -/
def Datatype.vlType (base : Datatype → Nat) (t : Datatype) : VlType := ⟨t.vlKind, base t⟩

/-- The elements the payload was captured from: values of the type's size, or what the wire form frames. -/
def WriteJob.elems (base : Datatype → Nat) (j : WriteJob) : List (Option Bytes) :=
  if j.type.vlKind = .none then
    (List.range j.space.npoints).map fun i => some ((j.payload.drop (i * j.type.size)).take j.type.size)
  else (vlFrames (j.type.vlType base) j.space.npoints j.payload).getD []

/-- What a pointer leads to. -/
def pointee (p : Bytes) : Parse (Option Bytes) := if p.all (· = 0) then .accept none else .fault

/-- The element in one cell of a buffer: the value, a `char *`, or an `hvl_t`, which shows nothing if its length is 0
or its pointer NULL. -/
def cellElem (kind : VlKind) (cell : Bytes) : Parse (Option Bytes) :=
  match kind with
  | .none => .accept (some cell)
  | .string => pointee cell
  | .sequence => if (cell.take 8).all (· = 0) then .accept none else pointee (cell.drop 8)

-- the distance from one cell to the next
def Datatype.cellSize (t : Datatype) : Nat :=
  match t.vlKind with
  | .none => t.size
  | .string => 8
  | .sequence => 16

/-- `H5VLdataset_write`'s walk over a buffer that holds the payload as it was captured. -/
def WriteJob.rawElems (j : WriteJob) : Parse (List (Option Bytes)) :=
  Parse.mapAll (fun i => (read j.payload (i * j.type.cellSize) j.type.cellSize).bind (cellElem j.type.vlKind))
    (List.range j.space.npoints)

/-- The elements of the buffer the serial loop hands over. A variable-length payload is rebuilt first, from a pointer
that is NULL for an empty payload, unless the payloads come from one staged buffer. -/
def WriteJob.rebuiltElems (base : Datatype → Nat) (staged : Bool) (j : WriteJob) : Parse (List (Option Bytes)) :=
  if j.type.vlKind = .none then j.rawElems
  else vlDeserialize (j.type.vlType base) (if j.payload = [] ∧ staged = false then none else some j.payload)
    j.space.npoints

/-! ## The datasets of the step -/

/-- What each element holds: the type and the value of the write that reached it last. The under connector converts
these to the type of the dataset. -/
abbrev Contents := Path → Nat → Option (Datatype × Option Bytes)

def Contents.write (f : Contents) (j : WriteJob) (elems : List (Option Bytes)) : Contents := fun path k =>
  if path = j.path then
    (lookupLast (j.space.packingOrder.zip (elems.map fun e => (j.type, e))) k).or (f path k)
  else f path k

/-- The datasets that exist, what they hold, and the writes that were applied, each with its elements. -/
structure Replicas where
  created : List Path
  contents : Contents
  applied : List (WriteJob × List (Option Bytes))

def Replicas.start : Replicas := ⟨[], fun _ _ => none, []⟩

-- `H5VLdataset_create`: a link of that name is in the way
def Replicas.create (s : Replicas) (path : Path) : Parse Replicas :=
  if path ∈ s.created then .reject else .accept { s with created := s.created ++ [path] }

/-- `H5VLdataset_write` on the dataset of this step. -/
def Replicas.write (s : Replicas) (j : WriteJob) (buffer : Parse (List (Option Bytes))) : Parse Replicas :=
  if j.path ∈ s.created then
    buffer.map fun elems =>
      { s with contents := s.contents.write j elems, applied := s.applied ++ [(j, elems)] }
  else .reject

/-! ## The serial loop -/

/-- One entry of `H5VL__stream_replay_manifest`, as far as datasets go. -/
def serialEntry (base : Datatype → Nat) (staged : Bool) (s : Replicas) (pe : PendingEntry) : Parse Replicas :=
  match pe.kind with
  | .dsetCreate => s.create pe.path
  | .dsetWrite => s.write pe.job (pe.job.rebuiltElems base staged)
  | _ => .accept s

def serialReplay (base : Datatype → Nat) (staged : Bool) (pending : List PendingEntry) : Parse Replicas :=
  Parse.fold (serialEntry base staged) .start pending

/-! ## A rank's own writes -/

-- the writes of a list of pending entries, in order
def writeJobs (ps : List PendingEntry) : List WriteJob := (ps.filter (·.kind = .dsetWrite)).map PendingEntry.job

/-- `H5VL__stream_write_replica`. -/
def writeReplica (s : Replicas) (j : WriteJob) : Parse Replicas := s.write j j.rawElems

/-- `H5VL__stream_replay_step_parallel`: the merged entries, which every rank replays, then the writes in the order
they happen to fall. -/
def parallelReplay (base : Datatype → Nat) (ranks : List Core) (myRank : Nat) (order : List WriteJob) : Parse Replicas :=
  (serialReplay base true ((winners myRank ranks).map (·.2))).bind fun s => Parse.fold writeReplica s order

/-- `H5VL__stream_replay_local_writes` of every rank. -/
def localWrites (ranks : List Core) : List (List WriteJob) := ranks.map fun fs => writeJobs fs.pending

/-! ## Concentrators -/

-- a path as the bytes of a C string, and back
def pathBytes (path : Path) : Bytes := path.map fun c => UInt8.ofNat c.toNat
def bytesPath (bytes : Bytes) : Path := bytes.map fun b => Char.ofNat b.toNat

def WriteJob.shipped (j : WriteJob) : ShippedWrite Datatype Dataspace := ⟨pathBytes j.path, j.type, j.space, j.payload⟩

-- the job `H5VL__stream_recv_entry` fills in
def receivedJob (e : ShippedWrite Datatype Dataspace) : WriteJob := ⟨bytesPath e.path, e.type, e.space, e.payload⟩

/-- One write from a member of a group to its concentrator. -/
def shipJob (mpi : Mpi) (big : Bool) (c : H5Codec Datatype Dataspace) (j : WriteJob) : Parse WriteJob :=
  match sendWriteEntryToConcentrator mpi big c j.shipped with
  | none => .reject
  | some msg => (recvEntry big c msg).map receivedJob

/-- `(my_rank / group_size) * group_size`. -/
def concentratorOf (groupSize rank : Nat) : Nat := rank / groupSize * groupSize

/-- The groups: a concentrator with the ranks behind it, up to the next one or the last rank. -/
def rankGroups (groupSize : Nat) (ranks : List Core) : List (List Core) :=
  ((List.range ranks.length).filter fun r => concentratorOf groupSize r = r).map fun r =>
    (ranks.drop r).take groupSize

/-- The jobs a concentrator gathers: its own, then each member's, in rank order. -/
def groupJobs (mpi : Mpi) (big : Bool) (c : H5Codec Datatype Dataspace) : List Core → Parse (List WriteJob)
  | [] => .accept []
  | own :: members =>
    (Parse.mapAll (shipJob mpi big c) (members.flatMap fun fs => writeJobs fs.pending)).map fun jobs =>
      writeJobs own.pending ++ jobs

/-- `H5VL__stream_replay_concentrated_writes` of every concentrator: every job gathered, then one path after the
other. -/
def concentratedWrites (mpi : Mpi) (big : Bool) (c : H5Codec Datatype Dataspace) (groupSize : Nat)
    (ranks : List Core) : Parse (List (List WriteJob)) :=
  (Parse.mapAll (groupJobs mpi big c) (rankGroups groupSize ranks)).map (List.map (grouped (·.path)))

end VolStream
