import VolStream.Lib.Outcome
import VolStream.Lib.Table
import VolStream.Manifest

/-!
# Writer state

`H5VL_stream_file_state_t` of a writer, the wrappers of its open objects, and what the connector
has put under `/step`. The state is split in two: `Core` is everything a commit reads and writes,
`Writer` adds the application's open handles.

The file under the connector is kept as the ordered log of the calls that succeeded on each
`/step/<n>` group. Whether an HDF5, BAKE or allocation call succeeds is an input of the model:
each fallible operation takes its environment's answers, so every failure the real calls can
show, at any point, is some environment.
-/

namespace VolStream

/-! ## Pending entries -/

-- an application handle: the address of its `H5VL_stream_t`
abbrev Handle := Nat

/-- The captured bytes of an entry. A link entry's are the link type and the target's path
(`H5VL__stream_pending_link`). -/
inductive Payload where
  | bytes (b : Bytes)
  | link (hard : Bool) (target : Path)
deriving DecidableEq, Repr

def Payload.len : Payload → Nat
  | .bytes b => b.length
  | .link _ target => target.length + 1

/-- `H5VL_stream_pending_entry_t`; `owner` is the `owner_wrapper` back-pointer. -/
structure PendingEntry where
  kind : Kind
  path : Path
  type : Datatype
  space : Dataspace
  dcpl : Option Bytes
  payload : Payload
  owner : Option Handle
deriving DecidableEq, Repr

/-! ## The file under the connector -/

/-- A call that changed the contents of one `/step/<n>` group. -/
inductive FileOp where
  | datasetCreate (path : Path) (type : Datatype) (space : Dataspace) (dcpl : Option Bytes)
  | datasetWrite (path : Path) (type : Datatype) (space : Dataspace) (payload : Payload)
  | aliasCreate (path : Path) (source : Nat)
  | groupCreate (path : Path)
  | attrCreate (path : Path) (type : Datatype) (space : Dataspace) (dcpl : Option Bytes)
  | attrWrite (path : Path) (payload : Payload)
  | linkCreate (path : Path) (hard : Bool) (targetStep : Option Nat) (target : Path)
  | carryForward (path : Path) (source : Nat)
  | manifest (content : Option Step)
  | payload (bytes : Nat)
deriving DecidableEq, Repr

def FileOp.isManifest : FileOp → Bool
  | .manifest _ => true
  | _ => false

/-- The groups under `/step`, in creation order. -/
abbrev StepFile := Table Nat (List FileOp)

-- `H5VL__stream_replay_ensure_group` on `/step/<n>`
def StepFile.ensure (file : StepFile) (n : Nat) : StepFile :=
  match file.find? n with
  | none => file.set n []
  | some _ => file

/-- A successful call on `/step/<n>`, which exists from then on. -/
def StepFile.append (file : StepFile) (n : Nat) (op : FileOp) : StepFile :=
  file.set n ((file.find? n).getD [] ++ [op])

-- calls on one group, in order
def StepFile.appendAll (file : StepFile) (n : Nat) (ops : List FileOp) : StepFile :=
  ops.foldl (fun file op => file.append n op) file

/-- `H5VL__stream_unlink_step`, when the delete succeeds. -/
def StepFile.unlink (file : StepFile) (n : Nat) : StepFile := file.filter (·.1 ≠ n)

/-! ## The commit state -/

inductive QueuePolicy where
  | block
  | discard
  | spill
deriving DecidableEq, Repr

-- `H5VL_stream_link_t`, less its key
structure LinkRec where
  target : Path
  hard : Bool
deriving DecidableEq, Repr

/-- `H5VL_stream_spill_entry_t` with the region it names: the manifest and the payload bytes,
entry by entry. -/
structure SpillEntry where
  physicalStep : Nat
  manifest : Step
  payloads : List Payload
deriving DecidableEq, Repr

/-- How the connector was built and the file opened: BAKE, a transport, payload staging, and
the pending-byte limit (0 for none). -/
structure Config where
  haveBake : Bool
  transport : Bool
  stagePayload : Bool
  maxPending : Nat
deriving DecidableEq, Repr

/-- The writer half of `H5VL_stream_file_state_t`, with the `/step` groups of its file. -/
structure Core where
  config : Config
  stepState : StepState
  physicalStep : Nat
  logicalIds : List Nat
  wallTimeNs : Nat
  pending : List PendingEntry
  pendingBytes : Nat
  queuePolicy : Option QueuePolicy
  reserveSlots : Nat
  groupAttrs : List Path
  links : Table Path LinkRec
  pathIndex : PathIndex
  writeTypeCache : TypeCache
  replayTypeCache : TypeCache
  pendingSpill : List SpillEntry
  file : StepFile

def Core.init (config : Config) : Core where
  config := config
  stepState := .notInStep
  physicalStep := 0
  logicalIds := []
  wallTimeNs := 0
  pending := []
  pendingBytes := 0
  queuePolicy := none
  reserveSlots := 0
  groupAttrs := []
  links := []
  pathIndex := .empty
  writeTypeCache := fun _ => none
  replayTypeCache := fun _ => none
  pendingSpill := []
  file := []

/-! ## Open handles -/

/-- `H5VL_stream_obj_state_t` of a dataset or attribute; a placeholder knows its pending
entry. -/
inductive ObjState where
  | live
  | placeholder (pendingIndex : Nat)
deriving DecidableEq, Repr

/-- `H5VL_stream_t` of a dataset or attribute; `resizeSpace` is `pending_resize_space`. -/
structure Wrapper where
  path : Path
  state : ObjState
  isDataset : Bool
  resizeSpace : Option Dataspace
deriving DecidableEq, Repr

/-- A lookup of an omitted type during replay: what the encoder left out, and what was found. -/
structure TypeLookup where
  suppressed : Datatype
  found : Option Datatype
deriving DecidableEq, Repr

/-- A serial writer: its commit state and its open handles, with the history of omitted-type
lookups its replays have made. -/
structure Writer where
  core : Core
  wrappers : Handle → Option Wrapper
  lookups : List TypeLookup

def Writer.init (config : Config) : Writer := ⟨.init config, fun _ => none, []⟩

/-! ## Small facts about the file log -/

theorem StepFile.find?_append (file : StepFile) (n k : Nat) (op : FileOp) :
    (file.append n op).find? k
      = if n = k then some ((file.find? n).getD [] ++ [op]) else file.find? k :=
  Table.find?_set _ _ _ _

theorem StepFile.appendAll_append (file : StepFile) (n : Nat) (l l' : List FileOp) :
    file.appendAll n (l ++ l') = (file.appendAll n l).appendAll n l' := List.foldl_append

theorem StepFile.find?_unlink (file : StepFile) (n k : Nat) :
    (file.unlink n).find? k = if n = k then none else file.find? k := by
  unfold StepFile.unlink
  rw [Table.find?_filter file (fun a => decide (a ≠ n)) k]
  by_cases h : n = k
  · rw [if_pos h, if_neg (by simp [h])]
  · rw [if_neg h, if_pos (by simpa using Ne.symm h)]

/-- The calls made on `/step/<n>`, in order; none on a group that is not there. -/
def StepFile.ops (file : StepFile) (n : Nat) : List FileOp := (file.find? n).getD []

theorem StepFile.ops_append (file : StepFile) (n k : Nat) (op : FileOp) :
    (file.append n op).ops k = if n = k then file.ops k ++ [op] else file.ops k := by
  unfold StepFile.ops
  rw [StepFile.find?_append]
  by_cases h : n = k
  · rw [if_pos h, if_pos h, h, Option.getD_some]
  · rw [if_neg h, if_neg h]

theorem StepFile.ops_appendAll (file : StepFile) (n k : Nat) (ops : List FileOp) :
    (file.appendAll n ops).ops k = if n = k then file.ops k ++ ops else file.ops k := by
  induction ops generalizing file with
  | nil =>
    show file.ops k = _
    split
    · exact (List.append_nil _).symm
    · rfl
  | cons op ops ih =>
    show ((file.append n op).appendAll n ops).ops k = _
    rw [ih, StepFile.ops_append]
    by_cases h : n = k
    · rw [if_pos h, if_pos h, if_pos h, List.append_assoc]
      rfl
    · rw [if_neg h, if_neg h, if_neg h]

theorem StepFile.ops_ensure (file : StepFile) (n k : Nat) : (file.ensure n).ops k = file.ops k := by
  unfold StepFile.ensure StepFile.ops
  split
  · rename_i hnone
    rw [Table.find?_set]
    by_cases h : n = k
    · rw [if_pos h, ← h, hnone]
      rfl
    · rw [if_neg h]
  · rfl

theorem StepFile.ops_unlink (file : StepFile) (n k : Nat) :
    (file.unlink n).ops k = if n = k then [] else file.ops k := by
  unfold StepFile.ops
  rw [StepFile.find?_unlink]
  split
  · rfl
  · rfl

end VolStream
