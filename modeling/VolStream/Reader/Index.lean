import Mathlib.Data.Char
import Mathlib.Data.List.Lex
import Mathlib.Data.List.Sort
import VolStream.Lib.CString
import VolStream.Lib.Outcome
import VolStream.Lib.Table
import VolStream.Manifest

/-!
# The reader: step index and read cursor

A reader finds the steps of a file by listing `/step`, decodes each step's `.manifest` into
its indexes, and then moves a cursor over the steps, sequentially (`H5Fbegin_step`) or to a
logical id (`H5Fbegin_logical_step`). The index is built once, lazily, by whichever call needs
it first.
-/

namespace VolStream

open CString

/-! ## What the reader finds in the file -/

/-- The children of `/step` by link name, each with the `.manifest` it holds, if any. `none` is
a file without a `/step` group. -/
abbrev StepDir := Option (Table Path (Option Step))

-- "/step/%llu"
def stepName (n : Nat) : Path := decimal n

/-- `H5VL_LINK_ITER` by name, increasing: `"10"` comes before `"2"`. -/
def iterateNames (children : Table Path (Option Step)) : List Path :=
  children.keys.insertionSort (· ≤ ·)

/-- `H5VL__stream_reader_step_iter_cb` over the whole iteration: the names that are numbers. -/
def collectSteps (children : Table Path (Option Step)) : List Nat :=
  (iterateNames children).filterMap strtoull

/-! ## State -/

/-- The reader half of `H5VL_stream_file_state_t`. -/
structure Reader where
  indexBuilt : Bool
  nStepsTotal : Nat
  stepLogicalIds : List (List Nat)
  logicalMap : Table Nat Nat
  pathIndex : PathIndex
  currentStep : Nat
  stepState : StepState

/-- A file just opened read-only: the zeroed state. -/
def Reader.init : Reader := ⟨false, 0, [], [], .empty, 0, .notInStep⟩

/-! ## Building the index -/

/-- `H5VL__stream_logical_map_set`. -/
def logicalMapSet (map : Table Nat Nat) (logicalId physicalStep : Nat) : Table Nat Nat :=
  map.set logicalId physicalStep

/-- `H5VL__stream_reader_index_one_step`: fold one step's manifest into the indexes. -/
def readerIndexOneStep (children : Table Path (Option Step)) (p : Nat) (fs : Reader) :
    Outcome Reader :=
  match children.find? (stepName p) with
  | some (some step) =>
      .ok { fs with
        stepLogicalIds := fs.stepLogicalIds.set p step.logicalIds
        logicalMap := step.logicalIds.foldl (fun map lid => logicalMapSet map lid p) fs.logicalMap
        pathIndex := step.entries.foldl (fun idx e => indexEntry idx p e.kind e.path) fs.pathIndex }
  | _ => .fail fs

-- `qsort(fs->logical_map, …, H5VL__stream_logical_map_cmp)`
def sortLogicalMap (map : Table Nat Nat) : Table Nat Nat :=
  map.insertionSort (fun x y => x.1 ≤ y.1)

/-- `H5VL__stream_reader_build_index`. -/
def readerBuildIndex (dir : StepDir) (fs : Reader) : Outcome Reader :=
  match dir with
  | none => .ok { fs with indexBuilt := true }
  | some children =>
      let steps := (collectSteps children).insertionSort (· ≤ ·)
      if steps ≠ List.range steps.length then .fail fs
      else
        let fs := { fs with
          nStepsTotal := steps.length
          stepLogicalIds := List.replicate steps.length [] }
        (Outcome.runAll (readerIndexOneStep children) (List.range fs.nStepsTotal) fs).bind fun fs =>
          .ok { fs with logicalMap := sortLogicalMap fs.logicalMap, indexBuilt := true }

/-- The index, built on first use. -/
def ensureIndex (dir : StepDir) (fs : Reader) : Outcome Reader :=
  if fs.indexBuilt then .ok fs else readerBuildIndex dir fs

/-! ## Moving the cursor -/

/-- The step a sequential advance tries. -/
def Reader.next (fs : Reader) : Nat :=
  if fs.stepState = .reading then (fs.currentStep + 1) % 2 ^ 64 else 0

/-- `H5VL__stream_reader_advance`; a target is `H5Fbegin_logical_step`'s jump. -/
def readerAdvance (dir : StepDir) (target : Option Nat) (fs : Reader) : Outcome Reader :=
  (ensureIndex dir fs).bind fun fs =>
    if target.getD fs.next ≥ fs.nStepsTotal then .fail fs
    else .ok { fs with currentStep := target.getD fs.next, stepState := .reading }

/-- `H5Fbegin_step` on a reader. -/
def beginStep (dir : StepDir) (fs : Reader) : Outcome Reader := readerAdvance dir none fs

/-- `H5Fbegin_logical_step`. -/
def beginLogicalStep (dir : StepDir) (logicalId : Nat) (fs : Reader) : Outcome Reader :=
  (ensureIndex dir fs).bind fun fs =>
    match fs.logicalMap.find? logicalId with
    | none => .fail fs
    | some phys => readerAdvance dir (some phys) fs

/-- `H5Fget_logical_steps`: the ids copied out, at most `cap` of them, and the number there
are. -/
def getLogicalSteps (dir : StepDir) (cap : Nat) (fs : Reader) : Outcome Reader × List Nat × Nat :=
  match ensureIndex dir fs with
  | .fail fs => (.fail fs, [], 0)
  | .ok fs => (.ok fs, (fs.logicalMap.take cap).map Prod.fst, fs.logicalMap.length)

end VolStream
