import VolStream.Writer.PathIndex
import VolStream.Writer.Readable
import VolStream.Space.Bounds
import VolStream.Lib.Run
import VolStream.Writer.Through

/-!
# The `/stream` overlay

A writer with the overlay on keeps a view of each dataset beside the steps. Row `j` of a dataset of fixed shape is a
hard link to the copy the dataset had as of step `first_step + j`; row `k` of one that grows along its first dimension
is frame `k`, a selection in the copy of the step in which the extent first took it in. The rows of a step are added
when it commits, once, from the path index as it is then.

There is no retention policy here: with one the overlay is off. What the calls on the file answer is an input, as it is
for a replay.
-/

namespace VolStream

/-! ## The view -/

/-- `H5VL_stream_overlay_t`, with what lies under `/stream/.steps<path>` or `/stream/.frames<path>`: for each row the
step whose copy it shows. -/
structure OverlayEntry where
  path : Path
  firstStep : Nat
  dead : Bool
  growing : Bool
  frames : Nat
  rows : Table Nat Nat
deriving DecidableEq, Repr

/-- What the file answers while the overlay is extended: the maximum dimensions of a copy, and which of the calls
fail for which path. -/
structure OverlayEnv where
  maxDims : Path → List Nat
  startFails : Path → Bool
  frameFails : Path → Nat → Bool
  linkFails : Path → Bool
  axisFails : Path → Bool

/-- The datatype and the dataspace of the dataset at `/step/<n><path>`. -/
def StepFile.copyAt (file : StepFile) (n : Nat) (path : Path) : Option (Datatype × Dataspace) :=
  (file.ops n).findSome? fun
    | .datasetCreate p type space _ => if p = path then some (type, space) else none
    | _ => none

-- `H5S_MAX_RANK`
def maxRank : Nat := 32

/-- Whether a dataset is covered, and then whether it grows. A scalar has no first dimension to compare: the answers
for it are what the two arrays happen to hold. -/
def overlayKind (type : Datatype) (dims maxDims : List Nat) : Option Bool :=
  if type.vlKind ≠ .none ∨ dims.length ≥ maxRank then none
  else if maxDims.tail ≠ dims.tail then none
  else if maxDims.headD 0 ≠ dims.headD 0 then if dims.length < 2 then none else some true
  else some false

/-- `H5VL__stream_overlay_start`, for a dataset first written in step `k`. -/
def overlayStart (env : OverlayEnv) (file : StepFile) (path : Path) (k : Nat) : OverlayEntry :=
  let dead : OverlayEntry := ⟨path, k, true, false, 0, []⟩
  match file.copyAt k path with
  | none => dead
  | some (type, space) =>
      match overlayKind type space.extent.dims (env.maxDims path) with
      | none => dead
      | some growing => { dead with growing := growing, dead := env.startFails path }

/-- The loop of `H5VL__stream_overlay_frames`, over `count` frames from the first that is not mapped. -/
def mapFrames (fails : Nat → Bool) (n : Nat) : Nat → OverlayEntry → Outcome OverlayEntry
  | 0, e => .ok e
  | count + 1, e =>
      if fails e.frames then .fail e
      else mapFrames fails n count { e with rows := e.rows.set e.frames n, frames := e.frames + 1 }

/-- `H5VL__stream_overlay_frames`. -/
def overlayFrames (env : OverlayEnv) (file : StepFile) (n : Nat) (e : OverlayEntry) : Outcome OverlayEntry :=
  match file.copyAt n e.path with
  | none => .fail e
  | some (_, space) =>
      if space.extent.dims.length < 2 then .fail e
      else mapFrames (env.frameFails e.path) n (space.extent.dims.headD 0 - e.frames) e

/-- The row of step `n`, for a dataset of fixed shape; the new frames, for one that grows. -/
def overlayRow (env : OverlayEnv) (fs : Core) (n : Nat) (e : OverlayEntry) : OverlayEntry :=
  if e.dead ∨ n < e.firstStep then e
  else match pathIndexResolve fs.pathIndex e.path n with
    | none => e
    | some r =>
        if e.growing then
          if r = n then
            match overlayFrames env fs.file n e with
            | .fail e' => { e' with dead := true }
            -- the axis has nothing to add for no new row
            | .ok e' => { e' with dead := decide (e.frames < e'.frames) && env.axisFails e.path }
          else e
        else if env.linkFails e.path then { e with dead := true }
        else { e with rows := e.rows.set (n - e.firstStep) r, dead := env.axisFails e.path }

/-- Whether the index lists the path as a dataset or group last written in step `n`. -/
def newlyWritten (idx : PathIndex) (n : Nat) (path : Path) : Bool :=
  !path.contains '@' && !(idx path).isLink && decide ((idx path).steps.getLast? = some n)

/-- A path the overlay has not seen yet. -/
def overlayNotice (env : OverlayEnv) (fs : Core) (n : Nat) (overlay : List OverlayEntry) (path : Path) :
    List OverlayEntry :=
  if newlyWritten fs.pathIndex n path && !overlay.any (fun e => decide (e.path = path)) then
    overlay ++ [overlayStart env fs.file path n]
  else overlay

/-- `H5VL__stream_overlay_step`. The paths are those the step may have put in the index: the scan over the whole index
finds no other whose last step is `n`. -/
def overlayStep (env : OverlayEnv) (fs : Core) (n : Nat) (paths : List Path) (overlay : List OverlayEntry) :
    List OverlayEntry :=
  (paths.foldl (overlayNotice env fs n) overlay).map (overlayRow env fs n)

/-! ## A writer with the overlay on -/

structure Overlaid where
  writer : Writer
  overlay : List OverlayEntry

def Overlaid.init (config : Config) : Overlaid := ⟨.init config, []⟩

/-- `H5Fend_step`, with the overlay's part after a commit. -/
def Overlaid.endStep (env : EndEnv) (view : OverlayEnv) (s : Overlaid) : Overlaid :=
  match VolStream.endStep env s.writer with
  | .ok w =>
      ⟨w, overlayStep view w.core s.writer.core.physicalStep (s.writer.core.folded env).pendingPaths s.overlay⟩
  | .fail w => { s with writer := w }

/-- An event of the writer, with the overlay's answers should it commit a step. -/
def Overlaid.apply (s : Overlaid) (ev : Event × OverlayEnv) : Overlaid :=
  match ev.1 with
  | .endStep env => s.endStep env ev.2
  | app => { s with writer := (s.writer.apply app).state }

def Overlaid.after (config : Config) (events : List (Event × OverlayEnv)) : Overlaid :=
  Runs.run Overlaid.apply (.init config) events

/-! ## What the view should show -/

-- frame `k` of an extent, every element of which a write selects
def coversFrame (dims : List Nat) (writes : List Dataspace) (k : Nat) : Prop :=
  k < dims.headD 0 ∧ ∀ x, inExtent dims x = true → x.headD 0 = k → ∃ space ∈ writes, space.selectsAt x = true

/-- The selections a step writes at a path. -/
def writesAt (shapes : List Shape) (path : Path) : List Dataspace :=
  (shapes.filter fun s => s.kind = .dsetWrite ∧ s.path = path).map Shape.space

/-- Entries that make a copy of the dataset with frame `k` and write all of it. -/
def CoversFrame (shapes : List Shape) (path : Path) (k : Nat) : Prop :=
  ∃ space, ⟨.dsetCreate, path, space⟩ ∈ shapes ∧ coversFrame space.extent.dims (writesAt shapes path) k

/-- Step `n`, by its manifest, writes frame `k` of the dataset. -/
def StepFile.Covers (file : StepFile) (n : Nat) (path : Path) (k : Nat) : Prop :=
  ∃ m, file.manifestOf n = some m ∧ CoversFrame (m.entries.map Entry.shape) path k

/-- Row `j` of a dataset of fixed shape is the copy a reader positioned at step `first_step + j` opens, and until the
view ends there is one for every step; frame `k` of a growing one is shown from the first step that writes it. -/
structure Overlaid.Truthful (s : Overlaid) : Prop where
  rows : ∀ e ∈ s.overlay, e.growing = false → ∀ j r, e.rows.find? j = some r →
    ∀ dir rd, s.writer.core.file.IsDir dir → readerAdvance dir (some (e.firstStep + j)) Reader.init = .ok rd →
      pathIndexResolve rd.pathIndex e.path rd.currentStep = some r
  complete : ∀ e ∈ s.overlay, e.growing = false → e.dead = false → ∀ j,
    e.firstStep + j < s.writer.core.physicalStep → (e.rows.find? j).isSome
  frames : ∀ e ∈ s.overlay, e.growing = true → ∀ k n, e.rows.find? k = some n →
    IsLeast {n | s.writer.core.file.Covers n e.path k} n

end VolStream
