import VolStream.Lib.RowMajor

/-!
# Dataspaces and their flat-run decomposition

The connector describes what a write touches by *flat element runs*: ranges of row-major
indices. This file models the dataspace the connector sees through the H5S API and the
functions that turn its selection into runs and slice a packed buffer by them
(`H5VL__stream_space_flat_runs_range`, `H5VL__stream_space_flat_runs`,
`H5VL__stream_mem_sel_is_packed`, `H5VL__stream_gather_mem`, and the push loops).

The H5S side is data: an extent and a selection. A hyperslab selection is the block list
`H5Sget_select_hyper_blocklist` returns, each block by its inclusive corners.
-/

namespace VolStream

open RowMajor

/-! ## The dataspace -/

/-- One hyperslab block, by its inclusive corner coordinates. -/
structure Block where
  start : List Nat
  stop : List Nat
deriving DecidableEq, Repr

/-- What `H5Sget_select_type` distinguishes, with the data of each kind. -/
inductive Selection where
  | none
  | all
  | points (coords : List (List Nat))
  | hyperslab (blocks : List Block)
deriving DecidableEq, Repr

/-- `H5Sget_simple_extent_type`, with the dimensions of a simple extent. -/
inductive Extent where
  | null
  | scalar
  | simple (dims : List Nat)
deriving DecidableEq, Repr

/-- A dataspace: an extent and a selection in it. It also stands for its own `H5Sencode2`
bytes, which carry exactly these two. -/
structure Dataspace where
  extent : Extent
  sel : Selection
deriving DecidableEq, Repr

/-- The elements of a block. -/
def Block.volume (b : Block) : Nat := (List.zipWith (fun s e => e + 1 - s) b.start b.stop).prod

/-- `H5Sget_simple_extent_npoints`. -/
def Extent.npoints : Extent → Nat
  | .null => 0
  | .scalar => 1
  | .simple dims => dims.prod

/-- `H5Sget_select_npoints`. -/
def Dataspace.npoints (s : Dataspace) : Nat :=
  match s.sel with
  | .none => 0
  | .all => s.extent.npoints
  | .points coords => coords.length
  | .hyperslab blocks => (blocks.map Block.volume).sum

/-! ## Decomposition into runs -/

/-- `UINT64_MAX`. -/
def uint64Max : Nat := 2 ^ 64 - 1

/-- `H5VL_STREAM_MAX_PUSH_RUNS`. -/
def maxPushRuns : Nat := 256

/-- `H5VL_stream_flat_run_t`: elements `start, …, start + count - 1`. -/
structure Run where
  start : Nat
  count : Nat
deriving DecidableEq, Repr

/-- The flat elements a run lists. -/
def Run.elems (r : Run) : List Nat := List.range' r.start r.count

/-- Record the run `[cs, ce)`: extend the last run when the two abut, else open a new one if
the budget has room. `acc` is `runs[0 .. n_runs)` with the last run first. -/
def addRun (maxRuns cs ce : Nat) (acc : List Run) : Option (List Run) :=
  match acc with
  | r :: rest =>
      if r.start + r.count = cs then some ({ r with count := r.count + (ce - cs) } :: rest)
      else if acc.length ≥ maxRuns then none
      else some (⟨cs, ce - cs⟩ :: acc)
  | [] => if 0 ≥ maxRuns then none else some [⟨cs, ce - cs⟩]

/-- Clip `[cs, ce)` to the range and record what is left of it. -/
def clipRun (rangeStart rangeEnd maxRuns cs ce : Nat) (acc : List Run) : Option (List Run) :=
  if max cs rangeStart ≥ min ce rangeEnd then some acc
  else addRun maxRuns (max cs rangeStart) (min ce rangeEnd) acc

/-- The row walk of one block (the `for (;;)` loop): record the row at `cur`, advance the
leading coordinates, stop when they roll over or the row lies past the range. -/
def walkBlock (dims : List Nat) (b : Block) (rangeStart rangeEnd maxRuns : Nat) :
    Nat → List Nat → List Run → Option (List Run)
  | 0, _, acc => some acc
  | fuel + 1, cur, acc =>
      let stride := strides dims
      if 1 < dims.length ∧ 0 < stride.headD 0 ∧ cur.headD 0 * stride.headD 0 ≥ rangeEnd then some acc
      else
        let start := flat stride cur
        let runLen := b.stop.getLastD 0 - b.start.getLastD 0 + 1
        match clipRun rangeStart rangeEnd maxRuns start (start + runLen) acc with
        | none => none
        | some acc' =>
            match odometer b.start b.stop cur with
            | (_, true) => some acc'
            | (next, false) => walkBlock dims b rangeStart rangeEnd maxRuns fuel next acc'

/-- The rows of a block; the walk takes one step for each. -/
def Block.nRows (b : Block) : Nat := (rows b.start b.stop).length

/-- Whether a block spans every dimension after the first. -/
def Block.full (dims : List Nat) (b : Block) : Bool :=
  decide (b.start.tail.all (· = 0) ∧ b.stop.tail = dims.tail.map (· - 1))

/-- The runs of one block: the two shortcuts of the multi-dimensional case, then the walk. -/
def addBlock (dims : List Nat) (rangeStart rangeEnd maxRuns : Nat) (b : Block) (acc : List Run) :
    Option (List Run) :=
  let stride0 := (strides dims).headD 0
  if 1 < dims.length ∧ 0 < stride0 then
    if b.full dims then
      clipRun rangeStart rangeEnd maxRuns (b.start.headD 0 * stride0)
        ((b.stop.headD 0 + 1) * stride0) acc
    else
      -- start at the first row the range reaches
      let first := max (b.start.headD 0) (rangeStart / stride0)
      if first > b.stop.headD 0 then some acc
      else walkBlock dims b rangeStart rangeEnd maxRuns b.nRows (first :: b.start.tail) acc
  else walkBlock dims b rangeStart rangeEnd maxRuns b.nRows b.start acc

/-- The block loop. -/
def addBlocks (dims : List Nat) (rangeStart rangeEnd maxRuns : Nat) :
    List Block → List Run → Option (List Run)
  | [], acc => some acc
  | b :: bs, acc =>
      match addBlock dims rangeStart rangeEnd maxRuns b acc with
      | none => none
      | some acc' => addBlocks dims rangeStart rangeEnd maxRuns bs acc'

/-- `H5VL__stream_space_flat_runs_range`; `none` is the return value `-1`. -/
def spaceFlatRunsRange (s : Dataspace) (rangeStart rangeEnd maxRuns : Nat) : Option (List Run) :=
  if maxRuns = 0 then none
  else match s.extent with
    | .scalar => if rangeStart > 0 ∨ rangeEnd = 0 then some [] else some [⟨0, 1⟩]
    | .null => none
    | .simple [] => none
    | .simple dims =>
        match s.sel with
        | .all =>
            -- `H5Sget_select_npoints` is an `hssize_t`
            if 2 ^ 63 ≤ s.npoints then none
            else if rangeStart ≥ min s.npoints rangeEnd then some []
            else some [⟨rangeStart, min s.npoints rangeEnd - rangeStart⟩]
        | .hyperslab [] => none
        | .hyperslab blocks =>
            (addBlocks dims rangeStart rangeEnd maxRuns blocks []).map List.reverse
        | _ => none

/-- `H5VL__stream_space_flat_runs`: the whole selection, unclipped. -/
def spaceFlatRuns (s : Dataspace) (maxRuns : Nat) : Option (List Run) :=
  spaceFlatRunsRange s 0 uint64Max maxRuns

/-! ## The bounding span -/

/-- `H5Sget_select_bounds`: the smallest and the largest coordinate selected in each dimension. The
whole of an extent ends one before each dimension, in `hsize_t` arithmetic. -/
def Dataspace.selectBounds (s : Dataspace) : Option (List Nat × List Nat) :=
  match s.extent, s.sel with
  | .simple dims, .all => some (dims.map fun _ => 0, dims.map fun d => (d + uint64Max) % 2 ^ 64)
  | .simple _, .hyperslab (b :: bs) =>
      some (bs.foldl (fun low b => List.zipWith min low b.start) b.start,
        bs.foldl (fun high b => List.zipWith max high b.stop) b.stop)
  | .simple _, .points (c :: cs) =>
      some (cs.foldl (List.zipWith min) c, cs.foldl (List.zipWith max) c)
  | _, _ => none

/-- `H5VL__stream_space_1d_bounds`: the flat range between the two corners of the bounds. -/
def space1dBounds (s : Dataspace) : Option Run :=
  match s.extent with
  | .scalar => some ⟨0, 1⟩
  -- a null extent has rank 0
  | .null => some ⟨0, 1⟩
  | .simple [] => some ⟨0, 1⟩
  | .simple dims =>
      s.selectBounds.map fun (low, high) =>
        let first := flat (strides dims) low % 2 ^ 64
        let last := flat (strides dims) high % 2 ^ 64
        ⟨first, (last + 2 ^ 64 - first + 1) % 2 ^ 64⟩

/-! ## Slicing packed buffers by runs

Buffers are lists of elements; `α` is one element's bytes. -/

/-- `H5VL__stream_mem_sel_is_packed`. A memory space of `none` is `H5S_ALL`. -/
def memSelIsPacked (memSpace : Option Dataspace) (nElem : Nat) : Bool :=
  match memSpace with
  | none => true
  | some s =>
      if s.sel = .all then true
      else match spaceFlatRuns s 1 with
        | some [run] => decide (run.start = 0 ∧ run.count = nElem)
        | _ => false

/-- The gather loop: copy each run's elements behind the `done` already packed, refusing to
pack more than `nElem`. -/
def gatherRuns {α : Type} (buf : List α) (nElem : Nat) : List Run → Nat → List α → Option (List α)
  | [], done, out => if done = nElem then some out else none
  | r :: rs, done, out =>
      if done + r.count > nElem then none
      else gatherRuns buf nElem rs (done + r.count) (out ++ (buf.drop r.start).take r.count)

/-- `H5VL__stream_gather_mem`. -/
def gatherMem {α : Type} (buf : List α) (memSpace : Option Dataspace) (nElem : Nat) :
    Option (List α) :=
  if memSelIsPacked memSpace nElem then some (buf.take nElem)
  else match memSpace with
    | none => none
    | some s =>
        match spaceFlatRuns s maxPushRuns with
        | none => none
        | some runs => gatherRuns buf nElem runs 0 []

/-- One push: the values handed over as the elements `start, …, start + count - 1`. -/
structure Push (α : Type) where
  start : Nat
  count : Nat
  data : List α
deriving DecidableEq, Repr

/-- The push loop, of the `DsetWrite` replay and of `H5VL__stream_backfill_one`: run `r` takes
its values from the packed payload behind those of the runs before it. -/
def pushRuns {α : Type} (payload : List α) : Nat → List Run → List (Push α)
  | _, [] => []
  | bufElem, r :: rs =>
      ⟨r.start, r.count, (payload.drop bufElem).take r.count⟩ :: pushRuns payload (bufElem + r.count) rs

end VolStream
