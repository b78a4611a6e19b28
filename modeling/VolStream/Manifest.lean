import Mathlib.Logic.Function.Basic
import Mathlib.Order.Bounds.Basic
import VolStream.Space.Dataspace

/-!
# The step manifest and the path index

What a step's `.manifest` says (`vol_stream.fbs`) and the index both sides build from it: for
every path, the physical steps that carry a create, an attribute or a link of it. The writer
maintains the index entry by entry while it replays, the reader rebuilds it by scanning the
manifests in the file.

Encoded HDF5 objects are represented by what they encode: a `Datatype` by its `H5Tencode`
bytes and the facts about it the connector asks for, a `Dataspace` by itself.
-/

namespace VolStream

abbrev Path := List Char

instance : LawfulBEq Path := inferInstance

abbrev Bytes := List UInt8

/-- `H5VL__stream_type_vl_kind`: whether a type is variable-length at top level. -/
inductive VlKind where
  | none
  | sequence
  | string
deriving DecidableEq, Repr

/-- A datatype: its `H5Tencode` bytes, which decide it, with its size, its top-level
variable-length kind and whether the connector can capture its values
(`H5VL__stream_type_is_unsafe_to_capture` refuses nested references into memory). -/
structure Datatype where
  enc : Bytes
  size : Nat
  vlKind : VlKind
  unsafeToCapture : Bool
deriving DecidableEq, Repr

/-- `vs_Kind_enum_t`. -/
inductive Kind where
  | dsetCreate
  | dsetWrite
  | attr
  | group
  | link
deriving DecidableEq, Repr

/-- The `type_enc` field of an entry. `omitted` is an absent field: the type is the one last
sent for the path. The type it carries here is what the encoder left out; no function of the
connector reads it (`TypeEnc.field`). -/
inductive TypeEnc where
  | sent (t : Datatype)
  | omitted (t : Datatype)
deriving DecidableEq, Repr

/-- What the decoder sees. -/
def TypeEnc.field : TypeEnc → Option Datatype
  | .sent t => some t
  | .omitted _ => none

/-- `vs_Entry`. -/
structure Entry where
  kind : Kind
  path : Path
  typeEnc : TypeEnc
  space : Dataspace
  dcpl : Option Bytes
  payloadOff : Nat
  payloadLen : Nat
deriving DecidableEq, Repr

/-- `vs_Step`. -/
structure Step where
  physicalStep : Nat
  logicalIds : List Nat
  wallTimeNs : Nat
  entries : List Entry
  payloadBytes : Nat
deriving DecidableEq, Repr

/-- Whether an entry of this kind is indexed. -/
def Kind.indexed : Kind → Bool
  | .dsetCreate => true
  | .attr => true
  | .link => true
  | _ => false

/-- `H5F_step_status_t`, as far as a serial writer and a reader go. -/
inductive StepState where
  | notInStep
  | inStep
  | committing
  | reading
deriving DecidableEq, Repr

/-! ## The path index

An array of records with a hash map over it, read and written by path only; here the map it
represents. A path that was never added and one whose steps were all dropped resolve alike. -/

/-- `H5VL_stream_path_steps_t`, less its key. -/
structure PathSteps where
  steps : List Nat
  isLink : Bool
deriving DecidableEq, Repr

abbrev PathIndex := Path → PathSteps

-- the zeroed index
def PathIndex.empty : PathIndex := fun _ => ⟨[], false⟩

/-- `H5VL__stream_path_index_add`. -/
def pathIndexAdd (idx : PathIndex) (path : Path) (physicalStep : Nat) : PathIndex :=
  Function.update idx path { idx path with steps := (idx path).steps ++ [physicalStep] }

/-- `H5VL__stream_path_index_mark_link`. -/
def pathIndexMarkLink (idx : PathIndex) (path : Path) : PathIndex :=
  Function.update idx path { idx path with isLink := true }

-- `while (e->n_steps > 0 && e->steps[e->n_steps - 1] == n) e->n_steps--;`
def dropTail (n : Nat) (steps : List Nat) : List Nat :=
  (steps.reverse.dropWhile (· = n)).reverse

/-- `H5VL__stream_path_index_drop_step`. -/
def pathIndexDropStep (idx : PathIndex) (n : Nat) : PathIndex :=
  fun path => { idx path with steps := dropTail n (idx path).steps }

/-- `H5VL__stream_path_index_resolve`: the scan from the end for a step not after the
current one. -/
def pathIndexResolve (idx : PathIndex) (path : Path) (currentStep : Nat) : Option Nat :=
  (idx path).steps.reverse.find? (· ≤ currentStep)

/-- Index one entry, as replay and the reader do. -/
def indexEntry (idx : PathIndex) (physicalStep : Nat) (kind : Kind) (path : Path) : PathIndex :=
  let idx := if kind.indexed then pathIndexAdd idx path physicalStep else idx
  if kind = .link then pathIndexMarkLink idx path else idx

/-- Indexing an entry appends its step to its own path's list. -/
theorem steps_indexEntry (idx : PathIndex) (n : Nat) (kind : Kind) (path path' : Path) :
    (indexEntry idx n kind path path').steps
      = if kind.indexed ∧ path = path' then (idx path').steps ++ [n] else (idx path').steps := by
  unfold indexEntry pathIndexMarkLink pathIndexAdd
  by_cases hpath : path = path'
  · subst hpath
    cases kind <;> simp [Kind.indexed]
  · have hne : path' ≠ path := Ne.symm hpath
    cases kind <;> simp [Kind.indexed, Function.update_of_ne hne, hpath]

/-- The paths a list of entries indexes, given by kind and path. -/
def indexPaths (keys : List (Kind × Path)) : List Path := (keys.filter (·.1.indexed)).map (·.2)

def Entry.key (e : Entry) : Kind × Path := (e.kind, e.path)

def Step.indexPaths (m : Step) : List Path := VolStream.indexPaths (m.entries.map Entry.key)

theorem indexPaths_append (l l' : List (Kind × Path)) :
    indexPaths (l ++ l') = indexPaths l ++ indexPaths l' := by
  simp [indexPaths]

theorem count_indexPaths_cons (k : Kind × Path) (l : List (Kind × Path)) (path : Path) :
    (indexPaths (k :: l)).count path
      = (if k.1.indexed ∧ k.2 = path then 1 else 0) + (indexPaths l).count path := by
  unfold indexPaths
  cases hk : k.1.indexed with
  | false => simp [hk]
  | true =>
    by_cases hpath : k.2 = path
    · simp [hk, hpath, Nat.add_comm]
    · simp [hk, hpath]

/-- Indexing the entries of one step appends the step once for each entry of the path. -/
theorem steps_indexEntries (entries : List Entry) (n : Nat) (idx : PathIndex) (path : Path) :
    (entries.foldl (fun idx e => indexEntry idx n e.kind e.path) idx path).steps
      = (idx path).steps ++ List.replicate ((indexPaths (entries.map Entry.key)).count path) n := by
  induction entries generalizing idx with
  | nil => simp [indexPaths]
  | cons e entries ih =>
    rw [List.foldl_cons, ih, steps_indexEntry, List.map_cons, count_indexPaths_cons]
    by_cases he : e.kind.indexed ∧ e.path = path
    · rw [if_pos he, if_pos (show e.key.1.indexed ∧ e.key.2 = path from he), List.append_assoc,
        List.singleton_append, ← List.replicate_succ, Nat.add_comm 1]
    · rw [if_neg he, if_neg (show ¬ (e.key.1.indexed ∧ e.key.2 = path) from he), Nat.zero_add]

/-- Dropping the failed step takes back exactly what it appended. -/
theorem dropTail_append_replicate {n : Nat} {l : List Nat} (h : n ∉ l) (c : Nat) :
    dropTail n (l ++ List.replicate c n) = l := by
  unfold dropTail
  rw [List.reverse_append, List.reverse_replicate]
  have hskip : ∀ c : Nat, (List.replicate c n ++ l.reverse).dropWhile (fun k => decide (k = n))
      = l.reverse.dropWhile fun k => decide (k = n) := by
    intro c
    induction c with
    | zero => rfl
    | succ c ih => rw [List.replicate_succ, List.cons_append, List.dropWhile_cons_of_pos (by simp), ih]
  have hkeep : l.reverse.dropWhile (fun k => decide (k = n)) = l.reverse := by
    cases hl : l.reverse with
    | nil => rfl
    | cons k l' =>
      refine List.dropWhile_cons_of_neg ?_
      have hk : k ∈ l := List.mem_reverse.mp (hl ▸ List.mem_cons_self)
      simpa using fun hkn : k = n => h (hkn ▸ hk)
  rw [hskip, hkeep, List.reverse_reverse]

/-- On an ascending list the scan from the end finds the greatest step not after the current
one. -/
theorem pathIndexResolve_eq_some_iff {idx : PathIndex} {path : Path}
    (h : (idx path).steps.Pairwise (· ≤ ·)) (k n : Nat) :
    pathIndexResolve idx path k = some n ↔ IsGreatest {m | m ∈ (idx path).steps ∧ m ≤ k} n := by
  have hfound : ∀ n, pathIndexResolve idx path k = some n →
      IsGreatest {m | m ∈ (idx path).steps ∧ m ≤ k} n := by
    intro n hn
    rw [pathIndexResolve, List.find?_eq_some_iff_append] at hn
    obtain ⟨hle, as, bs, hsplit, has⟩ := hn
    have hsteps : (idx path).steps = bs.reverse ++ n :: as.reverse := by
      rw [← List.reverse_reverse (idx path).steps, hsplit]
      simp
    rw [hsteps] at h ⊢
    refine ⟨⟨by simp, of_decide_eq_true hle⟩, ?_⟩
    rintro m ⟨hm, hmk⟩
    rcases List.mem_append.mp hm with hm | hm
    · exact (List.pairwise_append.mp h).2.2 m hm n List.mem_cons_self
    · rcases List.mem_cons.mp hm with rfl | hm
      · exact Nat.le_refl _
      · -- what the scan passed over lies after the current step
        have := has m (List.mem_reverse.mp hm)
        simp only [Bool.not_eq_true', decide_eq_false_iff_not] at this
        exact absurd hmk this
  constructor
  · exact hfound n
  · intro hn
    cases hres : pathIndexResolve idx path k with
    | none =>
      rw [pathIndexResolve, List.find?_eq_none] at hres
      have := hres n (List.mem_reverse.mpr hn.1.1)
      exact absurd (decide_eq_true hn.1.2) this
    | some n' => rw [(hfound n' hres).unique hn]

/-! ## The type dictionary

`H5VL_stream_type_cache_entry_t`, one array for the encoder and one for replay: the type last
sent for a path, looked up and replaced by path only. -/

abbrev TypeCache := Path → Option Datatype

-- `H5VL__stream_type_cache_upsert`
def typeCacheUpsert (cache : TypeCache) (path : Path) (t : Datatype) : TypeCache :=
  Function.update cache path (some t)

end VolStream
