import VolStream.Lib.LastWins
import Mathlib.Algebra.Group.Nat.Defs
import Mathlib.Data.List.Basic
import Mathlib.Data.List.GetD
import Mathlib.Data.List.ReduceOption
import Mathlib.Data.Nat.Find

/-!
# Open addressing

A table of cells, each empty or with an entry. The entry of a key is looked for from the cell the key's hash
names, one cell after another and around the end, until the key or an empty cell is met (`probe`). The table
is read correctly as long as every entry is the one its own key's probe arrives at (`Placed`); that the probe
ends at all is due to an empty cell. Nothing is asked of the hash.

`Placed.put` keeps the invariant, `lookup_put` says what is found afterwards, and `insertAll_spec` does both
for the entries of a table that are moved to a larger one.
-/

namespace Probing

open LastWins

variable {κ ν : Type} [DecidableEq κ] (hash : κ → Nat)

/-- The cells; an empty one has nothing to show for a value. -/
abbrev Cells (κ ν : Type) := List (Option (κ × ν))

def cell (t : Cells κ ν) (i : Nat) : Option (κ × ν) := t.getD i none

/-- A probe for `k` goes on behind a cell with another key. -/
def passes (t : Cells κ ν) (k : κ) (i : Nat) : Bool :=
  match cell t i with
  | some e => e.1 ≠ k
  | none => false

/-- From cell `i` on, `fuel` cells at most. -/
def probe (t : Cells κ ν) (k : κ) : Nat → Nat → Option Nat
  | 0, _ => none
  | fuel + 1, i => if passes t k i then probe t k fuel ((i + 1) % t.length) else some i

/-- Behind as many steps as there are cells the probe would begin anew. -/
def slot (t : Cells κ ν) (k : κ) : Option Nat := probe t k t.length (hash k % t.length)

def put (t : Cells κ ν) (i : Nat) (k : κ) (v : ν) : Cells κ ν := t.set i (some (k, v))

/-- What is stored for `k`; the outer `none` is a probe without an end. -/
def lookup (t : Cells κ ν) (k : κ) : Option (Option ν) := (slot hash t k).map fun i => (cell t i).map (·.2)

def insert (t : Cells κ ν) (k : κ) (v : ν) : Option (Cells κ ν) := (slot hash t k).map fun i => put t i k v

def insertAll : Cells κ ν → List (κ × ν) → Option (Cells κ ν)
  | t, [] => some t
  | t, e :: l => (insert hash t e.1 e.2).bind fun t' => insertAll t' l

/-- The entries, in the order of the cells. -/
def entries (t : Cells κ ν) : List (κ × ν) := t.reduceOption

/-- A probe with an end. -/
def Room (t : Cells κ ν) : Prop := ∃ i < t.length, cell t i = none

/-- Every entry stands where the probe for its key ends. -/
def Placed (t : Cells κ ν) : Prop := ∀ i e, cell t i = some e → slot hash t e.1 = some i

/-! ## The probe -/

omit [DecidableEq κ] in
theorem cell_lt {t : Cells κ ν} {i : Nat} {e : κ × ν} (h : cell t i = some e) : i < t.length := by
  by_contra hi
  rw [cell, List.getD_eq_getElem?_getD, List.getElem?_eq_none (Nat.le_of_not_lt hi)] at h
  cases h

/-- Where a probe ends: at the first of its cells that it does not pass. -/
theorem probe_eq_some {t : Cells κ ν} {k : κ} {fuel i j : Nat} (hi : i < t.length) :
    probe t k fuel i = some j ↔
      ∃ d < fuel, j = (i + d) % t.length ∧ (∀ e < d, passes t k ((i + e) % t.length) = true) ∧
        passes t k j = false := by
  induction fuel generalizing i with
  | zero => simp [probe]
  | succ fuel ih =>
    have hnext : (i + 1) % t.length < t.length := Nat.mod_lt _ (Nat.zero_lt_of_lt hi)
    have hshift : ∀ d, ((i + 1) % t.length + d) % t.length = (i + (d + 1)) % t.length := by
      intro d
      rw [Nat.mod_add_mod, Nat.add_assoc, Nat.add_comm 1]
    have hfirst : (i + 0) % t.length = i := Nat.mod_eq_of_lt hi
    rw [probe]
    cases hp : passes t k i with
    | true =>
      rw [if_pos rfl, ih hnext]
      constructor
      · rintro ⟨d, hd, hj, hpass, hstop⟩
        refine ⟨d + 1, Nat.succ_lt_succ hd, by rw [hj, hshift], ?_, hstop⟩
        intro e he
        cases e with
        | zero => rwa [hfirst]
        | succ e => rw [← hshift]; exact hpass e (Nat.lt_of_succ_lt_succ he)
      · rintro ⟨d, hd, hj, hpass, hstop⟩
        cases d with
        | zero =>
          rw [hj, hfirst, hp] at hstop
          cases hstop
        | succ d =>
          refine ⟨d, Nat.lt_of_succ_lt_succ hd, by rw [hj, hshift], ?_, hstop⟩
          intro e he
          rw [hshift]
          exact hpass (e + 1) (Nat.succ_lt_succ he)
    | false =>
      rw [if_neg Bool.false_ne_true]
      constructor
      · rintro h
        cases h
        exact ⟨0, Nat.succ_pos _, hfirst.symm, nofun, hp⟩
      · rintro ⟨d, hd, hj, hpass, hstop⟩
        cases d with
        | zero => rw [hj, hfirst]
        | succ d =>
          have := hpass 0 (Nat.succ_pos d)
          rw [hfirst, hp] at this
          cases this

/-- Two tables in which the probe passes the same cells and ends at the same one. -/
theorem probe_congr {t t' : Cells κ ν} {k : κ} {fuel i j : Nat} (hi : i < t.length) (hlen : t'.length = t.length)
    (h : probe t k fuel i = some j) (hpass : ∀ m, passes t k m = true → passes t' k m = true)
    (hstop : passes t' k j = false) : probe t' k fuel i = some j := by
  obtain ⟨d, hd, hj, hp, -⟩ := (probe_eq_some hi).mp h
  refine (probe_eq_some (hlen ▸ hi)).mpr ⟨d, hd, hlen ▸ hj, fun e he => ?_, hstop⟩
  rw [hlen]
  exact hpass _ (hp e he)

/-- An empty cell ends every probe, within one round. -/
theorem Room.probe_isSome {t : Cells κ ν} (h : Room t) (k : κ) {i : Nat} (hi : i < t.length) :
    ∃ j < t.length, probe t k t.length i = some j := by
  obtain ⟨m, hm, hempty⟩ := h
  have hstop : passes t k m = false := by rw [passes, hempty]
  -- the distance from the start to the empty cell, around the end
  have hex : ∃ d, d < t.length ∧ passes t k ((i + d) % t.length) = false := by
    by_cases hle : i ≤ m
    · refine ⟨m - i, by omega, ?_⟩
      rwa [Nat.add_sub_cancel' hle, Nat.mod_eq_of_lt hm]
    · refine ⟨m + t.length - i, by omega, ?_⟩
      have hsum : i + (m + t.length - i) = m + t.length := by omega
      rwa [hsum, Nat.add_mod_right, Nat.mod_eq_of_lt hm]
  have hmin := Nat.find_spec hex
  refine ⟨(i + Nat.find hex) % t.length, Nat.mod_lt _ (Nat.zero_lt_of_lt hi), (probe_eq_some hi).mpr
    ⟨Nat.find hex, hmin.1, rfl, fun e he => ?_, hmin.2⟩⟩
  have hnot := Nat.find_min hex he
  simpa [Nat.lt_trans he hmin.1] using hnot

omit [DecidableEq κ] in
theorem Room.length_pos {t : Cells κ ν} (h : Room t) : 0 < t.length := by
  obtain ⟨i, hi, -⟩ := h
  exact Nat.zero_lt_of_lt hi

theorem Room.slot_isSome {t : Cells κ ν} (h : Room t) (k : κ) : ∃ i < t.length, slot hash t k = some i :=
  h.probe_isSome k (Nat.mod_lt _ h.length_pos)

/-- A probe ends at an empty cell or at its key. -/
theorem slot_cell {t : Cells κ ν} {k : κ} {i : Nat} {e : κ × ν} (h : slot hash t k = some i)
    (hi : cell t i = some e) : e.1 = k := by
  have hpos := Nat.zero_lt_of_lt (cell_lt hi)
  obtain ⟨-, -, -, -, hstop⟩ := (probe_eq_some (Nat.mod_lt _ hpos)).mp h
  rw [passes, hi] at hstop
  simpa using hstop

/-! ## Lookups -/

variable {hash}

/-- A placed table shows exactly its entries. -/
theorem lookup_eq_some {t : Cells κ ν} (hp : Placed hash t) (hr : Room t) (k : κ) (v : ν) :
    lookup hash t k = some (some v) ↔ ∃ i, cell t i = some (k, v) := by
  obtain ⟨i, -, hslot⟩ := hr.slot_isSome hash k
  have hlookup : lookup hash t k = some ((cell t i).map (·.2)) := by rw [lookup, hslot, Option.map_some]
  rw [hlookup, Option.some.injEq]
  constructor
  · intro h
    obtain ⟨⟨k', v'⟩, hcell, rfl⟩ := Option.map_eq_some_iff.mp h
    have : k' = k := slot_cell hash hslot hcell
    exact ⟨i, this ▸ hcell⟩
  · rintro ⟨j, hj⟩
    have hij : i = j := Option.some.inj (hslot.symm.trans (hp j (k, v) hj))
    rw [hij, hj]
    rfl

theorem lookup_isSome (hash : κ → Nat) {t : Cells κ ν} (hr : Room t) (k : κ) : ∃ r, lookup hash t k = some r := by
  obtain ⟨i, -, hslot⟩ := hr.slot_isSome hash k
  exact ⟨_, by rw [lookup, hslot, Option.map_some]⟩

/-- Tables with the same entries show the same. -/
theorem lookup_congr {t t' : Cells κ ν} (hp : Placed hash t) (hr : Room t) (hp' : Placed hash t') (hr' : Room t')
    {k : κ} (h : ∀ v, (∃ i, cell t' i = some (k, v)) ↔ ∃ i, cell t i = some (k, v)) :
    lookup hash t' k = lookup hash t k := by
  obtain ⟨r, hlook⟩ := lookup_isSome hash hr k
  obtain ⟨r', hlook'⟩ := lookup_isSome hash hr' k
  rw [hlook, hlook']
  congr 1
  apply Option.ext
  intro v
  have hv := lookup_eq_some hp hr k v
  have hv' := lookup_eq_some hp' hr' k v
  rw [hlook, Option.some.injEq] at hv
  rw [hlook', Option.some.injEq] at hv'
  rw [hv, hv', h]

/-! ## Putting an entry in -/

omit [DecidableEq κ] in
@[simp] theorem length_put (t : Cells κ ν) (i : Nat) (k : κ) (v : ν) : (put t i k v).length = t.length :=
  List.length_set

omit [DecidableEq κ] in
theorem cell_put {t : Cells κ ν} {i : Nat} (hi : i < t.length) (k : κ) (v : ν) (j : Nat) :
    cell (put t i k v) j = if j = i then some (k, v) else cell t j := by
  unfold cell put
  rw [List.getD_eq_getElem?_getD, List.getD_eq_getElem?_getD, List.getElem?_set]
  by_cases hj : j = i
  · subst hj
    rw [if_pos rfl, if_pos hi, if_pos rfl]
    rfl
  · rw [if_neg (Ne.symm hj), if_neg hj]

/-- The entry goes where the probe for its key ends; every other entry is still where its own probe ends. -/
theorem Placed.put {t : Cells κ ν} (hp : Placed hash t) {k : κ} {i : Nat} (hi : i < t.length)
    (hslot : slot hash t k = some i) (v : ν) : Placed hash (put t i k v) := by
  have hpos := Nat.zero_lt_of_lt hi
  intro j e he
  rw [cell_put hi] at he
  -- no cell that a probe passed is passed no more: only `i` changed, and it shows `k` now
  have hpass : ∀ k' m, (m = i → k' ≠ k) → passes t k' m = true → passes (Probing.put t i k v) k' m = true := by
    intro k' m hm hpass
    rw [passes, cell_put hi]
    by_cases hmi : m = i
    · rw [if_pos hmi]
      exact decide_eq_true (Ne.symm (hm hmi))
    · rw [if_neg hmi]
      exact hpass
  have hat : ∀ k', slot hash (Probing.put t i k v) k' = probe (Probing.put t i k v) k' t.length (hash k' % t.length) := by
    intro k'
    rw [slot, length_put]
  by_cases hj : j = i
  · rw [if_pos hj, Option.some.injEq] at he
    subst he hj
    rw [hat]
    refine probe_congr (Nat.mod_lt _ hpos) (length_put ..) hslot (fun m hm => hpass k m ?_ hm) ?_
    · -- the probe for `k` does not pass the cell it ends at
      rintro rfl
      obtain ⟨-, -, -, -, hstop⟩ := (probe_eq_some (Nat.mod_lt _ hpos)).mp hslot
      rw [hm] at hstop
      cases hstop
    · rw [passes, cell_put hi, if_pos rfl]
      exact decide_eq_false fun h => h rfl
  · rw [if_neg hj] at he
    have hslot' := hp j e he
    have hne : e.1 ≠ k := by
      intro hek
      rw [hek, hslot, Option.some.injEq] at hslot'
      exact hj hslot'.symm
    rw [hat]
    refine probe_congr (Nat.mod_lt _ hpos) (length_put ..) hslot' (fun m hm => hpass e.1 m (fun _ => hne) hm) ?_
    rw [passes, cell_put hi, if_neg hj, he]
    exact decide_eq_false fun h => h rfl

/-- The key shows its new value, every other key what it showed before. -/
theorem lookup_put {t : Cells κ ν} (hp : Placed hash t) (hr : Room t) {k : κ} {i : Nat} (hi : i < t.length)
    (hslot : slot hash t k = some i) (v : ν) (hr' : Room (put t i k v)) (k' : κ) :
    lookup hash (put t i k v) k' = if k' = k then some (some v) else lookup hash t k' := by
  have hp' := hp.put hi hslot v
  by_cases hk : k' = k
  · subst hk
    rw [if_pos rfl, lookup_eq_some hp' hr']
    exact ⟨i, by rw [cell_put hi, if_pos rfl]⟩
  · rw [if_neg hk]
    refine lookup_congr hp hr hp' hr' fun v' => ?_
    constructor
    · rintro ⟨j, hj⟩
      rw [cell_put hi] at hj
      by_cases hji : j = i
      · rw [if_pos hji, Option.some.injEq, Prod.mk.injEq] at hj
        exact absurd hj.1.symm hk
      · rw [if_neg hji] at hj
        exact ⟨j, hj⟩
    · rintro ⟨j, hj⟩
      refine ⟨j, ?_⟩
      rw [cell_put hi, if_neg, hj]
      rintro rfl
      exact hk (slot_cell hash hslot hj)

/-! ## How full a table is -/

/-- The number of entries. -/
def used (t : Cells κ ν) : Nat := t.countP (·.isSome)

omit [DecidableEq κ] in
theorem used_le (t : Cells κ ν) : used t ≤ t.length := List.countP_le_length

omit [DecidableEq κ] in
theorem room_of_used {t : Cells κ ν} (h : used t < t.length) : Room t := by
  by_contra hno
  have hall : used t = t.length := by
    refine List.countP_eq_length.mpr fun c hc => ?_
    obtain ⟨i, hi, rfl⟩ := List.mem_iff_getElem.mp hc
    by_contra hnone
    have hci : t[i] = none := by simpa using hnone
    exact hno ⟨i, hi, by rw [cell, List.getD_eq_getElem _ _ hi, hci]⟩
  omega

omit [DecidableEq κ] in
theorem used_put {t : Cells κ ν} {i : Nat} (hi : i < t.length) (k : κ) (v : ν) :
    used (put t i k v) = if cell t i = none then used t + 1 else used t := by
  unfold used put cell
  rw [List.countP_set hi, List.getD_eq_getElem _ _ hi]
  cases hc : t[i] with
  | none => simp
  | some e =>
    have : 0 < t.countP (·.isSome) := List.countP_pos_iff.mpr ⟨t[i], List.getElem_mem hi, by rw [hc]; rfl⟩
    simp
    omega

/-! ## Moving to a larger table -/

/-- Entries inserted one after another into a table with room for all of them. -/
theorem insertAll_spec {t : Cells κ ν} (hp : Placed hash t) {l : List (κ × ν)} (hroom : used t + l.length < t.length) :
    ∃ t', insertAll hash t l = some t' ∧ t'.length = t.length ∧ Placed hash t' ∧ used t' ≤ used t + l.length ∧
      ∀ k, lookup hash t' k = (lookup hash t k).map fun r => (lookupLast l k).or r := by
  induction l generalizing t with
  | nil => exact ⟨t, rfl, rfl, hp, Nat.le_refl _, fun k => by cases lookup hash t k <;> rfl⟩
  | cons e l ih =>
    obtain ⟨k, v⟩ := e
    rw [List.length_cons] at hroom
    have hr : Room t := room_of_used (by omega)
    obtain ⟨i, hi, hslot⟩ := hr.slot_isSome hash k
    have hused : used (put t i k v) ≤ used t + 1 := by
      rw [used_put hi]
      split <;> omega
    have hr' : Room (put t i k v) := room_of_used (by rw [length_put]; omega)
    obtain ⟨t', hins, hlen, hp', hused', hlook⟩ := ih (hp.put hi hslot v) (by rw [length_put]; omega)
    refine ⟨t', ?_, by rw [hlen, length_put], hp', by rw [List.length_cons]; omega, fun k' => ?_⟩
    · rw [insertAll, insert, hslot, Option.map_some, Option.bind_some, hins]
    · rw [hlook, lookup_put hp hr hi hslot v hr']
      obtain ⟨r, hlr⟩ := lookup_isSome hash hr k'
      have hcons : lookupLast ((k, v) :: l) k' = (lookupLast l k').or (lookupLast [(k, v)] k') :=
        lookupLast_append [(k, v)] l k'
      by_cases hk : k' = k
      · subst hk
        have hone : lookupLast [(k', v)] k' = some v := by simp [lookupLast]
        rw [if_pos rfl, hlr, hcons, hone]
        simp
      · have hone : lookupLast [(k, v)] k' = none := by simp [lookupLast, Ne.symm hk]
        rw [if_neg hk, hlr, hcons, hone]
        simp

omit [DecidableEq κ] in
/-- A table of empty cells. -/
theorem cell_replicate (c i : Nat) : cell (List.replicate c (none : Option (κ × ν))) i = none := by
  unfold cell
  rw [List.getD_eq_getElem?_getD, List.getElem?_replicate]
  split <;> rfl

omit [DecidableEq κ] in
theorem length_entries (t : Cells κ ν) : (entries t).length = used t := by
  rw [entries, List.reduceOption_length_eq, used, List.countP_eq_length_filter]

omit [DecidableEq κ] in
theorem mem_entries {t : Cells κ ν} {e : κ × ν} : e ∈ entries t ↔ ∃ i, cell t i = some e := by
  rw [entries, List.reduceOption_mem_iff, List.mem_iff_getElem?]
  refine exists_congr fun i => ?_
  rw [cell, List.getD_eq_getElem?_getD]
  cases t[i]? <;> simp

/-- What a placed table shows is a matter of its entries alone. -/
theorem lookup_entries {t : Cells κ ν} (hp : Placed hash t) (hr : Room t) (k : κ) :
    lookup hash t k = some (lookupLast (entries t) k) := by
  obtain ⟨r, hlook⟩ := lookup_isSome hash hr k
  have hshow : ∀ v, r = some v ↔ (k, v) ∈ entries t := by
    intro v
    rw [mem_entries, ← lookup_eq_some hp hr, hlook, Option.some.injEq]
  rw [hlook]
  congr 1
  cases hlast : lookupLast (entries t) k with
  | none =>
    cases r with
    | none => rfl
    | some v => exact absurd rfl (lookupLast_eq_none.mp hlast (k, v) ((hshow v).mp rfl))
  | some v => exact (hshow v).mpr (mem_of_lookupLast hlast)

/-- The entries of a table, moved to an empty one with more cells than there are entries. -/
theorem rehash_spec (hash : κ → Nat) (t : Cells κ ν) {c : Nat} (hc : used t < c) :
    ∃ t', insertAll hash (List.replicate c none) (entries t) = some t' ∧ t'.length = c ∧ Placed hash t' ∧
      used t' ≤ used t ∧ ∀ k, lookup hash t' k = some (lookupLast (entries t) k) := by
  have hempty : Placed hash (List.replicate c (none : Option (κ × ν))) := by
    intro i e he
    rw [cell_replicate] at he
    cases he
  have hused : used (List.replicate c (none : Option (κ × ν))) = 0 := by simp [used]
  have hlen : (List.replicate c (none : Option (κ × ν))).length = c := List.length_replicate
  obtain ⟨t', hins, hlen', hp, hu, hlook⟩ := insertAll_spec hempty (l := entries t) (by rw [hused, hlen, length_entries]; omega)
  rw [hused, length_entries, Nat.zero_add] at hu
  refine ⟨t', hins, hlen'.trans hlen, hp, hu, fun k => ?_⟩
  have hroom : Room (List.replicate c (none : Option (κ × ν))) := room_of_used (by omega)
  have hnil : entries (List.replicate c (none : Option (κ × ν))) = [] := List.reduceOption_replicate_none
  rw [hlook, lookup_entries hempty hroom, hnil, lookupLast_nil, Option.map_some, Option.or_none]

end Probing
