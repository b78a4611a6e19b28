import Mathlib.Data.List.Basic

/-!
# Slices laid out one behind the other

An offset and a length for each of several blocks that are packed into one buffer. `Consecutive a l b` is the
layout a running offset produces: the first slice begins at `a`, each of the others where the one in front of it
ends, and the last one ends at `b`. Such slices are disjoint and cover the range, and each of them holds its block.
-/

namespace Slices

def Consecutive : Nat → List (Nat × Nat) → Nat → Prop
  | a, [], b => a = b
  | a, s :: l, b => s.1 = a ∧ Consecutive (a + s.2) l b

theorem Consecutive.le {a b : Nat} {l : List (Nat × Nat)} (h : Consecutive a l b) : a ≤ b := by
  induction l generalizing a with
  | nil => exact Nat.le_of_eq h
  | cons s l ih => exact Nat.le_trans (Nat.le_add_right a s.2) (ih h.2)

theorem Consecutive.bounds {a b : Nat} {l : List (Nat × Nat)} (h : Consecutive a l b) {s : Nat × Nat} (hs : s ∈ l) :
    a ≤ s.1 ∧ s.1 + s.2 ≤ b := by
  induction l generalizing a with
  | nil => cases hs
  | cons t l ih =>
    obtain ⟨hfirst, hrest⟩ := h
    rcases List.mem_cons.mp hs with rfl | hs
    · have := hrest.le
      omega
    · have := ih hrest hs
      omega

/-- No two of them share a byte. -/
theorem Consecutive.disjoint {a b : Nat} {l : List (Nat × Nat)} (h : Consecutive a l b) :
    l.Pairwise fun s t => s.1 + s.2 ≤ t.1 := by
  induction l generalizing a with
  | nil => exact .nil
  | cons s l ih =>
    obtain ⟨hfirst, hrest⟩ := h
    refine List.pairwise_cons.mpr ⟨fun t ht => ?_, ih hrest⟩
    have := (hrest.bounds ht).1
    omega

/-- Every byte of the range is in one of them. -/
theorem Consecutive.cover {a b : Nat} {l : List (Nat × Nat)} (h : Consecutive a l b) {x : Nat} (hax : a ≤ x)
    (hxb : x < b) : ∃ s ∈ l, s.1 ≤ x ∧ x < s.1 + s.2 := by
  induction l generalizing a with
  | nil =>
    have : a = b := h
    omega
  | cons s l ih =>
    obtain ⟨hfirst, hrest⟩ := h
    by_cases hx : x < a + s.2
    · exact ⟨s, List.mem_cons_self, by omega, by omega⟩
    · obtain ⟨t, ht, hin⟩ := ih hrest (by omega)
      exact ⟨t, List.mem_cons_of_mem _ ht, hin⟩

variable {α : Type}

/-- Each slice of the blocks written one behind the other is its block. -/
theorem Consecutive.read {p t : List α} {l : List (Nat × Nat)} {blocks : List (List α)} {b : Nat}
    (h : Consecutive p.length l b) (hlen : l.map (·.2) = blocks.map List.length) {i : Nat} {s : Nat × Nat}
    {block : List α} (hs : l[i]? = some s) (hblock : blocks[i]? = some block) :
    ((p ++ blocks.flatten ++ t).drop s.1).take s.2 = block := by
  induction l generalizing p blocks i with
  | nil => cases hs
  | cons r l ih =>
    obtain ⟨hfirst, hrest⟩ := h
    cases blocks with
    | nil => cases hblock
    | cons c blocks =>
      rw [List.map_cons, List.map_cons, List.cons.injEq] at hlen
      cases i with
      | zero =>
        cases hs
        cases hblock
        rw [hfirst, hlen.1, List.append_assoc, List.drop_left, List.flatten_cons, List.append_assoc, List.take_left]
      | succ i =>
        have hpre : (p ++ c).length = p.length + r.2 := by rw [List.length_append, hlen.1]
        have := ih (p := p ++ c) (hpre ▸ hrest) hlen.2 hs hblock
        rwa [List.append_assoc p c] at this

/-- Read in order, the slices give the blocks back. -/
theorem Consecutive.read_all {p t : List α} {l : List (Nat × Nat)} {blocks : List (List α)} {b : Nat}
    (h : Consecutive p.length l b) (hlen : l.map (·.2) = blocks.map List.length) :
    l.map (fun s => ((p ++ blocks.flatten ++ t).drop s.1).take s.2) = blocks := by
  have hcount := congrArg List.length hlen
  rw [List.length_map, List.length_map] at hcount
  refine List.ext_getElem (by rw [List.length_map, hcount]) fun i hi hi' => ?_
  rw [List.getElem_map]
  rw [List.length_map] at hi
  exact h.read hlen (List.getElem?_eq_getElem hi) (List.getElem?_eq_getElem hi')

end Slices
