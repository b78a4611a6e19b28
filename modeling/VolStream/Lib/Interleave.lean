import Mathlib.Data.List.Basic

/-!
# Interleavings

Several parties each work through a list of their own, and nothing orders one party's steps against another's.
`Interleaves ls l` says that `l` is one of the orders in which the steps of `ls` may fall. Where at most one party
has steps of a kind, these steps come in that party's order in every interleaving (`Interleaves.filter_eq`).
-/

variable {α : Type}

/-- `l` takes the heads of the lists `ls` in some order until none has one left. -/
inductive Interleaves : List (List α) → List α → Prop where
  | done {ls : List (List α)} (h : ∀ l ∈ ls, l = []) : Interleaves ls []
  | step {front back : List (List α)} {a : α} {l out : List α} (h : Interleaves (front ++ l :: back) out) :
      Interleaves (front ++ (a :: l) :: back) (a :: out)

namespace Interleaves

variable {ls : List (List α)} {out : List α}

/-- Every step of every party, once. -/
theorem perm (h : Interleaves ls out) : out.Perm ls.flatten := by
  induction h with
  | done h =>
    rw [List.flatten_eq_nil_iff.mpr h]
  | @step front back a l out _ ih =>
    rw [List.flatten_append, List.flatten_cons] at ih ⊢
    exact (ih.cons a).trans List.perm_middle.symm

/-- One party after the other is an interleaving. -/
theorem flatten (ls : List (List α)) : Interleaves ls ls.flatten := by
  have hfront : ∀ (front : List (List α)), (∀ l ∈ front, l = []) → ∀ back : List (List α),
      Interleaves (front ++ back) back.flatten := by
    intro front hempty back
    induction back generalizing front with
    | nil =>
      rw [List.append_nil]
      exact .done hempty
    | cons l back ih =>
      rw [List.flatten_cons]
      induction l with
      | nil =>
        have := ih (front ++ [[]]) (fun l hl => by
          rcases List.mem_append.mp hl with hl | hl
          · exact hempty l hl
          · exact List.mem_singleton.mp hl)
        rwa [List.append_assoc, List.singleton_append] at this
      | cons a l ihl => exact .step ihl
  exact hfront [] (List.forall_mem_nil _) ls

/-- Steps of one kind, among themselves. -/
theorem filter (h : Interleaves ls out) (p : α → Bool) : Interleaves (ls.map (List.filter p)) (out.filter p) := by
  induction h with
  | done h =>
    refine .done fun l hl => ?_
    obtain ⟨l', hl', rfl⟩ := List.mem_map.mp hl
    rw [h l' hl', List.filter_nil]
  | @step front back a l out _ ih =>
    rw [List.map_append, List.map_cons] at ih ⊢
    by_cases ha : p a = true
    · rw [List.filter_cons_of_pos ha, List.filter_cons_of_pos ha]
      exact .step ih
    · rwa [List.filter_cons_of_neg ha, List.filter_cons_of_neg ha]

/-- Only one party has steps: its own order. -/
theorem eq_flatten (h : Interleaves ls out) (hone : ls.Pairwise fun l m => l = [] ∨ m = []) : out = ls.flatten := by
  induction h with
  | done h => exact (List.flatten_eq_nil_iff.mpr h).symm
  | @step front back a l out _ ih =>
    obtain ⟨hfront, hback, hcross⟩ := List.pairwise_append.mp hone
    obtain ⟨hhead, hback⟩ := List.pairwise_cons.mp hback
    have hempty : ∀ m ∈ front, m = [] := fun m hm =>
      (hcross m hm (a :: l) List.mem_cons_self).resolve_right (List.cons_ne_nil a l)
    have hempty' : ∀ m ∈ back, m = [] := fun m hm =>
      (hhead m hm).resolve_left (List.cons_ne_nil a l)
    have hout := ih (List.pairwise_append.mpr ⟨hfront,
      List.pairwise_cons.mpr ⟨fun m hm => .inr (hempty' m hm), hback⟩, fun m hm _ _ => .inl (hempty m hm)⟩)
    rw [hout, List.flatten_append, List.flatten_append, List.flatten_cons, List.flatten_cons,
      List.flatten_eq_nil_iff.mpr hempty]
    rfl

/-- Where at most one party has steps of a kind, they fall in that party's order. -/
theorem filter_eq (h : Interleaves ls out) {p : α → Bool}
    (hone : ls.Pairwise fun l m => l.filter p = [] ∨ m.filter p = []) : out.filter p = ls.flatten.filter p := by
  rw [(h.filter p).eq_flatten (List.pairwise_map.mpr hone), List.filter_flatten]

end Interleaves
