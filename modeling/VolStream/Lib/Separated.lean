import Mathlib.Data.List.Basic

/-!
# Lists cut at a separator

`joinWith sep parts` writes every part behind a separator of its own, the way absolute paths are
spelled. Splitting and joining are inverse (`joinWith_splitOn`, `splitOn_joinWith`), so a joined list
determines its parts as long as none of them holds the separator, and dropping parts makes the
joined list strictly shorter (`all_of_length_joinWith_filter`).
-/

namespace Separated

variable {α : Type*} {sep : α}

def joinWith (sep : α) (parts : List (List α)) : List α := parts.flatMap (sep :: ·)

@[simp] theorem joinWith_nil : joinWith sep [] = [] := rfl

@[simp] theorem joinWith_cons (c : List α) (parts : List (List α)) :
    joinWith sep (c :: parts) = sep :: (c ++ joinWith sep parts) := rfl

@[simp] theorem joinWith_append (p q : List (List α)) :
    joinWith sep (p ++ q) = joinWith sep p ++ joinWith sep q := List.flatMap_append

/-! ## Dropping parts -/

section Filter

variable (f : List α → Bool) (parts : List (List α))

theorem length_joinWith_filter_le :
    (joinWith sep (parts.filter f)).length ≤ (joinWith sep parts).length := by
  induction parts with
  | nil => simp
  | cons c parts ih =>
    by_cases hc : f c = true
    · simp only [List.filter_cons_of_pos hc, joinWith_cons, List.length_cons, List.length_append]
      omega
    · simp only [List.filter_cons_of_neg hc, joinWith_cons, List.length_cons, List.length_append]
      omega

theorem all_of_length_joinWith_filter
    (h : (joinWith sep parts).length ≤ (joinWith sep (parts.filter f)).length) : ∀ c ∈ parts, f c = true := by
  induction parts with
  | nil => simp
  | cons c parts ih =>
    have hle : (joinWith sep (parts.filter f)).length ≤ (joinWith sep parts).length :=
      length_joinWith_filter_le f parts
    by_cases hc : f c = true
    · simp only [List.filter_cons_of_pos hc, joinWith_cons, List.length_cons, List.length_append] at h
      have htail := ih (by omega)
      simpa [hc] using htail
    · -- the dropped part had at least its separator
      simp only [List.filter_cons_of_neg hc, joinWith_cons, List.length_cons, List.length_append] at h
      omega

end Filter

/-! ## Splitting -/

variable [DecidableEq α]

theorem joinWith_splitOn (s : List α) : joinWith sep (s.splitOn sep) = sep :: s := by
  induction s with
  | nil => simp
  | cons a s ih =>
    rw [List.splitOn_cons_eq_if_modifyHead]
    by_cases ha : a = sep
    · simp [ha, ih]
    · -- the head part grows by `a`; there is one, since splitting never gives the empty list
      obtain ⟨c, parts, hsplit⟩ := List.exists_cons_of_ne_nil (List.splitOn_ne_nil sep s)
      rw [hsplit, joinWith_cons, List.cons.injEq] at ih
      simp [ha, hsplit, ih.2]

theorem splitOn_append_of_not_mem {s : List α} (hs : sep ∉ s) (t : List α) :
    (s ++ t).splitOn sep = (t.splitOn sep).modifyHead (s ++ ·) := by
  induction s with
  | nil =>
    rw [List.nil_append]
    cases t.splitOn sep <;> rfl
  | cons a s ih =>
    rw [List.mem_cons, not_or] at hs
    rw [List.cons_append, List.splitOn_cons_eq_if_modifyHead, if_neg (by simpa using Ne.symm hs.1),
      ih hs.2]
    cases t.splitOn sep <;> rfl

theorem splitOn_append_joinWith {s : List α} {parts : List (List α)} (hs : sep ∉ s)
    (hparts : ∀ c ∈ parts, sep ∉ c) : (s ++ joinWith sep parts).splitOn sep = s :: parts := by
  induction parts generalizing s with
  | nil => simpa using List.splitOn_eq_singleton hs
  | cons c parts ih =>
    rw [joinWith_cons, List.splitOn_append_cons_self_of_not_mem hs,
      ih (hparts c (by simp)) fun d hd => hparts d (by simp [hd])]

theorem splitOn_joinWith {parts : List (List α)} (h : ∀ c ∈ parts, sep ∉ c) :
    (joinWith sep parts).splitOn sep = [] :: parts := by
  simpa using splitOn_append_joinWith (s := []) (by simp) h

theorem joinWith_injective {p q : List (List α)} (hp : ∀ c ∈ p, sep ∉ c) (hq : ∀ c ∈ q, sep ∉ c)
    (h : joinWith sep p = joinWith sep q) : p = q := by
  have hsplit := splitOn_joinWith hp
  rw [h, splitOn_joinWith hq, List.cons.injEq] at hsplit
  exact hsplit.2.symm

theorem not_mem_of_mem_splitOn {s c : List α} (hc : c ∈ s.splitOn sep) : sep ∉ c := by
  induction s generalizing c with
  | nil => simp_all
  | cons a s ih =>
    rw [List.splitOn_cons_eq_if_modifyHead] at hc
    by_cases ha : a = sep
    · rw [if_pos (by simpa using ha), List.mem_cons] at hc
      rcases hc with rfl | hc
      · simp
      · exact ih hc
    · obtain ⟨d, parts, hsplit⟩ := List.exists_cons_of_ne_nil (List.splitOn_ne_nil sep s)
      simp only [hsplit, beq_iff_eq, ha, if_false, List.modifyHead_cons, List.mem_cons] at hc
      rcases hc with rfl | hc
      · have hd : sep ∉ d := ih (by simp [hsplit])
        simpa [hd] using Ne.symm ha
      · exact ih (by simp [hsplit, hc])

end Separated
