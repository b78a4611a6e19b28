import Mathlib.Data.List.Basic

/-!
# First occurrence wins

The deduplication loop of a merge: walk a list with the keys seen so far and keep an element when
its key is new. An element without a key is always kept.
-/

namespace FirstWins

variable {α β κ : Type} [DecidableEq κ]

/-- Keep the elements whose key is not in `seen` nor earlier in the list. -/
def keepFirst (key : α → Option κ) : List κ → List α → List α
  | _, [] => []
  | seen, a :: l =>
      match key a with
      | none => a :: keepFirst key seen l
      | some k => if k ∈ seen then keepFirst key seen l else a :: keepFirst key (seen ++ [k]) l

theorem keepFirst_cons_none {key : α → Option κ} {a : α} (h : key a = none) (seen : List κ) (l : List α) :
    keepFirst key seen (a :: l) = a :: keepFirst key seen l := by
  simp only [keepFirst, h]

theorem keepFirst_cons_seen {key : α → Option κ} {a : α} {k : κ} (h : key a = some k) {seen : List κ}
    (hk : k ∈ seen) (l : List α) : keepFirst key seen (a :: l) = keepFirst key seen l := by
  simp only [keepFirst, h, if_pos hk]

theorem keepFirst_cons_new {key : α → Option κ} {a : α} {k : κ} (h : key a = some k) {seen : List κ}
    (hk : k ∉ seen) (l : List α) : keepFirst key seen (a :: l) = a :: keepFirst key (seen ++ [k]) l := by
  simp only [keepFirst, h, if_neg hk]

theorem keepFirst_sublist (key : α → Option κ) (seen : List κ) (l : List α) : (keepFirst key seen l).Sublist l := by
  induction l generalizing seen with
  | nil => exact .slnil
  | cons a l ih =>
    cases hkey : key a with
    | none =>
      rw [keepFirst_cons_none hkey]
      exact (ih seen).cons_cons a
    | some k =>
      by_cases hk : k ∈ seen
      · rw [keepFirst_cons_seen hkey hk]
        exact (ih seen).cons a
      · rw [keepFirst_cons_new hkey hk]
        exact (ih _).cons_cons a

/-- Only the keys decide what is kept. -/
theorem keepFirst_map {f : β → α} {key : α → Option κ} {key' : β → Option κ} (seen : List κ) {l : List β}
    (hf : ∀ b ∈ l, key (f b) = key' b) : keepFirst key seen (l.map f) = (keepFirst key' seen l).map f := by
  induction l generalizing seen with
  | nil => rfl
  | cons b l ih =>
    have hb := hf b List.mem_cons_self
    have hl : ∀ b' ∈ l, key (f b') = key' b' := fun b' hb' => hf b' (List.mem_cons_of_mem b hb')
    rw [List.map_cons]
    cases hkey : key' b with
    | none => rw [keepFirst_cons_none (hb.trans hkey), keepFirst_cons_none hkey, ih _ hl, List.map_cons]
    | some k =>
      by_cases hk : k ∈ seen
      · rw [keepFirst_cons_seen (hb.trans hkey) hk, keepFirst_cons_seen hkey hk, ih _ hl]
      · rw [keepFirst_cons_new (hb.trans hkey) hk, keepFirst_cons_new hkey hk, ih _ hl, List.map_cons]

/-- Dropping every element of some keys before or after is the same. -/
theorem filter_keepFirst {key : α → Option κ} {p : α → Bool} {q : κ → Bool}
    (hp : ∀ a, p a = (key a).any q) {seen seen' : List κ} (hseen : ∀ k, q k → (k ∈ seen ↔ k ∈ seen'))
    (l : List α) : (keepFirst key seen l).filter p = keepFirst key seen' (l.filter p) := by
  induction l generalizing seen seen' with
  | nil => rfl
  | cons a l ih =>
    cases hkey : key a with
    | none =>
      have hpa : ¬ p a = true := by simp [hp, hkey]
      rw [keepFirst_cons_none hkey, List.filter_cons_of_neg hpa, List.filter_cons_of_neg hpa, ih hseen]
    | some k =>
      cases hq : q k with
      | false =>
        have hpa : ¬ p a = true := by simp [hp, hkey, hq]
        rw [List.filter_cons_of_neg hpa]
        by_cases hk : k ∈ seen
        · rw [keepFirst_cons_seen hkey hk, ih hseen]
        · rw [keepFirst_cons_new hkey hk, List.filter_cons_of_neg hpa]
          refine ih (fun k' hk' => ?_)
          have hne : k' ≠ k := by
            rintro rfl
            rw [hq] at hk'
            cases hk'
          rw [List.mem_append, List.mem_singleton, ← hseen k' hk']
          exact or_iff_left hne
      | true =>
        have hpa : p a = true := by rw [hp, hkey, Option.any_some, hq]
        rw [List.filter_cons_of_pos hpa]
        by_cases hk : k ∈ seen
        · rw [keepFirst_cons_seen hkey hk, keepFirst_cons_seen hkey ((hseen k hq).mp hk), ih hseen]
        · rw [keepFirst_cons_new hkey hk, keepFirst_cons_new hkey (fun h => hk ((hseen k hq).mpr h)),
            List.filter_cons_of_pos hpa]
          refine congrArg (a :: ·) (ih (fun k' hk' => ?_))
          rw [List.mem_append, List.mem_append, hseen k' hk']

/-- Elements without a key pass through. -/
theorem filter_keepFirst_none {key : α → Option κ} {p : α → Bool} (hp : ∀ a, p a = true → key a = none)
    (seen : List κ) (l : List α) : (keepFirst key seen l).filter p = l.filter p := by
  induction l generalizing seen with
  | nil => rfl
  | cons a l ih =>
    cases hkey : key a with
    | none => rw [keepFirst_cons_none hkey, List.filter_cons, List.filter_cons, ih]
    | some k =>
      have hpa : ¬ p a = true := fun h => by
        rw [hp a h] at hkey
        cases hkey
      rw [List.filter_cons_of_neg hpa]
      by_cases hk : k ∈ seen
      · rw [keepFirst_cons_seen hkey hk, ih]
      · rw [keepFirst_cons_new hkey hk, List.filter_cons_of_neg hpa, ih]

/-- What is kept is the first of its key. -/
theorem find?_of_mem_keepFirst {key : α → Option κ} {seen : List κ} {l : List α} {a : α} {k : κ}
    (ha : a ∈ keepFirst key seen l) (hk : key a = some k) :
    k ∉ seen ∧ l.find? (fun b => decide (key b = some k)) = some a := by
  induction l generalizing seen with
  | nil => cases ha
  | cons b l ih =>
    cases hkey : key b with
    | none =>
      rw [keepFirst_cons_none hkey] at ha
      rcases List.mem_cons.mp ha with rfl | ha
      · rw [hkey] at hk
        cases hk
      · obtain ⟨hnot, hfind⟩ := ih ha
        exact ⟨hnot, by rw [List.find?_cons_of_neg (by simp [hkey]), hfind]⟩
    | some k' =>
      by_cases hseen : k' ∈ seen
      · rw [keepFirst_cons_seen hkey hseen] at ha
        obtain ⟨hnot, hfind⟩ := ih ha
        have hne : k' ≠ k := fun heq => hnot (heq ▸ hseen)
        exact ⟨hnot, by rw [List.find?_cons_of_neg (by simp [hkey, hne]), hfind]⟩
      · rw [keepFirst_cons_new hkey hseen] at ha
        rcases List.mem_cons.mp ha with rfl | ha
        · rw [hkey, Option.some.injEq] at hk
          subst hk
          exact ⟨hseen, List.find?_cons_of_pos (by simp [hkey])⟩
        · obtain ⟨hnot, hfind⟩ := ih ha
          rw [List.mem_append, List.mem_singleton, not_or] at hnot
          refine ⟨hnot.1, ?_⟩
          rw [List.find?_cons_of_neg (by simp [hkey, Ne.symm hnot.2]), hfind]

/-- A key is kept once if it occurs and was not seen, and not at all otherwise. -/
theorem count_keepFirst [BEq κ] [LawfulBEq κ] (key : α → Option κ) (seen : List κ) (l : List α) (k : κ) :
    ((keepFirst key seen l).filterMap key).count k = if k ∈ l.filterMap key ∧ k ∉ seen then 1 else 0 := by
  induction l generalizing seen with
  | nil => simp [keepFirst]
  | cons a l ih =>
    cases hkey : key a with
    | none =>
      rw [keepFirst_cons_none hkey, List.filterMap_cons_none hkey, List.filterMap_cons_none hkey, ih]
    | some k' =>
      rw [List.filterMap_cons_some hkey]
      by_cases hseen : k' ∈ seen
      · rw [keepFirst_cons_seen hkey hseen, ih]
        by_cases hkk : k = k'
        · subst hkk
          simp [hseen]
        · simp [hkk]
      · rw [keepFirst_cons_new hkey hseen, List.filterMap_cons_some hkey, List.count_cons, ih]
        by_cases hkk : k = k'
        · subst hkk
          simp [hseen]
        · simp [hkk, Ne.symm hkk]

/-! ## Grouping by a key -/

/-- The elements of one key behind the first of them, for each key in the order of these firsts. -/
def grouped (key : α → κ) (l : List α) : List α :=
  (keepFirst some [] (l.map key)).flatMap fun k => l.filter fun a => decide (key a = k)

theorem nodup_keepFirst_some (seen l : List κ) :
    (keepFirst some seen l).Nodup ∧ ∀ k, k ∈ keepFirst some seen l ↔ k ∈ l ∧ k ∉ seen := by
  induction l generalizing seen with
  | nil => exact ⟨List.nodup_nil, fun k => by simp [keepFirst]⟩
  | cons k' l ih =>
    by_cases hseen : k' ∈ seen
    · rw [keepFirst_cons_seen rfl hseen]
      refine ⟨(ih seen).1, fun k => ?_⟩
      rw [(ih seen).2, List.mem_cons]
      refine and_congr_left fun hk => ⟨.inr, fun h => h.resolve_left ?_⟩
      rintro rfl
      exact hk hseen
    · rw [keepFirst_cons_new rfl hseen]
      obtain ⟨hnodup, hmem⟩ := ih (seen ++ [k'])
      refine ⟨List.nodup_cons.mpr ⟨?_, hnodup⟩, fun k => ?_⟩
      · rw [hmem]
        exact fun h => h.2 (List.mem_append_right seen List.mem_cons_self)
      · rw [List.mem_cons, hmem, List.mem_cons, List.mem_append, List.mem_singleton]
        by_cases hk : k = k'
        · subst hk
          simp [hseen]
        · simp [hk]

/-- Grouping moves elements and loses none. -/
theorem perm_grouped (key : α → κ) (l : List α) : (grouped key l).Perm l := by
  have hsplit : ∀ (keys : List κ), keys.Nodup → ∀ l : List α, (∀ a ∈ l, key a ∈ keys) →
      (keys.flatMap fun k => l.filter fun a => decide (key a = k)).Perm l := by
    intro keys
    induction keys with
    | nil =>
      intro _ l hl
      cases l with
      | nil => exact .nil
      | cons a l => exact absurd (hl a List.mem_cons_self) List.not_mem_nil
    | cons k keys ih =>
      intro hnodup l hl
      obtain ⟨hk, hnodup⟩ := List.nodup_cons.mp hnodup
      -- the elements of the other keys are those of `l` without the ones of `k`
      have hrest : (keys.flatMap fun k' => l.filter fun a => decide (key a = k'))
          = keys.flatMap fun k' => (l.filter fun a => !decide (key a = k)).filter fun a => decide (key a = k') := by
        refine List.flatMap_congr fun k' hk' => ?_
        rw [List.filter_filter]
        refine List.filter_congr fun a _ => ?_
        by_cases ha : key a = k'
        · have hne : k' ≠ k := fun h => hk (h ▸ hk')
          simp [ha, hne]
        · simp [ha]
      rw [List.flatMap_cons, hrest]
      refine List.Perm.trans (.append_left _ (ih hnodup _ fun a ha => ?_)) (List.filter_append_perm _ l)
      obtain ⟨hmem, hne⟩ := List.mem_filter.mp ha
      exact (List.mem_cons.mp (hl a hmem)).resolve_left (by simpa using hne)
  obtain ⟨hnodup, hmem⟩ := nodup_keepFirst_some (κ := κ) [] (l.map key)
  exact hsplit _ hnodup l fun a ha => (hmem (key a)).mpr ⟨List.mem_map_of_mem ha, List.not_mem_nil⟩

/-- Elements of one key keep their order. -/
theorem filter_grouped {key : α → κ} {p : α → Bool} {k : κ} (hp : ∀ a, p a = true → key a = k) (l : List α) :
    (grouped key l).filter p = l.filter p := by
  have hother : ∀ k', k' ≠ k → ((l.filter fun a => decide (key a = k')).filter p) = [] := by
    intro k' hne
    rw [List.filter_filter, List.filter_eq_nil_iff]
    intro a _
    rw [Bool.and_eq_true, not_and, decide_eq_true_iff]
    exact fun hpa hk' => hne (hk'.symm.trans (hp a hpa))
  have hown : ((l.filter fun a => decide (key a = k)).filter p) = l.filter p := by
    rw [List.filter_filter]
    refine List.filter_congr fun a _ => ?_
    cases hpa : p a with
    | false => rfl
    | true => simp [hp a hpa]
  have hkeys : ∀ keys : List κ, keys.Nodup →
      (keys.flatMap fun k' => (l.filter fun a => decide (key a = k')).filter p)
        = if k ∈ keys then l.filter p else [] := by
    intro keys
    induction keys with
    | nil => exact fun _ => rfl
    | cons k' keys ih =>
      intro hnodup
      obtain ⟨hk', hnodup⟩ := List.nodup_cons.mp hnodup
      rw [List.flatMap_cons, ih hnodup]
      by_cases hk : k' = k
      · subst hk
        rw [hown, if_neg hk', List.append_nil, if_pos List.mem_cons_self]
      · rw [hother k' hk, List.nil_append]
        simp [Ne.symm hk]
  obtain ⟨hnodup, hmem⟩ := nodup_keepFirst_some (κ := κ) [] (l.map key)
  rw [grouped, List.filter_flatMap, hkeys _ hnodup]
  by_cases hk : k ∈ keepFirst some [] (l.map key)
  · rw [if_pos hk]
  · rw [if_neg hk, eq_comm, List.filter_eq_nil_iff]
    intro a ha hpa
    exact hk ((hmem k).mpr ⟨hp a hpa ▸ List.mem_map_of_mem ha, List.not_mem_nil⟩)

end FirstWins
