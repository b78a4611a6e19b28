import Mathlib.Data.List.Basic

/-!
# Tables: growable arrays searched by key

The C idiom behind most of the connector's state: an array of records with a key, looked up
by a scan (or an index over it), updated in place when the key is present and appended to when
it is not. A table is the list of its records in array order.
-/

/-- Records in array order, each with its key. -/
abbrev Table (κ ν : Type) := List (κ × ν)

namespace Table

variable {κ ν : Type} [DecidableEq κ]

def find? : Table κ ν → κ → Option ν
  | [], _ => none
  | (a, v) :: t, k => if a = k then some v else find? t k

-- overwrite the record of `k`, or append one
def set : Table κ ν → κ → ν → Table κ ν
  | [], k, v => [(k, v)]
  | (a, w) :: t, k, v => if a = k then (a, v) :: t else (a, w) :: set t k v

def keys (t : Table κ ν) : List κ := t.map Prod.fst

@[simp] theorem find?_nil (k : κ) : find? ([] : Table κ ν) k = none := rfl

@[simp] theorem find?_cons (a : κ) (v : ν) (t : Table κ ν) (k : κ) :
    find? ((a, v) :: t) k = if a = k then some v else find? t k := rfl

/-- A set is seen by lookups of its key and by no other. -/
@[simp] theorem find?_set (t : Table κ ν) (k k' : κ) (v : ν) :
    find? (set t k v) k' = if k = k' then some v else find? t k' := by
  induction t with
  | nil => rfl
  | cons p t ih =>
    obtain ⟨a, w⟩ := p
    simp only [set]
    split
    · rename_i hak
      subst hak
      simp only [find?_cons]
      split <;> rfl
    · rename_i hak
      simp only [find?_cons, ih]
      split
      · rename_i hak'
        subst hak'
        rw [if_neg (fun h => hak h.symm)]
      · rfl

theorem mem_keys_iff (t : Table κ ν) (k : κ) : k ∈ t.keys ↔ (t.find? k).isSome = true := by
  induction t with
  | nil => simp [keys]
  | cons p t ih =>
    obtain ⟨a, v⟩ := p
    simp only [keys, List.map_cons, List.mem_cons, find?_cons] at ih ⊢
    by_cases h : a = k
    · simp [h]
    · simp [h, ← ih, Ne.symm h]

theorem keys_set (t : Table κ ν) (k : κ) (v : ν) :
    (set t k v).keys = if k ∈ t.keys then t.keys else t.keys ++ [k] := by
  induction t with
  | nil => simp [keys, set]
  | cons p t ih =>
    obtain ⟨a, w⟩ := p
    simp only [keys, set, List.map_cons] at ih ⊢
    split
    · rename_i hak
      simp [hak]
    · rename_i hak
      rw [List.map_cons, ih]
      by_cases hk : k ∈ t.map Prod.fst
      · simp [hk]
      · simp [hk, Ne.symm hak]

/-- Setting keeps the keys distinct. -/
theorem nodup_keys_set {t : Table κ ν} (h : t.keys.Nodup) (k : κ) (v : ν) :
    (set t k v).keys.Nodup := by
  rw [keys_set]
  split
  · exact h
  · rename_i hk
    rw [List.nodup_append]
    refine ⟨h, by simp, ?_⟩
    intro a ha b hb hab
    rw [List.mem_singleton] at hb
    subst hab hb
    exact hk ha

/-- With distinct keys, a lookup finds the record of its key wherever it stands. -/
theorem find?_eq_some_iff {t : Table κ ν} (h : t.keys.Nodup) (k : κ) (v : ν) :
    t.find? k = some v ↔ (k, v) ∈ t := by
  induction t with
  | nil => simp
  | cons p t ih =>
    obtain ⟨a, w⟩ := p
    simp only [keys, List.map_cons, List.nodup_cons] at h
    rw [find?_cons, List.mem_cons, Prod.mk.injEq]
    by_cases hak : a = k
    · subst hak
      have hnot : (a, v) ∉ t := fun hmem => h.1 (List.mem_map_of_mem hmem)
      simp [hnot, eq_comm]
    · simp [hak, Ne.symm hak, ih h.2]

/-- Setting a record to what it is changes nothing. -/
theorem set_of_find? {t : Table κ ν} {k : κ} {v : ν} (h : t.find? k = some v) : t.set k v = t := by
  induction t with
  | nil => cases h
  | cons p t ih =>
    obtain ⟨a, w⟩ := p
    rw [find?_cons] at h
    simp only [set]
    split
    · rename_i hak
      rw [if_pos hak, Option.some.injEq] at h
      rw [h]
    · rename_i hak
      rw [if_neg hak] at h
      rw [ih h]

theorem find?_append (t t' : Table κ ν) (k : κ) : find? (t ++ t') k = (find? t k).or (find? t' k) := by
  induction t with
  | nil => rfl
  | cons p t ih =>
    obtain ⟨a, v⟩ := p
    rw [List.cons_append, find?_cons, find?_cons, ih]
    by_cases h : a = k
    · rw [if_pos h, if_pos h, Option.some_or]
    · rw [if_neg h, if_neg h]

/-- Dropping the records of some keys. -/
theorem find?_filter (t : Table κ ν) (keep : κ → Bool) (k : κ) :
    find? (t.filter fun p => keep p.1) k = if keep k then t.find? k else none := by
  induction t with
  | nil => simp
  | cons p t ih =>
    obtain ⟨a, v⟩ := p
    cases ha : keep a with
    | true =>
      rw [List.filter_cons_of_pos (by exact ha), find?_cons, find?_cons, ih]
      by_cases hak : a = k
      · rw [if_pos hak, if_pos hak, if_pos (hak ▸ ha)]
      · rw [if_neg hak, if_neg hak]
    | false =>
      rw [List.filter_cons_of_neg (by rw [ha]; exact Bool.false_ne_true), ih, find?_cons]
      by_cases hak : a = k
      · rw [if_neg (by rw [← hak, ha]; exact Bool.false_ne_true), if_neg (by rw [← hak, ha]; exact Bool.false_ne_true)]
      · rw [if_neg hak]

theorem filter_of_find?_none {t : Table κ ν} {k : κ} (h : t.find? k = none) :
    t.filter (fun p => decide (p.1 ≠ k)) = t := by
  rw [List.filter_eq_self]
  rintro ⟨a, w⟩ hmem
  have hkey : a ∈ t.keys := List.mem_map_of_mem hmem
  rw [mem_keys_iff] at hkey
  refine decide_eq_true (fun hak => ?_)
  rw [show a = k from hak, h] at hkey
  cases hkey

theorem set_of_not_mem {t : Table κ ν} {k : κ} (h : k ∉ t.keys) (v : ν) : t.set k v = t ++ [(k, v)] := by
  induction t with
  | nil => rfl
  | cons p t ih =>
    obtain ⟨a, w⟩ := p
    rw [keys, List.map_cons, List.mem_cons, not_or] at h
    rw [set, if_neg (Ne.symm h.1), ih h.2, List.cons_append]

/-- Setting the record of a key that stands behind records of others. -/
theorem set_append_cons {t t' : Table κ ν} {k : κ} (h : k ∉ t.keys) (v w : ν) :
    Table.set (t ++ (k, w) :: t') k v = t ++ (k, v) :: t' := by
  induction t with
  | nil => rw [List.nil_append, set, if_pos rfl, List.nil_append]
  | cons p t ih =>
    obtain ⟨a, u⟩ := p
    rw [keys, List.map_cons, List.mem_cons, not_or] at h
    rw [List.cons_append, set, if_neg (Ne.symm h.1), ih h.2, List.cons_append]

/-- Each record made into another one with its key. -/
def amend (f : κ → ν → ν) (t : Table κ ν) : Table κ ν := t.map fun e => (e.1, f e.1 e.2)

omit [DecidableEq κ] in
@[simp] theorem keys_amend (f : κ → ν → ν) (t : Table κ ν) : (amend f t).keys = t.keys := by
  rw [keys, amend, List.map_map]
  rfl

theorem find?_amend (f : κ → ν → ν) (t : Table κ ν) (k : κ) : find? (amend f t) k = (find? t k).map (f k) := by
  induction t with
  | nil => rfl
  | cons p t ih =>
    obtain ⟨a, v⟩ := p
    rw [amend, List.map_cons, find?_cons, find?_cons]
    by_cases h : a = k
    · rw [if_pos h, if_pos h, h, Option.map_some]
    · rw [if_neg h, if_neg h]
      exact ih

/-- Setting a record a filter leaves out, in place of one it leaves out, does not show. -/
theorem filter_set {P : κ × ν → Bool} (t : Table κ ν) {k : κ} {v : ν} (hv : P (k, v) = false)
    (hold : ∀ v', t.find? k = some v' → P (k, v') = false) : (t.set k v).filter P = t.filter P := by
  induction t with
  | nil => simp [set, hv]
  | cons p t ih =>
    obtain ⟨a, w⟩ := p
    simp only [set]
    split
    · rename_i hak
      subst hak
      have hw : P (a, w) = false := hold w (by rw [find?_cons, if_pos rfl])
      rw [List.filter_cons_of_neg (by simp [hv]), List.filter_cons_of_neg (by simp [hw])]
    · rename_i hak
      have hrest := ih (fun v' hv' => hold v' (by rw [find?_cons, if_neg hak]; exact hv'))
      rw [List.filter_cons, List.filter_cons, hrest]

/-- A record and the others. -/
theorem perm_cons_filter {t : Table κ ν} (h : t.keys.Nodup) {k : κ} {v : ν} (hmem : (k, v) ∈ t) :
    t.Perm ((k, v) :: t.filter fun p => decide (p.1 ≠ k)) := by
  induction t with
  | nil => cases hmem
  | cons p t ih =>
    obtain ⟨a, w⟩ := p
    rw [keys, List.map_cons, List.nodup_cons] at h
    rcases List.mem_cons.mp hmem with heq | hmem
    · cases heq
      have hnone : find? t k = none := by
        rw [← Option.not_isSome_iff_eq_none, ← mem_keys_iff]
        exact h.1
      rw [List.filter_cons_of_neg (by simp), filter_of_find?_none hnone]
    · have hak : a ≠ k := by
        intro hak
        have hkey : k ∈ t.map Prod.fst := List.mem_map_of_mem hmem
        exact h.1 (hak ▸ hkey)
      rw [List.filter_cons_of_pos (by simpa using hak)]
      exact ((ih h.2 hmem).cons _).trans (List.Perm.swap _ _ _)

omit [DecidableEq κ] in
theorem nodup_keys_filter {t : Table κ ν} (h : t.keys.Nodup) (P : κ × ν → Bool) : (keys (t.filter P)).Nodup :=
  h.sublist (List.filter_sublist.map _)

end Table
