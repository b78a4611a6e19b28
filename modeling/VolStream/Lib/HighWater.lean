import VolStream.Lib.Table

/-!
# High-water marks

A table that holds, for each key, the greatest value reported of it. Reports may come late, twice or out of order: a
mark never falls, and it is always one of the values reported.
-/

namespace HighWater

variable {κ : Type} [DecidableEq κ]

/-- A report raises the mark of its key; a key that has none gets one if there is room. -/
def report (room : Bool) (t : Table κ Nat) (k : κ) (n : Nat) : Table κ Nat :=
  match t.find? k with
  | some m => if m < n then t.set k n else t
  | none => if room then t.set k n else t

/-- Whether a report is taken. -/
def takes (room : Bool) (t : Table κ Nat) (k : κ) : Bool := room || (t.find? k).isSome

-- the least value so far
def leastStep (counts : κ → Bool) (found : Option Nat) (e : κ × Nat) : Option Nat :=
  if counts e.1 then
    match found with
    | none => some e.2
    | some min => some (if e.2 < min then e.2 else min)
  else found

/-- The least mark of the keys that count. -/
def least (counts : κ → Bool) (t : Table κ Nat) : Option Nat := t.foldl (leastStep counts) none

section

variable {room : Bool} {t : Table κ Nat} {k : κ} {n : Nat}

theorem find?_report_of_ne {k' : κ} (h : k ≠ k') : (report room t k n).find? k' = t.find? k' := by
  unfold report
  cases t.find? k with
  | none => cases room <;> simp [h]
  | some m =>
    dsimp only
    split
    · rw [Table.find?_set, if_neg h]
    · rfl

theorem find?_report_of_some {m : Nat} (h : t.find? k = some m) :
    (report room t k n).find? k = some (Nat.max m n) := by
  unfold report
  rw [h]
  dsimp only
  split
  · rename_i hlt
    rw [Table.find?_set, if_pos rfl, show Nat.max m n = n from Nat.max_eq_right (Nat.le_of_lt hlt)]
  · rename_i hlt
    rw [h, show Nat.max m n = m from Nat.max_eq_left (Nat.not_lt.mp hlt)]

theorem find?_report_of_none (h : t.find? k = none) :
    (report room t k n).find? k = if room then some n else none := by
  unfold report
  rw [h]
  cases room with
  | true => simp
  | false => simp [h]

theorem nodup_report (h : t.keys.Nodup) : (report room t k n).keys.Nodup := by
  unfold report
  cases t.find? k with
  | none =>
    cases room with
    | true => exact Table.nodup_keys_set h k n
    | false => exact h
  | some m =>
    dsimp only
    split
    · exact Table.nodup_keys_set h k n
    · exact h

/-- A mark stays, or rises. -/
theorem report_mono {k' : κ} {m : Nat} (h : t.find? k' = some m) :
    ∃ m', (report room t k n).find? k' = some m' ∧ m ≤ m' := by
  by_cases hk : k = k'
  · subst hk
    exact ⟨_, find?_report_of_some h, Nat.le_max_left m n⟩
  · exact ⟨m, (find?_report_of_ne hk).trans h, Nat.le_refl m⟩

/-- A report that is taken is under the mark. -/
theorem report_covers (h : takes room t k = true) : ∃ m, (report room t k n).find? k = some m ∧ n ≤ m := by
  cases hfind : t.find? k with
  | some m => exact ⟨_, find?_report_of_some hfind, Nat.le_max_right m n⟩
  | none =>
    have hroom : room = true := by simpa [takes, hfind] using h
    exact ⟨n, by rw [find?_report_of_none hfind, if_pos hroom], Nat.le_refl n⟩

/-- A mark after a report is the mark before it, or the report. -/
theorem find?_report_eq_some {k' : κ} {m : Nat} (h : (report room t k n).find? k' = some m) :
    t.find? k' = some m ∨ (k' = k ∧ m = n) := by
  by_cases hk : k = k'
  · subst hk
    cases hfind : t.find? k with
    | none =>
      rw [find?_report_of_none hfind] at h
      cases room with
      | true => exact .inr ⟨rfl, (Option.some.inj h).symm⟩
      | false => cases h
    | some m' =>
      rw [find?_report_of_some hfind] at h
      have hmax : Nat.max m' n = m := Option.some.inj h
      by_cases hle : n ≤ m'
      · rw [show Nat.max m' n = m' from Nat.max_eq_left hle] at hmax
        exact .inl (by rw [hmax])
      · rw [show Nat.max m' n = n from Nat.max_eq_right (by omega)] at hmax
        exact .inr ⟨rfl, hmax.symm⟩
  · rw [find?_report_of_ne hk] at h
    exact .inl h

end

/-! ## The least mark -/

section

variable (counts : κ → Bool)

omit [DecidableEq κ] in
theorem foldl_leastStep (t : Table κ Nat) (found : Option Nat) (m : Nat) :
    t.foldl (leastStep counts) found = some m ↔
      (found = some m ∨ ∃ e ∈ t, counts e.1 = true ∧ e.2 = m) ∧ (∀ n, found = some n → m ≤ n) ∧
        ∀ e ∈ t, counts e.1 = true → m ≤ e.2 := by
  induction t generalizing found with
  | nil =>
    refine ⟨fun h => ?_, fun h => ?_⟩
    · have h : found = some m := h
      refine ⟨.inl h, fun n hn => ?_, fun e he => by cases he⟩
      rw [h, Option.some.injEq] at hn
      exact Nat.le_of_eq hn
    · rcases h.1 with hfound | ⟨e, he, -⟩
      · exact hfound
      · cases he
  | cons e t ih =>
    rw [List.foldl_cons, ih]
    unfold leastStep
    cases hcounts : counts e.1 with
    | false => simp [hcounts]
    | true =>
      cases found with
      | none =>
        simp only [if_true, Option.some.injEq, List.mem_cons, forall_eq_or_imp, exists_eq_or_imp, hcounts, true_and,
          forall_eq', forall_const, reduceCtorEq, false_or, false_imp_iff]
      | some n =>
        simp only [if_true, Option.some.injEq, List.mem_cons, forall_eq_or_imp, exists_eq_or_imp, hcounts,
          true_and, forall_eq', forall_const]
        by_cases hlt : e.2 < n
        · rw [if_pos hlt]
          constructor
          · rintro ⟨hmem, hle, hall⟩
            exact ⟨.inr hmem, by omega, hle, hall⟩
          · rintro ⟨hmem, hn, hle, hall⟩
            refine ⟨?_, hle, hall⟩
            rcases hmem with rfl | hmem
            · omega
            · exact hmem
        · rw [if_neg hlt]
          constructor
          · rintro ⟨hmem, hle, hall⟩
            refine ⟨?_, hle, by omega, hall⟩
            rcases hmem with hmem | hmem
            · exact .inl hmem
            · exact .inr (.inr hmem)
          · rintro ⟨hmem, hn, hle, hall⟩
            refine ⟨?_, hn, hall⟩
            rcases hmem with hmem | hmem | hmem
            · exact .inl hmem
            · exact .inl (by omega)
            · exact .inr hmem

omit [DecidableEq κ] in
theorem foldl_leastStep_none (t : Table κ Nat) (found : Option Nat) :
    t.foldl (leastStep counts) found = none ↔ found = none ∧ ∀ e ∈ t, counts e.1 = false := by
  induction t generalizing found with
  | nil => simp
  | cons e t ih =>
    rw [List.foldl_cons, ih]
    unfold leastStep
    cases hcounts : counts e.1 with
    | false => simp [hcounts]
    | true => cases found <;> simp [hcounts]

variable {counts} {t : Table κ Nat} (h : t.keys.Nodup)

include h

/-- The least mark is one of a key that counts, and under those of all such keys. -/
theorem least_eq_some_iff (m : Nat) :
    least counts t = some m ↔ (∃ k, counts k = true ∧ t.find? k = some m) ∧
      ∀ k n, counts k = true → t.find? k = some n → m ≤ n := by
  rw [least, foldl_leastStep]
  constructor
  · rintro ⟨hsome | ⟨e, he, hcounts, hm⟩, -, hall⟩
    · cases hsome
    · refine ⟨⟨e.1, hcounts, (Table.find?_eq_some_iff h _ _).mpr ?_⟩, fun k n hk hn => ?_⟩
      · rw [← hm]
        exact he
      · exact hall (k, n) ((Table.find?_eq_some_iff h _ _).mp hn) hk
  · rintro ⟨⟨k, hk, hm⟩, hall⟩
    refine ⟨.inr ⟨(k, m), (Table.find?_eq_some_iff h _ _).mp hm, hk, rfl⟩, fun n hn => ?_, fun e he hcounts => ?_⟩
    · cases hn
    · exact hall e.1 e.2 hcounts ((Table.find?_eq_some_iff h _ _).mpr he)

theorem least_eq_none_iff : least counts t = none ↔ ∀ k, counts k = true → t.find? k = none := by
  rw [least, foldl_leastStep_none]
  constructor
  · rintro ⟨-, hall⟩ k hk
    cases hfind : t.find? k with
    | none => rfl
    | some n =>
      have := hall (k, n) ((Table.find?_eq_some_iff h _ _).mp hfind)
      rw [show counts (k, n).1 = counts k from rfl, hk] at this
      cases this
  · intro hall
    refine ⟨rfl, fun e he => ?_⟩
    cases hcounts : counts e.1 with
    | false => rfl
    | true =>
      have := hall e.1 hcounts
      rw [(Table.find?_eq_some_iff h e.1 e.2).mpr he] at this
      cases this

end

end HighWater
