import Mathlib.Data.List.Nodup
import Mathlib.Logic.Function.Basic

/-!
# Assignments of which the last one stays

A list of pairs read as assignments made one after another: `lookupLast` is the value a key is left with.
-/

namespace LastWins

variable {κ ι α β : Type} [DecidableEq κ] [DecidableEq ι]

/-- The value of the last pair with the key. -/
def lookupLast (pairs : List (κ × α)) (k : κ) : Option α := (pairs.reverse.find? (·.1 = k)).map (·.2)

@[simp] theorem lookupLast_nil (k : κ) : lookupLast ([] : List (κ × α)) k = none := rfl

theorem lookupLast_append (l l' : List (κ × α)) (k : κ) :
    lookupLast (l ++ l') k = (lookupLast l' k).or (lookupLast l k) := by
  unfold lookupLast
  rw [List.reverse_append, List.find?_append]
  cases l'.reverse.find? (·.1 = k) with
  | none => rfl
  | some p => rfl

theorem lookupLast_eq_none {l : List (κ × α)} {k : κ} : lookupLast l k = none ↔ ∀ p ∈ l, p.1 ≠ k := by
  unfold lookupLast
  rw [Option.map_eq_none_iff, List.find?_eq_none]
  refine ⟨fun h p hp => by simpa using h p (List.mem_reverse.mpr hp), fun h p hp => by
    simpa using h p (List.mem_reverse.mp hp)⟩

theorem mem_of_lookupLast {l : List (κ × α)} {k : κ} {v : α} (h : lookupLast l k = some v) : (k, v) ∈ l := by
  unfold lookupLast at h
  obtain ⟨⟨k', v'⟩, hfind, hv⟩ := Option.map_eq_some_iff.mp h
  have hkey : k' = k := by simpa using List.find?_some hfind
  have hmem := List.mem_reverse.mp (List.mem_of_find?_eq_some hfind)
  subst hkey hv
  exact hmem

/-- Without a repeated key every pair is the last one with its key. -/
theorem lookupLast_of_mem {l : List (κ × α)} (hnodup : (l.map (·.1)).Nodup) {k : κ} {v : α} (h : (k, v) ∈ l) :
    lookupLast l k = some v := by
  cases hl : lookupLast l k with
  | none => exact absurd rfl (lookupLast_eq_none.mp hl (k, v) h)
  | some v' =>
    have hmem := mem_of_lookupLast hl
    have := List.inj_on_of_nodup_map hnodup h hmem rfl
    cases this
    rfl

/-- The pairs of a table in which a key may have no value. -/
def written (table : List (κ × Option α)) : List (κ × α) := table.filterMap fun p => p.2.map (p.1, ·)

omit [DecidableEq κ] in
theorem mem_written_iff {table : List (κ × Option α)} {k : κ} {v : α} :
    (k, v) ∈ written table ↔ (k, some v) ∈ table := by
  simp [written]

/-- A table that names each key once is read back as it is. -/
theorem lookupLast_written {table : List (κ × Option α)} (hnodup : (table.map (·.1)).Nodup) {k : κ} {v : Option α}
    (h : (k, v) ∈ table) : lookupLast (written table) k = v := by
  have hunique : ∀ w, (k, w) ∈ table → w = v := by
    intro w hw
    exact congrArg Prod.snd (List.inj_on_of_nodup_map hnodup hw h rfl)
  cases hlast : lookupLast (written table) k with
  | some w => exact hunique (some w) (mem_written_iff.mp (mem_of_lookupLast hlast))
  | none =>
    cases v with
    | none => rfl
    | some w => exact absurd rfl (lookupLast_eq_none.mp hlast (k, w) (mem_written_iff.mpr h))

theorem lookupLast_map_value (g : α → β) (l : List (κ × α)) (k : κ) :
    lookupLast (l.map fun p => (p.1, g p.2)) k = (lookupLast l k).map g := by
  unfold lookupLast
  rw [← List.map_reverse, List.find?_map, Option.map_map, Option.map_map]
  rfl

/-- Keys renamed one to one. -/
theorem lookupLast_map {f : κ → ι} {l : List (κ × α)} {k : κ} (hf : ∀ p ∈ l, f p.1 = f k → p.1 = k) :
    lookupLast (l.map fun p => (f p.1, p.2)) (f k) = lookupLast l k := by
  unfold lookupLast
  rw [← List.map_reverse, List.find?_map, Option.map_map]
  have hkey : ∀ l' : List (κ × α), (∀ p ∈ l', p ∈ l) →
      l'.find? ((fun p : ι × α => decide (p.1 = f k)) ∘ fun p => (f p.1, p.2)) = l'.find? (·.1 = k) := by
    intro l' hl'
    induction l' with
    | nil => rfl
    | cons p l' ih =>
      have hiff : decide (f p.1 = f k) = decide (p.1 = k) :=
        decide_eq_decide.mpr ⟨hf p (hl' p List.mem_cons_self), fun h => by rw [h]⟩
      rw [List.find?_cons, List.find?_cons, Function.comp, hiff, ih fun p' hp' => hl' p' (List.mem_cons_of_mem _ hp')]
  rw [hkey l.reverse fun p hp => List.mem_reverse.mp hp]
  rfl

/-- The pairs assigned one after another, each to the place of its key if it has one. -/
def assign (place : κ → Option ι) (l : List (κ × α)) (f : ι → α) : ι → α :=
  l.foldl (fun f p => match place p.1 with | none => f | some j => Function.update f j p.2) f

omit [DecidableEq κ] in
theorem assign_eq (place : κ → Option ι) (l : List (κ × α)) (f : ι → α) (i : ι) :
    assign place l f i = ((l.reverse.find? fun p => place p.1 = some i).map (·.2)).getD (f i) := by
  unfold assign
  induction l generalizing f with
  | nil => rfl
  | cons p l ih =>
    rw [List.foldl_cons, ih, List.reverse_cons, List.find?_append]
    cases hfind : l.reverse.find? fun p => place p.1 = some i with
    | some q => rfl
    | none =>
      simp only [Option.none_or, List.find?_cons, List.find?_nil, Option.map_none, Option.getD_none]
      cases hplace : place p.1 with
      | none => rfl
      | some j =>
        by_cases hj : j = i
        · subst hj
          simp
        · simp [hj, Function.update_of_ne (Ne.symm hj)]

/-- A place only one key has is left with that key's last value. -/
theorem assign_of_place {place : κ → Option ι} {l : List (κ × α)} {f : ι → α} {i : ι} {k : κ} (hk : place k = some i)
    (honly : ∀ p ∈ l, place p.1 = some i → p.1 = k) : assign place l f i = (lookupLast l k).getD (f i) := by
  rw [assign_eq, lookupLast]
  have hkey : ∀ l' : List (κ × α), (∀ p ∈ l', p ∈ l) →
      (l'.find? fun p => place p.1 = some i) = l'.find? (·.1 = k) := by
    intro l' hl'
    induction l' with
    | nil => rfl
    | cons p l' ih =>
      have hiff : decide (place p.1 = some i) = decide (p.1 = k) :=
        decide_eq_decide.mpr ⟨honly p (hl' p List.mem_cons_self), fun h => by rw [h, hk]⟩
      rw [List.find?_cons, List.find?_cons, hiff, ih fun p' hp' => hl' p' (List.mem_cons_of_mem _ hp')]
  rw [hkey l.reverse fun p hp => List.mem_reverse.mp hp]

omit [DecidableEq κ] in
/-- A place no key of the list has keeps what it had. -/
theorem assign_of_none {place : κ → Option ι} {l : List (κ × α)} {f : ι → α} {i : ι}
    (hnone : ∀ p ∈ l, place p.1 ≠ some i) : assign place l f i = f i := by
  rw [assign_eq]
  have hfind : (l.reverse.find? fun p => place p.1 = some i) = none := by
    rw [List.find?_eq_none]
    intro p hp
    simpa using hnone p (List.mem_reverse.mp hp)
  rw [hfind]
  rfl

end LastWins
