import Mathlib.Data.Option.Basic

/-!
# Steps under a budget

A step of type `Nat → σ → Option σ` takes a budget and a state and gives up when the state would
outgrow the budget. It is `Budgeted` when the budget decides nothing else: there is an unlimited step,
which never shrinks the state, and the budgeted one agrees with it wherever the result fits.
-/

/-- `step` is the unlimited step `free`, cut off exactly where its result exceeds the budget. -/
def Budgeted.By {σ : Type} (size : σ → Nat) (step : Nat → σ → Option σ) (free : σ → σ) : Prop :=
  ∀ s, size s ≤ size (free s) ∧
    ∀ budget, size s ≤ budget → step budget s = if size (free s) ≤ budget then some (free s) else none

def Budgeted {σ : Type} (size : σ → Nat) (step : Nat → σ → Option σ) : Prop :=
  ∃ free, Budgeted.By size step free

namespace Budgeted

variable {σ : Type} {size : σ → Nat}

/-- Doing nothing fits any budget the state fits. -/
theorem skip : Budgeted size fun _ s => some s := by
  refine ⟨id, fun s => ⟨Nat.le_refl _, fun budget hfit => ?_⟩⟩
  show some s = if size s ≤ budget then some s else none
  rw [if_pos hfit]

/-- Two budgeted steps in a row are one: a state that has outgrown the budget stays too large. -/
theorem bind {step step' : Nat → σ → Option σ} (h : Budgeted size step) (h' : Budgeted size step') :
    Budgeted size fun budget s => (step budget s).bind (step' budget) := by
  obtain ⟨free, hfree⟩ := h
  obtain ⟨free', hfree'⟩ := h'
  refine ⟨free' ∘ free, fun s => ⟨?_, fun budget hfit => ?_⟩⟩
  · exact Nat.le_trans (hfree s).1 (hfree' (free s)).1
  · show (step budget s).bind (step' budget) =
      if size (free' (free s)) ≤ budget then some (free' (free s)) else none
    rw [(hfree s).2 budget hfit]
    by_cases hmid : size (free s) ≤ budget
    · rw [if_pos hmid, Option.bind_some, (hfree' (free s)).2 budget hmid]
    · have hgrown := (hfree' (free s)).1
      rw [if_neg hmid, Option.bind_none, if_neg (by omega)]

/-- A step that gives up would have outgrown the budget: its result is the one of a larger budget. -/
theorem exceeds {step : Nat → σ → Option σ} (h : Budgeted size step) {budget : Nat} {s : σ}
    (hfit : size s ≤ budget) (hnone : step budget s = none) :
    ∃ s', step (size s') s = some s' ∧ budget < size s' := by
  obtain ⟨free, hfree⟩ := h
  obtain ⟨hgrow, hspec⟩ := hfree s
  refine ⟨free s, ?_, ?_⟩
  · rw [hspec _ hgrow, if_pos (Nat.le_refl _)]
  · rw [hspec budget hfit] at hnone
    by_contra hle
    rw [if_pos (by omega)] at hnone
    cases hnone

/-- What fits a budget fits a larger one. -/
theorem mono {step : Nat → σ → Option σ} (h : Budgeted size step) {budget budget' : Nat} {s s' : σ}
    (hfit : size s ≤ budget) (hle : budget ≤ budget') (hsome : step budget s = some s') :
    step budget' s = some s' := by
  obtain ⟨free, hfree⟩ := h
  obtain ⟨-, hspec⟩ := hfree s
  rw [hspec budget hfit] at hsome
  split at hsome
  · rw [hspec budget' (by omega), if_pos (by omega)]
    exact hsome
  · cases hsome

end Budgeted
