import Mathlib.Data.List.Basic

/-!
# Runs of a step function, and what is observed along them

A system that takes step after step is a function `step : σ → ε → σ`. `run` takes it through a list
of events, `observed` collects what each event shows (a ghost history: it is not part of the
state), and `Meets` says that every event of a run is admissible in the state it finds.
-/

namespace Runs

variable {σ ε α : Type} (step : σ → ε → σ)

def run (s : σ) (events : List ε) : σ := events.foldl step s

/-- What a run shows, event by event. -/
def observed (obs : σ → ε → List α) : σ → List ε → List α
  | _, [] => []
  | s, e :: events => obs s e ++ observed obs (step s e) events

/-- Every event of the run meets a condition on the state it finds. -/
def Meets (ok : σ → ε → Prop) : σ → List ε → Prop
  | _, [] => True
  | s, e :: events => ok s e ∧ Meets ok (step s e) events

/-- The condition held in some state of the run, its ends included. -/
def Was (P : σ → Prop) (s : σ) (events : List ε) : Prop := ∃ u v, events = u ++ v ∧ P (run step s u)

instance decidableMeets {ok : σ → ε → Prop} [(s : σ) → (e : ε) → Decidable (ok s e)] :
    (s : σ) → (events : List ε) → Decidable (Meets step ok s events)
  | _, [] => .isTrue trivial
  | s, e :: events =>
      @instDecidableAnd _ _ inferInstance (decidableMeets (step s e) events)

variable {step}

@[simp] theorem run_nil (s : σ) : run step s [] = s := rfl

@[simp] theorem run_cons (s : σ) (e : ε) (events : List ε) :
    run step s (e :: events) = run step (step s e) events := rfl

theorem run_append (s : σ) (l l' : List ε) : run step s (l ++ l') = run step (run step s l) l' :=
  List.foldl_append

theorem meets_append {ok : σ → ε → Prop} {s : σ} {l l' : List ε} :
    Meets step ok s (l ++ l') ↔ Meets step ok s l ∧ Meets step ok (run step s l) l' := by
  induction l generalizing s with
  | nil => exact ⟨fun h => ⟨trivial, h⟩, fun h => h.2⟩
  | cons e l ih =>
    show ok s e ∧ Meets step ok (step s e) (l ++ l') ↔ (ok s e ∧ Meets step ok (step s e) l) ∧ _
    rw [ih, and_assoc]
    rfl

theorem observed_append {obs : σ → ε → List α} {s : σ} {l l' : List ε} :
    observed step obs s (l ++ l') = observed step obs s l ++ observed step obs (run step s l) l' := by
  induction l generalizing s with
  | nil => rfl
  | cons e l ih =>
    show obs s e ++ observed step obs (step s e) (l ++ l') = (obs s e ++ _) ++ _
    rw [ih, List.append_assoc]
    rfl

theorem Was.now {P : σ → Prop} {s : σ} {events : List ε} (h : P (run step s events)) : Was step P s events :=
  ⟨events, [], (List.append_nil events).symm, h⟩

theorem Was.append {P : σ → Prop} {s : σ} {events : List ε} (h : Was step P s events) (later : List ε) :
    Was step P s (events ++ later) := by
  obtain ⟨u, v, rfl, hu⟩ := h
  exact ⟨u, v ++ later, List.append_assoc .., hu⟩

/-- The invariant rule, over the state and the history shown so far: what every admissible event
keeps holds after a run of them. -/
theorem run_keeps {P : σ → List α → Prop} {ok : σ → ε → Prop} {obs : σ → ε → List α}
    (hstep : ∀ s h e, P s h → ok s e → P (step s e) (h ++ obs s e)) {s : σ} {h : List α} {events : List ε}
    (hs : P s h) (hok : Meets step ok s events) : P (run step s events) (h ++ observed step obs s events) := by
  induction events generalizing s h with
  | nil =>
    rw [observed, List.append_nil]
    exact hs
  | cons e events ih =>
    rw [observed, ← List.append_assoc]
    exact ih (hstep s h e hs hok.1) hok.2

/-- The same without a history. -/
theorem run_inv {P : σ → Prop} {ok : σ → ε → Prop} (hstep : ∀ s e, P s → ok s e → P (step s e)) {s : σ}
    {events : List ε} (hs : P s) (hok : Meets step ok s events) : P (run step s events) := by
  induction events generalizing s with
  | nil => exact hs
  | cons e events ih => exact ih (hstep s e hs hok.1) hok.2

/-- The invariant rule when every event is admissible. -/
theorem run_always {P : σ → Prop} (hstep : ∀ s e, P s → P (step s e)) {s : σ} (hs : P s) (events : List ε) :
    P (run step s events) := by
  induction events generalizing s with
  | nil => exact hs
  | cons e events ih => exact ih (hstep s e hs)

/-- Where each event keeps `P` exactly when it meets the condition, `P` holds all along a run exactly when the run meets
it. `I` is what the events keep whatever they do. -/
theorem always_iff_meets {I P : σ → Prop} {ok : σ → ε → Prop} (hkeep : ∀ s e, I s → I (step s e))
    (hstep : ∀ s e, I s → P s → (P (step s e) ↔ ok s e)) {s : σ} (hi : I s) (hs : P s) (events : List ε) :
    (∀ n, P (run step s (events.take n))) ↔ Meets step ok s events := by
  induction events generalizing s with
  | nil =>
    simp only [List.take_nil, run_nil]
    exact iff_of_true (fun _ => hs) trivial
  | cons e events ih =>
    constructor
    · intro hall
      have hone : P (step s e) := hall 1
      exact ⟨(hstep s e hi hs).mp hone, (ih (hkeep s e hi) hone).mp fun n => hall (n + 1)⟩
    · rintro ⟨hok, hrest⟩ n
      cases n with
      | zero => exact hs
      | succ n => exact (ih (hkeep s e hi) ((hstep s e hi hs).mpr hok)).mpr hrest n

/-- What an invariant makes of a condition holds along a run that meets the condition. -/
theorem meets_of_inv {P : σ → Prop} {ok ok' : σ → ε → Prop} (hstep : ∀ s e, P s → ok s e → P (step s e))
    (himp : ∀ s e, P s → ok s e → ok' s e) {s : σ} {events : List ε} (hs : P s) (hok : Meets step ok s events) :
    Meets step ok' s events := by
  induction events generalizing s with
  | nil => trivial
  | cons e events ih => exact ⟨himp s e hs hok.1, ih (hstep s e hs hok.1) hok.2⟩

end Runs
