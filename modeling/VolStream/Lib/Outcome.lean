import Mathlib.Data.List.Basic

/-!
# Stateful C calls that may fail

A C routine that returns a status works on a state that keeps whatever the routine did before
it failed. `Outcome σ` is the result of such a call: the state it leaves and whether it
succeeded. `Outcome.bind` is the `if (f() < 0) return -1;` of the source, `runAll` a loop of
such calls that stops at the first failure.
-/

/-- The state a call leaves, and whether it returned success. -/
inductive Outcome (σ : Type) where
  | ok (s : σ)
  | fail (s : σ)
deriving DecidableEq, Repr

namespace Outcome

variable {σ τ α : Type}

def state : Outcome σ → σ
  | ok s => s
  | fail s => s

def isOk : Outcome σ → Bool
  | ok _ => true
  | fail _ => false

-- go on only after success
def bind (o : Outcome σ) (f : σ → Outcome σ) : Outcome σ :=
  match o with
  | ok s => f s
  | fail s => fail s

@[simp] theorem state_ok (s : σ) : (ok s).state = s := rfl
@[simp] theorem state_fail (s : σ) : (fail s).state = s := rfl
@[simp] theorem isOk_ok (s : σ) : (ok s).isOk = true := rfl
@[simp] theorem isOk_fail (s : σ) : (fail s).isOk = false := rfl
@[simp] theorem bind_ok (s : σ) (f : σ → Outcome σ) : (ok s).bind f = f s := rfl
@[simp] theorem bind_fail (s : σ) (f : σ → Outcome σ) : (fail s).bind f = fail s := rfl

/-- A predicate of the state that the first call establishes and the second keeps. -/
theorem state_bind {P : σ → Prop} {o : Outcome σ} {f : σ → Outcome σ} (ho : P o.state)
    (hf : ∀ s, o = ok s → P (f s).state) : P (o.bind f).state := by
  cases o with
  | ok s => exact hf s rfl
  | fail s => exact ho

theorem bind_eq_ok_iff {o : Outcome σ} {f : σ → Outcome σ} {t : σ} :
    o.bind f = ok t ↔ ∃ s, o = ok s ∧ f s = ok t := by
  cases o with
  | ok s => simp
  | fail s => simp

theorem isOk_bind (o : Outcome σ) (f : σ → Outcome σ) : (o.bind f).isOk = (o.isOk && (f o.state).isOk) := by
  cases o with
  | ok s => rfl
  | fail s => rfl

/-! ## Loops -/

/-- Run `f` on each element in turn, up to the first failure. -/
def runAll (f : α → σ → Outcome σ) : List α → σ → Outcome σ
  | [], s => ok s
  | a :: l, s => (f a s).bind (runAll f l)

@[simp] theorem runAll_nil (f : α → σ → Outcome σ) (s : σ) : runAll f [] s = ok s := rfl

@[simp] theorem runAll_cons (f : α → σ → Outcome σ) (a : α) (l : List α) (s : σ) :
    runAll f (a :: l) s = (f a s).bind (runAll f l) := rfl

theorem runAll_append (f : α → σ → Outcome σ) (l l' : List α) (s : σ) :
    runAll f (l ++ l') s = (runAll f l s).bind (runAll f l') := by
  induction l generalizing s with
  | nil => rfl
  | cons a l ih =>
    rw [List.cons_append, runAll_cons, runAll_cons]
    cases f a s with
    | ok s' => exact ih s'
    | fail s' => rfl

/-- A loop that completes ran every round. -/
theorem runAll_eq_ok {f : α → σ → Outcome σ} {l : List α} {s t : σ} (h : runAll f l s = ok t) :
    t = l.foldl (fun s a => (f a s).state) s := by
  induction l generalizing s with
  | nil =>
    cases h
    rfl
  | cons a l ih =>
    rw [runAll_cons, bind_eq_ok_iff] at h
    obtain ⟨s', hs', h⟩ := h
    rw [ih h, List.foldl_cons, hs', state_ok]

/-- A loop that completes gave every element a round that succeeded. -/
theorem isOk_of_runAll {f : α → σ → Outcome σ} {l : List α} {s t : σ} (h : runAll f l s = ok t) {a : α} (ha : a ∈ l) :
    ∃ s', (f a s').isOk = true := by
  induction l generalizing s with
  | nil => cases ha
  | cons b l ih =>
    rw [runAll_cons, bind_eq_ok_iff] at h
    obtain ⟨s', hs', h⟩ := h
    rcases List.mem_cons.mp ha with rfl | ha
    · exact ⟨s, by rw [hs', isOk_ok]⟩
    · exact ih h ha

/-- The loop rule: what every round keeps, the loop keeps, whether or not it completes. -/
theorem state_runAll {P : σ → Prop} {f : α → σ → Outcome σ} {l : List α}
    (hf : ∀ a ∈ l, ∀ s, P s → P (f a s).state) {s : σ} (hs : P s) : P (runAll f l s).state := by
  induction l generalizing s with
  | nil => exact hs
  | cons a l ih =>
    rw [runAll_cons]
    have ha := hf a List.mem_cons_self s hs
    cases hfa : f a s with
    | ok s' =>
      rw [hfa] at ha
      exact ih (fun b hb => hf b (List.mem_cons_of_mem _ hb)) ha
    | fail s' =>
      rw [hfa] at ha
      exact ha

/-- The rounds of a loop that returned success, each with the state it left. -/
def completed (f : α → σ → Outcome σ) : List α → σ → List (α × σ)
  | [], _ => []
  | a :: l, s =>
      match f a s with
      | ok s' => (a, s') :: completed f l s'
      | fail _ => []

/-! ## Two runs side by side -/

/-- Both calls succeed or both fail, in related states. -/
inductive Rel (R : σ → σ → Prop) : Outcome σ → Outcome σ → Prop where
  | ok {s t : σ} (h : R s t) : Rel R (.ok s) (.ok t)
  | fail {s t : σ} (h : R s t) : Rel R (.fail s) (.fail t)

variable {R : σ → σ → Prop}

theorem Rel.state {o o' : Outcome σ} (h : Rel R o o') : R o.state o'.state := by
  cases h with
  | ok h => exact h
  | fail h => exact h

theorem Rel.mono {S : σ → σ → Prop} {o o' : Outcome σ} (h : Rel R o o') (himp : ∀ s t, R s t → S s t) : Rel S o o' := by
  cases h with
  | ok h => exact .ok (himp _ _ h)
  | fail h => exact .fail (himp _ _ h)

theorem Rel.flip {o o' : Outcome σ} (h : Rel R o o') : Rel (fun s t => R t s) o' o := by
  cases h with
  | ok h => exact .ok h
  | fail h => exact .fail h

theorem Rel.comp {S T : σ → σ → Prop} {o o' o'' : Outcome σ} (h : Rel R o o') (h' : Rel S o' o'')
    (htrans : ∀ s t u, R s t → S t u → T s u) : Rel T o o'' := by
  cases h with
  | ok h =>
    cases h' with
    | ok h' => exact .ok (htrans _ _ _ h h')
  | fail h =>
    cases h' with
    | fail h' => exact .fail (htrans _ _ _ h h')

theorem Rel.bind {o o' : Outcome σ} {f : σ → Outcome σ} (h : Rel R o o')
    (hf : ∀ s t, R s t → Rel R (f s) (f t)) : Rel R (o.bind f) (o'.bind f) := by
  cases h with
  | ok h => exact hf _ _ h
  | fail h => exact .fail h

theorem Rel.runAll {f : α → σ → Outcome σ} {l : List α} (hf : ∀ a ∈ l, ∀ s t, R s t → Rel R (f a s) (f a t))
    {s t : σ} (h : R s t) : Rel R (Outcome.runAll f l s) (Outcome.runAll f l t) := by
  induction l generalizing s t with
  | nil => exact .ok h
  | cons a l ih =>
    refine (hf a List.mem_cons_self s t h).bind (fun s' t' h' => ?_)
    exact ih (fun b hb => hf b (List.mem_cons_of_mem _ hb)) h'

end Outcome
