import Mathlib.Logic.Function.Basic

/-!
# Collective calls

A collective call returns on no party before every party has made it, and all must have made the same one. A party
that returns early, or makes another call, leaves the others waiting. `InStep` says that this never happens: the
parties make the same calls, one after the other, and return together.

A call may fail on some of the parties; these get no answer.
-/

namespace Lockstep

variable {ι ω α ρ ρ' : Type}

/-- What a party does: it returns, or makes a call and goes on with the answer. -/
inductive Prog (ω α ρ : Type) where
  | done (result : ρ)
  | call (op : ω) (send : α) (next : Option α → Prog ω α ρ)

namespace Prog

def bind : Prog ω α ρ → (ρ → Prog ω α ρ') → Prog ω α ρ'
  | done result, f => f result
  | call op send next, f => call op send fun answer => (next answer).bind f

def returns : Prog ω α ρ → Bool
  | done _ => true
  | call _ _ _ => false

def map (f : ρ → ρ') (p : Prog ω α ρ) : Prog ω α ρ' := p.bind fun result => done (f result)

@[simp] theorem bind_done (result : ρ) (f : ρ → Prog ω α ρ') : (done result : Prog ω α ρ).bind f = f result := rfl

end Prog

variable (answer : ω → (ι → α) → α) (fails : Nat → ι → Bool)

/-- From the `n`-th call up to the `m`-th, the parties make the same calls; then each returns its result. -/
inductive InStep : Nat → Nat → (ι → Prog ω α ρ) → (ι → ρ) → Prop where
  | done (n : Nat) (results : ι → ρ) : InStep n n (fun i => .done (results i)) results
  | call {n m : Nat} {results : ι → ρ} (op : ω) (send : ι → α) (next : ι → Option α → Prog ω α ρ)
      (rest : InStep (n + 1) m (fun i => next i (if fails n i then none else some (answer op send))) results) :
      InStep n m (fun i => .call op (send i) (next i)) results

variable {answer fails} {n m l : Nat} {progs : ι → Prog ω α ρ} {results : ι → ρ}

/-- One after the other. -/
theorem InStep.bind {f : ι → ρ → Prog ω α ρ'} {results' : ι → ρ'} (h : InStep answer fails n m progs results)
    (h' : InStep answer fails m l (fun i => f i (results i)) results') :
    InStep answer fails n l (fun i => (progs i).bind (f i)) results' := by
  induction h with
  | done n results => exact h'
  | call op send next _ ih => exact .call op send (fun i a => (next i a).bind (f i)) (ih h')

theorem InStep.map (f : ρ → ρ') (h : InStep answer fails n m progs results) :
    InStep answer fails n m (fun i => (progs i).map f) fun i => f (results i) :=
  h.bind (.done m _)

/-- A call that fails on all the parties or on none. -/
theorem InStep.call_of_uniform {failed : Nat → Bool} (huniform : ∀ k i, fails k i = failed k) (op : ω) (send : ι → α)
    (next : ι → Option α → Prog ω α ρ)
    (rest : InStep answer fails (n + 1) m
      (fun i => next i (if failed n then none else some (answer op send))) results) :
    InStep answer fails n m (fun i => .call op (send i) (next i)) results := by
  refine .call op send next ?_
  simp only [huniform]
  exact rest

/-- One party has returned, and another makes a call: it waits for ever. -/
theorem InStep.not_mixed {i j : ι} (hi : (progs i).returns = true) (hj : (progs j).returns = false) :
    ¬ InStep answer fails n m progs results := by
  intro h
  cases h with
  | done => cases hj
  | call => cases hi

variable [Nonempty ι]

/-- A call that the parties make together returns to all of them. -/
theorem InStep.of_call {op : ω} {send : ι → α} {next : ι → Option α → Prog ω α ρ}
    (h : InStep answer fails n m (fun i => .call op (send i) (next i)) results) :
    InStep answer fails (n + 1) m (fun i => next i (if fails n i then none else some (answer op send))) results := by
  generalize hprogs : (fun i => (.call op (send i) (next i) : Prog ω α ρ)) = progs at h
  cases h with
  | done _ results =>
    have := congrFun hprogs (Classical.arbitrary ι)
    cases this
  | call op' send' next' rest =>
    have hop : op = op' := by
      have := congrFun hprogs (Classical.arbitrary ι)
      injection this
    have hsend : send = send' := by
      funext i
      have := congrFun hprogs i
      injection this
    have hnext : next = next' := by
      funext i
      have := congrFun hprogs i
      injection this
    subst hop hsend hnext
    exact rest

/-- The parties cannot return otherwise, or after another number of calls. -/
theorem InStep.unique {m' : Nat} {results' : ι → ρ} (h : InStep answer fails n m progs results)
    (h' : InStep answer fails n m' progs results') : m = m' ∧ results = results' := by
  induction h with
  | done n results =>
    generalize hprogs : (fun i => (.done (results i) : Prog ω α ρ)) = progs at h'
    cases h' with
    | done _ results' =>
      refine ⟨rfl, funext fun i => ?_⟩
      have := congrFun hprogs i
      injection this
    | call op send next _ =>
      have := congrFun hprogs (Classical.arbitrary ι)
      cases this
  | call op send next _ ih => exact ih h'.of_call

end Lockstep
