import VolStream.Lib.Lockstep
import VolStream.Writer.QueueWindow

/-!
# One policy for all ranks

Each rank of a parallel writer tracks the readers that acknowledged to it, may have lost its transport, and holds
placeholders of its own. If the ranks went by what each of them sees, one would drop a step that another replays, or
wait where another has gone on: the replay is collective. So the queue policy asks with reductions, and every
condition it branches on is a reduced one.

The ranks then decide as one serial writer would that had their pending entries and saw the least of their lags;
except that such a writer could spill, and the ranks wait instead.
-/

namespace VolStream

open Lockstep

/-! ## Reductions -/

/-- `MPI_MIN` of an `unsigned long long`, `MPI_LOR` and `MPI_LAND` of an `int`. -/
inductive Reduction where
  | min
  | lor
  | land
deriving DecidableEq, Repr

-- a C truth value
def boolInt (b : Bool) : Nat := if b then 1 else 0

def Reduction.answer {n : Nat} (op : Reduction) (send : Fin n → Nat) : Nat :=
  match op with
  | .min => (List.ofFn send).foldl Nat.min (2 ^ 64 - 1)
  | .lor => boolInt ((List.ofFn send).any fun v => v ≠ 0)
  | .land => boolInt ((List.ofFn send).all fun v => v ≠ 0)

abbrev RankProg (ρ : Type) := Prog Reduction Nat ρ

/-- `H5VL__stream_queue_agree_and`. -/
def queueAgreeAnd (hasComm localValue : Bool) : RankProg Bool :=
  if hasComm then .call .land (boolInt localValue) fun global => .done (decide (global.getD 0 ≠ 0))
  else .done localValue

/-- `H5VL__stream_queue_agree_or`. -/
def queueAgreeOr (hasComm localValue : Bool) : RankProg Bool :=
  if hasComm then .call .lor (boolInt localValue) fun global => .done (decide (global.getD 1 ≠ 0))
  else .done localValue

-- the second reduction of the lag view: whether the least is a reader's
def queueHaveLag (tracked : Option Nat) : Option Nat → RankProg (Option Nat)
  | none => .done none
  | some recv =>
    .call .lor (boolInt tracked.isSome) fun haveRecv => .done (if haveRecv.getD 0 = 0 then none else some recv)

/-- `H5VL__stream_queue_lag_view`; `tracked` is what `vs_tr_writer_min_acked_step` finds on this rank. -/
def queueLagView (hasComm : Bool) (tracked : Option Nat) : RankProg (Option Nat) :=
  if hasComm then .call .min (tracked.getD (2 ^ 64 - 1)) (queueHaveLag tracked) else .done tracked

/-! ## The policy -/

/-- What is to become of the step, and whether Block gave up waiting. -/
structure Verdict where
  fate : Fate
  timedOut : Bool
deriving DecidableEq, Repr

def Verdict.replay : Verdict := ⟨.replay, false⟩

/-- The Block wait, from one iteration on, with the rank's own lag view in each. -/
def blockProgram (hasComm : Bool) (step reserve : Nat) (lags : Nat → Option Nat) : Nat → Nat → RankProg Bool
  | 0, _ => .done false
  | left + 1, iter =>
    (queueLagView hasComm (lags iter)).bind fun view =>
      match view with
      | none => .done true
      | some curMin =>
        if step ≤ windowEnd curMin reserve then .done true
        else blockProgram hasComm step reserve lags left (iter + 1)

/-- What a policy that acts decides; `block` is the wait. -/
def actingPolicy (hasComm haveBake : Bool) (policy : Option QueuePolicy) (block : RankProg Bool) : RankProg Verdict :=
  match policy with
  | some .discard => .done ⟨.drop, false⟩
  | some .spill =>
    if haveBake then
      if hasComm then block.map fun caughtUp => ⟨.replay, !caughtUp⟩ else .done ⟨.spill, false⟩
    else .done ⟨.drop, false⟩
  | some .block | none => block.map fun caughtUp => ⟨.replay, !caughtUp⟩

/-- The decisions of `H5VL__stream_apply_queue_policy`, on one rank or on a serial writer, with the lag views it
takes. -/
def policyProgram (hasComm : Bool) (fs : Core) (lags : Nat → Option Nat) : RankProg Verdict :=
  (queueAgreeAnd hasComm fs.activePolicy.isSome).bind fun active =>
    if active then
      (queueLagView hasComm (lags 0)).bind fun lag =>
        match lag with
        | none => .done .replay
        | some minAcked =>
          if windowEnd minAcked fs.reserveSlots < fs.physicalStep then
            (queueAgreeOr hasComm fs.hasOpenPlaceholder).bind fun hasOpen =>
              if hasOpen then .done .replay
              else actingPolicy hasComm fs.config.haveBake fs.queuePolicy
                (blockProgram hasComm fs.physicalStep fs.reserveSlots lags 600 1)
          else .done .replay
    else .done .replay

/-! ## A serial writer -/

/-- Its verdict. -/
def Core.verdict (fs : Core) (lags : Nat → Option Nat) : Verdict where
  fate := fs.fate (lags 0)
  timedOut := decide (fs.activePolicy = some .block) && fs.underPressure (lags 0) &&
    !blockCaughtUp fs.physicalStep fs.reserveSlots fun i => lags (i + 1)

theorem blockProgram_serial (step reserve : Nat) (lags : Nat → Option Nat) (left iter : Nat) :
    blockProgram false step reserve lags left (iter + 1)
      = .done (blockWait step reserve (fun i => lags (i + 1)) left iter).isSome := by
  induction left generalizing iter with
  | zero => rfl
  | succ left ih =>
    rw [blockProgram, queueLagView, if_neg Bool.false_ne_true, Prog.bind_done, blockWait]
    cases lags (iter + 1) with
    | none => rfl
    | some curMin =>
      dsimp only
      by_cases hin : step ≤ windowEnd curMin reserve
      · rw [if_pos hin, if_pos hin]
        rfl
      · rw [if_neg hin, if_neg hin]
        exact ih (iter + 1)

/-- Without a communicator the program makes no calls, and returns what the serial writer's fate is. -/
theorem policyProgram_serial (fs : Core) (lags : Nat → Option Nat) :
    policyProgram false fs lags = .done (fs.verdict lags) := by
  have hblock := blockProgram_serial fs.physicalStep fs.reserveSlots lags 600 0
  rw [Nat.zero_add] at hblock
  unfold policyProgram Core.verdict Core.fate Core.activePolicy queueAgreeAnd queueLagView queueAgreeOr actingPolicy
  simp only [Bool.false_eq_true, if_false, Prog.bind_done, hblock, Prog.map, blockCaughtUp]
  cases htransport : fs.config.transport with
  | false => rfl
  | true =>
    simp only [if_true]
    cases hlag : lags 0 with
    | none =>
      cases fs.queuePolicy with
      | none => rfl
      | some policy => simp [Core.underPressure, Verdict.replay]
    | some minAcked =>
      have hpressure : fs.underPressure (some minAcked)
          = (decide (windowEnd minAcked fs.reserveSlots < fs.physicalStep) && !fs.hasOpenPlaceholder) := rfl
      rw [hpressure]
      cases hpolicy : fs.queuePolicy with
      | none => rfl
      | some policy =>
        simp only [Option.isSome_some, if_true]
        by_cases hlate : windowEnd minAcked fs.reserveSlots < fs.physicalStep
        · cases hopen : fs.hasOpenPlaceholder with
          | true => simp [hlate, Verdict.replay]
          | false => cases policy <;> cases hbake : fs.config.haveBake <;> simp [hlate]
        · simp [hlate, Verdict.replay]

/-! ## All ranks -/

/-- The least of the ranks' lag views, if a rank has one. -/
def agreedLag {n : Nat} (tracked : Fin n → Option Nat) : Option Nat :=
  if (List.ofFn tracked).any Option.isSome then some (Reduction.min.answer fun r => (tracked r).getD (2 ^ 64 - 1))
  else none

/-- A parallel writer has the same step, policy and build on every rank. -/
structure SameSettings {n : Nat} (ranks : Fin (n + 1) → Core) : Prop where
  step : ∀ r, (ranks r).physicalStep = (ranks 0).physicalStep
  reserve : ∀ r, (ranks r).reserveSlots = (ranks 0).reserveSlots
  policy : ∀ r, (ranks r).queuePolicy = (ranks 0).queuePolicy
  haveBake : ∀ r, (ranks r).config.haveBake = (ranks 0).config.haveBake

-- "behaving as Block instead"
def parallelPolicy (haveBake : Bool) : Option QueuePolicy → Option QueuePolicy
  | some .spill => if haveBake then some .block else some .spill
  | policy => policy

/-- The serial writer with all the ranks' pending entries, whose transport has started if every rank's has. -/
def jointWriter {n : Nat} (ranks : Fin (n + 1) → Core) : Core :=
  { ranks 0 with
    config := { (ranks 0).config with transport := (List.ofFn ranks).all (·.config.transport) }
    pending := (List.ofFn ranks).flatMap (·.pending)
    queuePolicy := parallelPolicy (ranks 0).config.haveBake (ranks 0).queuePolicy }

section

variable {n : Nat} {fails : Nat → Fin (n + 1) → Bool} {failed : Nat → Bool}

theorem answer_lor (b : Fin (n + 1) → Bool) :
    (Reduction.lor.answer fun r => boolInt (b r)) = boolInt ((List.ofFn b).any id) := by
  have hmap : (List.ofFn b).map boolInt = List.ofFn fun r => boolInt (b r) := List.map_ofFn
  rw [Reduction.answer, ← hmap, List.any_map]
  congr 2
  funext v
  cases v <;> rfl

theorem answer_land (b : Fin (n + 1) → Bool) :
    (Reduction.land.answer fun r => boolInt (b r)) = boolInt ((List.ofFn b).all id) := by
  have hmap : (List.ofFn b).map boolInt = List.ofFn fun r => boolInt (b r) := List.map_ofFn
  rw [Reduction.answer, ← hmap, List.all_map]
  congr 2
  funext v
  cases v <;> rfl

variable (huniform : ∀ k r, fails k r = failed k)

include huniform

theorem queueAgreeAnd_inStep (k : Nat) (b : Fin (n + 1) → Bool) :
    InStep Reduction.answer fails k (k + 1) (fun r => queueAgreeAnd true (b r))
      fun _ => !failed k && (List.ofFn b).all id := by
  refine .call_of_uniform huniform Reduction.land _ (fun _ global => .done (decide (global.getD 0 ≠ 0))) ?_
  rw [answer_land]
  have hvalue : decide ((if failed k = true then none else some (boolInt ((List.ofFn b).all id))).getD 0 ≠ 0)
      = (!failed k && (List.ofFn b).all id) := by
    cases failed k <;> cases (List.ofFn b).all id <;> rfl
  rw [hvalue]
  exact .done (k + 1) _

theorem queueAgreeOr_inStep (k : Nat) (b : Fin (n + 1) → Bool) :
    InStep Reduction.answer fails k (k + 1) (fun r => queueAgreeOr true (b r))
      fun _ => failed k || (List.ofFn b).any id := by
  refine .call_of_uniform huniform Reduction.lor _ (fun _ global => .done (decide (global.getD 1 ≠ 0))) ?_
  rw [answer_lor]
  have hvalue : decide ((if failed k = true then none else some (boolInt ((List.ofFn b).any id))).getD 1 ≠ 0)
      = (failed k || (List.ofFn b).any id) := by
    cases failed k <;> cases (List.ofFn b).any id <;> rfl
  rw [hvalue]
  exact .done (k + 1) _

/-- A reduction that fails is no reader that lags. -/
theorem queueLagView_inStep (k : Nat) (tracked : Fin (n + 1) → Option Nat) :
    ∃ l view, InStep Reduction.answer fails k l (fun r => queueLagView true (tracked r)) (fun _ => view) ∧
      (view = none ∨ view = agreedLag tracked) ∧ ((∀ k, failed k = false) → view = agreedLag tracked) := by
  have hany : ((List.ofFn fun r => (tracked r).isSome).any id) = (List.ofFn tracked).any Option.isSome := by
    have hmap : (List.ofFn tracked).map Option.isSome = List.ofFn fun r => (tracked r).isSome := List.map_ofFn
    rw [← hmap, List.any_map]
    rfl
  cases hfirst : failed k with
  | true =>
    refine ⟨k + 1, none, .call_of_uniform huniform Reduction.min _ (fun r => queueHaveLag (tracked r)) ?_, .inl rfl,
      fun hnone => ?_⟩
    · rw [hfirst]
      exact .done (k + 1) _
    · rw [hnone] at hfirst
      cases hfirst
  | false =>
    refine ⟨k + 2, if failed (k + 1) then none else agreedLag tracked,
      .call_of_uniform huniform Reduction.min _ (fun r => queueHaveLag (tracked r)) ?_, ?_, fun hnone => ?_⟩
    · rw [hfirst]
      refine .call_of_uniform huniform Reduction.lor _ (fun _ haveRecv => .done (if haveRecv.getD 0 = 0 then none
        else some (Reduction.min.answer fun r => (tracked r).getD (2 ^ 64 - 1)))) ?_
      rw [answer_lor, hany, agreedLag]
      cases failed (k + 1) <;> cases (List.ofFn tracked).any Option.isSome <;> exact .done (k + 2) _
    · cases failed (k + 1)
      · exact .inr rfl
      · exact .inl rfl
    · rw [hnone (k + 1)]
      rfl

/-- The ranks wait for the same number of iterations. -/
theorem blockProgram_inStep (step reserve : Nat) (lags : Fin (n + 1) → Nat → Option Nat) (left iter k : Nat) :
    ∃ l caughtUp, InStep Reduction.answer fails k l
        (fun r => blockProgram true step reserve (lags r) left (iter + 1)) (fun _ => caughtUp) ∧
      ((∀ k, failed k = false) →
        caughtUp = (blockWait step reserve (fun i => agreedLag fun r => lags r (i + 1)) left iter).isSome) := by
  induction left generalizing iter k with
  | zero => exact ⟨k, false, .done k _, fun _ => rfl⟩
  | succ left ih =>
    obtain ⟨l, view, hview, -, hagreed⟩ := queueLagView_inStep huniform k fun r => lags r (iter + 1)
    cases view with
    | none =>
      refine ⟨l, true, hview.bind (.done l _), fun hnone => ?_⟩
      rw [blockWait, ← hagreed hnone]
      rfl
    | some curMin =>
      by_cases hin : step ≤ windowEnd curMin reserve
      · refine ⟨l, true, hview.bind ?_, fun hnone => ?_⟩
        · simp only [if_pos hin]
          exact .done l _
        · rw [blockWait, ← hagreed hnone]
          simp only [if_pos hin, Option.isSome_some]
      · obtain ⟨m, caughtUp, hrest, hvalue⟩ := ih (iter + 1) l
        refine ⟨m, caughtUp, hview.bind ?_, fun hnone => ?_⟩
        · simp only [if_neg hin]
          exact hrest
        · rw [blockWait, ← hagreed hnone]
          simp only [if_neg hin]
          exact hvalue hnone

end

/-! ## The writer they make up -/

theorem Core.verdict_of_inactive {fs : Core} (h : fs.activePolicy = none) (lags : Nat → Option Nat) :
    fs.verdict lags = .replay := by
  simp [verdict, fate, h, Verdict.replay]

theorem Core.verdict_of_relaxed {fs : Core} {lags : Nat → Option Nat} (h : fs.underPressure (lags 0) = false) :
    fs.verdict lags = .replay := by
  unfold verdict fate
  cases fs.activePolicy <;> simp [h, Verdict.replay]

section

variable {n : Nat} {ranks : Fin (n + 1) → Core}

theorem activePolicy_isSome (fs : Core) :
    fs.activePolicy.isSome = (fs.config.transport && fs.queuePolicy.isSome) := by
  unfold Core.activePolicy
  cases fs.config.transport <;> rfl

theorem isSome_parallelPolicy (haveBake : Bool) (policy : Option QueuePolicy) :
    (parallelPolicy haveBake policy).isSome = policy.isSome := by
  cases policy with
  | none => rfl
  | some policy => cases policy <;> cases haveBake <;> rfl

theorem SameSettings.active (h : SameSettings ranks) :
    (jointWriter ranks).activePolicy.isSome = (List.ofFn fun r => (ranks r).activePolicy.isSome).all id := by
  rw [activePolicy_isSome, jointWriter, isSome_parallelPolicy, Bool.eq_iff_iff, Bool.and_eq_true, List.all_eq_true,
    List.all_eq_true]
  simp only [List.forall_mem_ofFn_iff, activePolicy_isSome, h.policy, id, Bool.and_eq_true]
  exact ⟨fun hall r => ⟨hall.1 r, hall.2⟩, fun hall => ⟨fun r => (hall r).1, (hall 0).2⟩⟩

theorem hasOpenPlaceholder_jointWriter (ranks : Fin (n + 1) → Core) :
    (jointWriter ranks).hasOpenPlaceholder = (List.ofFn fun r => (ranks r).hasOpenPlaceholder).any id := by
  have hmap : (List.ofFn ranks).map Core.hasOpenPlaceholder = List.ofFn fun r => (ranks r).hasOpenPlaceholder :=
    List.map_ofFn
  rw [← hmap, List.any_map, Core.hasOpenPlaceholder, jointWriter, List.any_flatMap]
  rfl

theorem underPressure_jointWriter (ranks : Fin (n + 1) → Core) (minAcked : Nat) :
    (jointWriter ranks).underPressure (some minAcked)
      = (decide (windowEnd minAcked (ranks 0).reserveSlots < (ranks 0).physicalStep) &&
          !(List.ofFn fun r => (ranks r).hasOpenPlaceholder).any id) := by
  rw [← hasOpenPlaceholder_jointWriter]
  rfl

/-- A policy that acts: the ranks wait together, or none of them does. -/
theorem actingPolicy_inStep {fails : Nat → Fin (n + 1) → Bool} {failed : Nat → Bool}
    (huniform : ∀ k r, fails k r = failed k) (hactive : (jointWriter ranks).activePolicy.isSome = true) {minAcked : Nat}
    (hpressure : (jointWriter ranks).underPressure (some minAcked) = true) (lags : Fin (n + 1) → Nat → Option Nat)
    (k : Nat) :
    ∃ l verdict, InStep Reduction.answer fails k l
        (fun r => actingPolicy true (ranks 0).config.haveBake (ranks 0).queuePolicy
          (blockProgram true (ranks 0).physicalStep (ranks 0).reserveSlots (lags r) 600 1)) (fun _ => verdict) ∧
      verdict.fate = (jointWriter ranks).fate (some minAcked) ∧
      ((∀ k, failed k = false) → agreedLag (fun r => lags r 0) = some minAcked →
        verdict = (jointWriter ranks).verdict fun i => agreedLag fun r => lags r i) := by
  have htransport : (jointWriter ranks).config.transport = true := by
    rw [activePolicy_isSome] at hactive
    exact ((Bool.and_eq_true _ _).mp hactive).1
  have hjoint : (jointWriter ranks).activePolicy
      = parallelPolicy (ranks 0).config.haveBake (ranks 0).queuePolicy := if_pos htransport
  have hbake : (jointWriter ranks).config.haveBake = (ranks 0).config.haveBake := rfl
  obtain ⟨l, caughtUp, hwait, hvalue⟩ :=
    blockProgram_inStep huniform (ranks 0).physicalStep (ranks 0).reserveSlots lags 600 0 k
  have hblock := hwait.map fun caughtUp => (⟨.replay, !caughtUp⟩ : Verdict)
  rw [hjoint] at hactive
  unfold Core.verdict Core.fate
  rw [hjoint, hpressure, hbake]
  cases hpolicy : (ranks 0).queuePolicy with
  | none =>
    rw [hpolicy] at hactive
    cases hactive
  | some policy =>
    cases policy with
    | block =>
      refine ⟨l, _, hblock, rfl, fun hnone hlag => ?_⟩
      beta_reduce
      rw [hvalue hnone, hlag, hpressure]
      rfl
    | discard =>
      refine ⟨k, ⟨.drop, false⟩, .done k _, rfl, fun _ hlag => ?_⟩
      beta_reduce
      rw [hlag, hpressure]
      rfl
    | spill =>
      cases (ranks 0).config.haveBake with
      | false =>
        refine ⟨k, ⟨.drop, false⟩, .done k _, rfl, fun _ hlag => ?_⟩
        beta_reduce
        rw [hlag, hpressure]
        rfl
      | true =>
        refine ⟨l, _, hblock, rfl, fun hnone hlag => ?_⟩
        beta_reduce
        rw [hvalue hnone, hlag, hpressure]
        rfl

end

/-- Whichever ranks have lost their transport, whatever readers each of them tracks at each moment and whatever
placeholders it holds, and whichever reductions fail on all ranks: the ranks make the same calls and reach the same
verdict. If no reduction fails, it is that of the one serial writer they make up; if one fails, the step is replayed
or nothing has changed. -/
theorem ranks_decide_as_one {n : Nat} {ranks : Fin (n + 1) → Core} (hsame : SameSettings ranks)
    (lags : Fin (n + 1) → Nat → Option Nat) {fails : Nat → Fin (n + 1) → Bool} {failed : Nat → Bool}
    (huniform : ∀ k r, fails k r = failed k) :
    ∃ calls verdict,
      InStep Reduction.answer fails 0 calls (fun r => policyProgram true (ranks r) (lags r)) (fun _ => verdict) ∧
      (verdict.fate = .replay ∨ verdict.fate = (jointWriter ranks).fate (agreedLag fun r => lags r 0)) ∧
      ((∀ k, failed k = false) → verdict = (jointWriter ranks).verdict fun i => agreedLag fun r => lags r i) := by
  have hprog : (fun r => policyProgram true (ranks r) (lags r)) = fun r =>
      (queueAgreeAnd true (ranks r).activePolicy.isSome).bind fun active =>
        if active then
          (queueLagView true (lags r 0)).bind fun lag =>
            match lag with
            | none => .done .replay
            | some minAcked =>
              if windowEnd minAcked (ranks 0).reserveSlots < (ranks 0).physicalStep then
                (queueAgreeOr true (ranks r).hasOpenPlaceholder).bind fun hasOpen =>
                  if hasOpen then .done .replay
                  else actingPolicy true (ranks 0).config.haveBake (ranks 0).queuePolicy
                    (blockProgram true (ranks 0).physicalStep (ranks 0).reserveSlots (lags r) 600 1)
              else .done .replay
        else .done .replay := by
    funext r
    rw [policyProgram, hsame.step r, hsame.reserve r, hsame.policy r, hsame.haveBake r]
  rw [hprog]
  have hand := queueAgreeAnd_inStep huniform 0 fun r => (ranks r).activePolicy.isSome
  rw [← hsame.active] at hand
  cases hactive : !failed 0 && (jointWriter ranks).activePolicy.isSome with
  | false =>
    rw [hactive] at hand
    refine ⟨1, .replay, hand.bind (.done 1 _), .inl rfl, fun hnone => ?_⟩
    rw [hnone 0, Bool.not_false, Bool.true_and, Option.isSome_eq_false_iff, Option.isNone_iff_eq_none] at hactive
    exact (Core.verdict_of_inactive hactive _).symm
  | true =>
    rw [hactive] at hand
    have hactive' := ((Bool.and_eq_true _ _).mp hactive).2
    obtain ⟨l, view, hview, hsome, hagreed⟩ := queueLagView_inStep huniform 1 fun r => lags r 0
    cases view with
    | none =>
      refine ⟨l, .replay, hand.bind (hview.bind (.done l _)), .inl rfl, fun hnone => ?_⟩
      refine (Core.verdict_of_relaxed ?_).symm
      rw [← hagreed hnone]
      rfl
    | some minAcked =>
      have hlag : agreedLag (fun r => lags r 0) = some minAcked := (hsome.resolve_left (Option.some_ne_none _)).symm
      have hpressure := underPressure_jointWriter ranks minAcked
      by_cases hlate : windowEnd minAcked (ranks 0).reserveSlots < (ranks 0).physicalStep
      · have hor := queueAgreeOr_inStep huniform l fun r => (ranks r).hasOpenPlaceholder
        cases hopen : failed l || (List.ofFn fun r => (ranks r).hasOpenPlaceholder).any id with
        | true =>
          rw [hopen] at hor
          refine ⟨l + 1, .replay, hand.bind (hview.bind ?_), .inl rfl, fun hnone => ?_⟩
          · simp only [if_pos hlate]
            exact hor.bind (.done (l + 1) _)
          · rw [hnone l, Bool.false_or] at hopen
            refine (Core.verdict_of_relaxed ?_).symm
            rw [hlag, hpressure, hopen, Bool.not_true, Bool.and_false]
        | false =>
          rw [hopen] at hor
          rw [(Bool.or_eq_false_iff.mp hopen).2, decide_eq_true hlate] at hpressure
          obtain ⟨m, verdict, hact, hfate, hverdict⟩ := actingPolicy_inStep huniform hactive' hpressure lags (l + 1)
          refine ⟨m, verdict, hand.bind (hview.bind ?_), .inr ?_, fun hnone => ?_⟩
          · simp only [if_pos hlate]
            exact hor.bind hact
          · rw [hlag]
            exact hfate
          · exact hverdict hnone hlag
      · refine ⟨l, .replay, hand.bind (hview.bind ?_), .inl rfl, fun hnone => ?_⟩
        · simp only [if_neg hlate]
          exact .done l _
        · refine (Core.verdict_of_relaxed ?_).symm
          rw [hlag, hpressure, decide_eq_false hlate, Bool.false_and]

/-- A reduction that fails on some of the ranks only splits them: those it fails on go on to the replay, and the
others wait in the next reduction. -/
theorem split_by_lone_failure {n : Nat} {ranks : Fin (n + 1) → Core}
    (hactive : ∀ r, (ranks r).activePolicy.isSome = true) (lags : Fin (n + 1) → Nat → Option Nat)
    {fails : Nat → Fin (n + 1) → Bool} {lone other : Fin (n + 1)} (hlone : fails 0 lone = true)
    (hother : fails 0 other = false) (calls : Nat) (results : Fin (n + 1) → Verdict) :
    ¬ InStep Reduction.answer fails 0 calls (fun r => policyProgram true (ranks r) (lags r)) results := by
  intro h
  have hall : Reduction.land.answer (fun r => boolInt (ranks r).activePolicy.isSome) = 1 := by
    rw [answer_land, List.all_eq_true.mpr]
    · rfl
    · simp only [List.forall_mem_ofFn_iff]
      exact hactive
  have hrest := InStep.of_call h
  rw [hall] at hrest
  refine InStep.not_mixed (i := lone) (j := other) ?_ ?_ hrest
  · rw [hlone]
    rfl
  · rw [hother]
    rfl

-- one of two ranks tracks a reader, which has seen step 1
def laggingRank : Core :=
  { Core.init { Config.plain with transport := true } with
    physicalStep := 5, queuePolicy := some .discard, reserveSlots := 2 }

def lagOnSecond (r : Fin 2) (_ : Nat) : Option Nat := if r = 1 then some 1 else none

/-- Both ranks drop step 5. -/
theorem both_ranks_drop : ∃ calls,
    InStep Reduction.answer (fun _ _ => false) 0 calls (fun r => policyProgram true laggingRank (lagOnSecond r))
      fun _ => ⟨.drop, false⟩ := by
  have hsame : SameSettings fun _ : Fin 2 => laggingRank := ⟨fun _ => rfl, fun _ => rfl, fun _ => rfl, fun _ => rfl⟩
  have huniform : ∀ (k : Nat) (r : Fin 2), (fun _ _ => false : Nat → Fin 2 → Bool) k r = (fun _ => false) k :=
    fun _ _ => rfl
  obtain ⟨calls, verdict, hstep, -, hjoint⟩ := ranks_decide_as_one hsame lagOnSecond huniform
  have hverdict : verdict = ⟨.drop, false⟩ := (hjoint fun _ => rfl).trans (by decide)
  rw [hverdict] at hstep
  exact ⟨calls, hstep⟩

end VolStream
