import VolStream.Writer.Retention
import VolStream.Writer.Through

/-!
# Sessions on one file

A file is created once and may be opened for writing again. The history lives in the file, the
counter and the tables in the state of one open: `H5VL__stream_file_open_impl` starts every session
with a fresh state, whatever is under `/step`.
-/

namespace VolStream

/-- `H5Fopen` with `H5F_ACC_RDWR` on the file as it was left. -/
def Retainer.reopen (s : Retainer) (config : Config) : Retainer where
  writer := { Writer.init config with core := { Core.init config with file := s.writer.core.file } }
  retention := .init

/-- The sessions so far. `kept` and `inherited` are history, not state of the connector: the
committed steps that retention has not pruned, with what they held when they were committed, and
whether there were any when the current session began. -/
structure History where
  store : Retainer
  kept : StepFile
  inherited : Bool

def History.init (config : Config) : History := ⟨.init config, [], false⟩

inductive SessionEvent where
  | inSession (ev : RetainEvent)
  | reopen (config : Config)

-- the steps from `floor` up to `floor'` have been pruned
def StepFile.pruned (file : StepFile) (floor floor' : Nat) : StepFile :=
  file.filter fun g => !(decide (floor ≤ g.1) && decide (g.1 < floor'))

/-- The committed steps after an event. -/
def History.keptAfter (s : History) : RetainEvent → StepFile
  | .app (.endStep env) prune =>
      match endStep env s.store.writer with
      | .ok w =>
          let n := s.store.writer.core.physicalStep
          StepFile.pruned (s.kept.set n (w.core.file.ops n)) s.store.retention.floor
            (s.store.apply (.app (.endStep env) prune)).retention.floor
      | .fail _ => s.kept
  | _ => s.kept

def History.apply (s : History) : SessionEvent → History
  | .inSession ev => { s with store := s.store.apply ev, kept := s.keptAfter ev }
  | .reopen config => ⟨s.store.reopen config, s.kept, !s.kept.isEmpty⟩

/-- A commit: its number, and the committed steps it found. -/
structure Numbered where
  number : Nat
  present : List Nat
deriving DecidableEq, Repr

def History.numbered (s : History) : SessionEvent → List Numbered
  | .inSession (.app (.endStep env) _) =>
      if (endStep env s.store.writer).isOk then [⟨s.store.writer.core.physicalStep, s.kept.keys⟩] else []
  | _ => []

def History.after (config : Config) (events : List SessionEvent) : History :=
  Runs.run History.apply (.init config) events

def History.commits (config : Config) (events : List SessionEvent) : List Numbered :=
  Runs.observed History.apply History.numbered (.init config) events

/-- Every committed step holds what it held when it was committed: its own calls, and nothing made
in it through a link of another step. -/
structure History.Intact (s : History) : Prop where
  same : ∀ n ops, s.kept.find? n = some ops → s.store.writer.core.file.find? n = some ops
  untouched : ∀ n, (s.kept.find? n).isSome → s.store.writer.core.file.Untouched n

-- the Spill policy is not used
def NoSpill (_ : History) : SessionEvent → Prop
  | .inSession (.app (.setQueuePolicy policy _) _) => policy ≠ .spill
  | _ => True

/-- No step is ended in a session that began on a file with committed steps, and no step captures
anything at or below a link out of it. -/
def SessionOkAt (s : History) : SessionEvent → Prop
  | .inSession (.app (.endStep env) _) => s.store.writer.core.stepState = .inStep →
      s.inherited = false ∧ (s.store.writer.core.folded env).StaysInside
  | .inSession (.app (.setQueuePolicy policy _) _) => policy ≠ .spill
  | _ => True

/-! ## Pruning and the rest of the file -/

theorem StepFile.find?_pruned (file : StepFile) (floor floor' n : Nat) :
    (file.pruned floor floor').find? n = if floor ≤ n ∧ n < floor' then none else file.find? n := by
  unfold StepFile.pruned
  rw [Table.find?_filter file (fun a => !(decide (floor ≤ a) && decide (a < floor'))) n]
  by_cases h : floor ≤ n ∧ n < floor'
  · rw [if_pos h, if_neg (by simp [h.1, h.2])]
  · rw [if_neg h, if_pos]
    simp only [Bool.not_eq_true', Bool.and_eq_false_iff, decide_eq_false_iff_not]
    omega

theorem pruneWhile_outside (beyond : Nat → Nat → Bool) (unlinkFails : Nat → Bool) (total : Nat) (bytes : List Nat)
    (floor : Nat) (file : StepFile) :
    let p := pruneWhile beyond unlinkFails total bytes floor file
    floor ≤ p.floor ∧ (∀ n, ¬ (floor ≤ n ∧ n < p.floor) → p.file.find? n = file.find? n)
      ∧ ∀ n, p.file.find? n = file.find? n ∨ p.file.find? n = none := by
  induction bytes generalizing total floor file with
  | nil => exact ⟨Nat.le_refl _, fun _ _ => rfl, fun _ => .inl rfl⟩
  | cons b bytes ih =>
    cases bytes with
    | nil => exact ⟨Nat.le_refl _, fun _ _ => rfl, fun _ => .inl rfl⟩
    | cons b' bytes =>
      unfold pruneWhile
      split
      · obtain ⟨hfloor, houtside, hgone⟩ := ih ((total + (2 ^ 64 - b % 2 ^ 64)) % 2 ^ 64) (floor + 1)
          (if unlinkFails floor then file else file.unlink floor)
        refine ⟨by omega, fun n hn => ?_, fun n => ?_⟩
        · rw [houtside n (by omega)]
          split
          · rfl
          · rw [StepFile.find?_unlink, if_neg (by omega)]
        · rcases hgone n with h | h
          · rw [h]
            split
            · exact .inl rfl
            · rw [StepFile.find?_unlink]
              split
              · exact .inr rfl
              · exact .inl rfl
          · exact .inr h
      · exact ⟨Nat.le_refl _, fun _ _ => rfl, fun _ => .inl rfl⟩

/-- A retention pass removes groups below its new floor and touches no other, whatever its
answers. -/
theorem applyRetention_outside (env : PruneEnv) (bytes : Nat) (file : StepFile) (r : Retention) (n : Nat) :
    (¬ (r.floor ≤ n ∧ n < (applyRetention env bytes file r).2.floor) →
        (applyRetention env bytes file r).1.find? n = file.find? n)
      ∧ ((applyRetention env bytes file r).1.find? n = file.find? n
        ∨ (applyRetention env bytes file r).1.find? n = none) := by
  have hloop : ∀ (on : Prop) [Decidable on] (beyond : Nat → Nat → Bool) (total : Nat) (p : Pruned),
      let p' := if on then pruneWhile beyond env.unlinkFails total p.bytes p.floor p.file else p
      p.floor ≤ p'.floor ∧ (∀ n, ¬ (p.floor ≤ n ∧ n < p'.floor) → p'.file.find? n = p.file.find? n)
        ∧ ∀ n, p'.file.find? n = p.file.find? n ∨ p'.file.find? n = none := by
    intro on _ beyond total p
    split
    · exact pruneWhile_outside beyond env.unlinkFails total p.bytes p.floor p.file
    · exact ⟨Nat.le_refl _, fun _ _ => rfl, fun _ => .inl rfl⟩
  unfold applyRetention
  split
  · exact ⟨fun _ => rfl, .inl rfl⟩
  · split
    · exact ⟨fun _ => rfl, .inl rfl⟩
    · simp only
      obtain ⟨hfloor, hfile, hgone⟩ := hloop (0 < r.maxSteps) (fun n _ => decide (n > r.maxSteps)) 0
        ⟨file, r.floor, r.bytes ++ [bytes]⟩
      generalize (if 0 < r.maxSteps then pruneWhile (fun n _ => decide (n > r.maxSteps)) env.unlinkFails 0
        (r.bytes ++ [bytes]) r.floor file else ⟨file, r.floor, r.bytes ++ [bytes]⟩) = p at hfloor hfile hgone ⊢
      simp only at hfloor hfile hgone
      obtain ⟨hfloor', hfile', hgone'⟩ := hloop (0 < r.maxBytes) (fun _ total => decide (total > r.maxBytes))
        (totalBytes p.bytes) p
      refine ⟨fun h => ?_, ?_⟩
      · rw [hfile' n (by omega)]
        exact hfile n (by omega)
      · rcases hgone' n with h | h
        · rw [h]
          exact hgone n
        · exact .inr h

/-! ## What an event leaves -/

theorem queuePolicy_apply (w : Writer) (ev : Event) (h : ∀ policy reserve, ev ≠ .setQueuePolicy policy reserve) :
    (w.apply ev).state.core.queuePolicy = w.core.queuePolicy := by
  cases hcap : ev.capture with
  | true =>
    obtain ⟨⟨pending, bytes, hcore⟩, -⟩ := captured_apply w hcap
    rw [hcore]
  | false =>
    cases ev with
    | beginStep ids wall =>
      simp only [Writer.apply, beginWriterStep]
      split
      · rfl
      · rfl
    | noteGroupAttr path =>
      simp only [Writer.apply, noteGroupAttr, Outcome.state_ok]
      split
      · rfl
      · rfl
    | setQueuePolicy policy reserve => exact absurd rfl (h policy reserve)
    | endStep env =>
      obtain ⟨pending, bytes, hfold⟩ := folded_eq w.core env
      have hframe := congrArg Core.queuePolicy
        (policyFrame_applyQueuePolicy env ⟨w.core.folded env, [], w.lookups⟩)
      have hpolicy : (applyQueuePolicy env ⟨w.core.folded env, [], w.lookups⟩).state.core.queuePolicy
          = w.core.queuePolicy := by
        rw [hfold] at hframe ⊢
        exact hframe
      simp only [Writer.apply, endStep]
      split
      · rfl
      · cases happly : applyQueuePolicy env ⟨w.core.folded env, [], w.lookups⟩ with
        | ok st =>
          rw [happly] at hpolicy
          exact hpolicy
        | fail st =>
          rw [happly] at hpolicy
          exact hpolicy
    | fileClose =>
      simp only [Writer.apply, fileClose, Outcome.state_ok]
      split
      · rfl
      · rfl
    | datasetCreate => cases hcap
    | openLive => cases hcap
    | datasetWrite => cases hcap
    | setExtent => cases hcap
    | attrCreate => cases hcap
    | attrWrite => cases hcap
    | linkCreate => cases hcap
    | closeHandle => cases hcap

/-- The committed steps are intact and, in a session that began without any, numbered below the
counter; nothing is queued. -/
structure KeptInv (s : History) : Prop where
  same : ∀ n ops, s.kept.find? n = some ops → s.store.writer.core.file.find? n = some ops
  below : s.inherited = false → ∀ n, (s.kept.find? n).isSome → n < s.store.writer.core.physicalStep
  queue : s.store.writer.core.pendingSpill = []
  policy : s.store.writer.core.queuePolicy ≠ some .spill
  inward : ∀ k, s.store.writer.core.file.Inward k

/-- With nothing queued `H5Fend_step` works in its own group only. -/
theorem touches_eq {fs : Core} (h : fs.pendingSpill = []) {env : EndEnv} {n : Nat} (ht : fs.touches env n) :
    n = fs.physicalStep := by
  rcases ht with ht | ⟨q, hq, -⟩
  · exact ht
  · have hmem := Core.mem_of_due hq
    rw [h] at hmem
    cases hmem

theorem KeptInv.ended {s : History} (hinv : KeptInv s) {env : EndEnv} {prune : PruneEnv} {w : Writer}
    (h : endStep env s.store.writer = .ok w) (hended : Ended env s.store.writer.core w.core)
    (hfresh : s.inherited = false) (hinside : (s.store.writer.core.folded env).StaysInside) :
    KeptInv (s.apply (.inSession (.app (.endStep env) prune))) := by
  obtain ⟨n, hn⟩ : ∃ n, n = s.store.writer.core.physicalStep := ⟨_, rfl⟩
  have hkept : s.keptAfter (.app (.endStep env) prune)
      = StepFile.pruned (s.kept.set n (w.core.file.ops n)) s.store.retention.floor
        (s.store.endStep env prune).state.retention.floor := by
    rw [hn]
    show (match endStep env s.store.writer with | .ok w => _ | .fail _ => _) = _
    rw [h]
    rfl
  have hpolicy := queuePolicy_apply s.store.writer (.endStep env) (fun _ _ hf => by cases hf)
  have hqueue := pendingSpill_endStep env hinv.policy
  have hinward := inward_endStep env hinv.queue hinv.policy hinv.inward hinside
  simp only [Writer.apply, h, Outcome.state_ok] at hpolicy hqueue hinward
  rw [hinv.queue] at hqueue
  have hfloor : (s.store.endStep env prune).state.retention
      = (applyRetention prune (committedBytes env s.store.writer) w.core.file s.store.retention).2 := by
    rw [Retainer.state_endStep h]
  have hfile : (s.store.endStep env prune).state.writer.core = { w.core with
      file := (applyRetention prune (committedBytes env s.store.writer) w.core.file s.store.retention).1 } := by
    rw [Retainer.state_endStep h]
  refine ⟨fun k ops hk => ?_, fun _ k hk => ?_, ?_, ?_, fun k => ?_⟩
  · show (s.store.endStep env prune).state.writer.core.file.find? k = some ops
    simp only [History.apply, hkept, StepFile.find?_pruned, hfloor] at hk
    split at hk
    · cases hk
    · rename_i hout
      rw [hfile]
      show (applyRetention _ _ _ _).1.find? k = some ops
      rw [(applyRetention_outside prune _ _ _ k).1 hout]
      rw [Table.find?_set] at hk
      split at hk
      · rename_i hnk
        rw [← hnk, ← hk, hn]
        unfold StepFile.ops
        obtain ⟨own, hown⟩ := Option.isSome_iff_exists.mp hended.there
        rw [hown]
        rfl
      · rename_i hnk
        rw [hended.worked.same k (fun ht => hnk (hn.trans (touches_eq hinv.queue ht).symm))]
        exact hinv.same k ops hk
  · show k < (s.store.endStep env prune).state.writer.core.physicalStep
    rw [hfile, hended.number]
    simp only [History.apply, hkept, StepFile.find?_pruned] at hk
    split at hk
    · cases hk
    · rw [Table.find?_set] at hk
      split at hk
      · rename_i hnk
        omega
      · exact Nat.lt_succ_of_lt (hinv.below hfresh k hk)
  · show (s.store.endStep env prune).state.writer.core.pendingSpill = []
    rw [hfile]
    exact List.suffix_nil.mp hqueue
  · show (s.store.endStep env prune).state.writer.core.queuePolicy ≠ some .spill
    rw [hfile]
    show w.core.queuePolicy ≠ some .spill
    rw [hpolicy]
    exact hinv.policy
  · show (s.store.endStep env prune).state.writer.core.file.Inward k
    rw [hfile]
    rcases (applyRetention_outside prune (committedBytes env s.store.writer) w.core.file s.store.retention k).2 with
      hsame | hgone
    · exact (hinward k).congr hsame
    · unfold StepFile.Inward StepFile.ops
      rw [show Table.find? (applyRetention _ _ _ _).1 k = none from hgone]
      exact List.Pairwise.nil

theorem KeptInv.abandoned {s : History} (hinv : KeptInv s) {env : EndEnv} {prune : PruneEnv} {w : Writer}
    (h : endStep env s.store.writer = .fail w) (habandoned : Abandoned env s.store.writer.core w.core)
    (hfresh : s.inherited = false) (hinside : (s.store.writer.core.folded env).StaysInside) :
    KeptInv (s.apply (.inSession (.app (.endStep env) prune))) := by
  have hkept : s.keptAfter (.app (.endStep env) prune) = s.kept := by
    show (match endStep env s.store.writer with | .ok w => _ | .fail _ => _) = _
    rw [h]
  have hstate : s.apply (.inSession (.app (.endStep env) prune))
      = { s with store := { s.store with writer := w } } := by
    show { s with store := (s.store.endStep env prune).state, kept := s.keptAfter (.app (.endStep env) prune) } = _
    rw [(Retainer.endStep_fail h prune).1, hkept]
  have hpolicy := queuePolicy_apply s.store.writer (.endStep env) (fun _ _ hf => by cases hf)
  have hqueue := pendingSpill_endStep env hinv.policy
  have hinward := inward_endStep env hinv.queue hinv.policy hinv.inward hinside
  simp only [Writer.apply, h, Outcome.state_fail] at hpolicy hqueue hinward
  rw [hinv.queue] at hqueue
  obtain ⟨file, hworked, hfile⟩ := habandoned.worked
  rw [hstate]
  refine ⟨fun k ops hk => ?_, fun _ k hk => ?_, List.suffix_nil.mp hqueue, ?_, hinward⟩
  · -- a committed step is below the counter, so it is not the one removed
    have hlt := hinv.below hfresh k (by rw [show s.kept.find? k = some ops from hk]; rfl)
    have hsame : file.find? k = some ops := by
      rw [hworked.same k (fun ht => Nat.ne_of_lt hlt (touches_eq hinv.queue ht))]
      exact hinv.same k ops hk
    show w.core.file.find? k = some ops
    rw [hfile]
    split
    · exact hsame
    · rw [StepFile.find?_unlink, if_neg (Nat.ne_of_gt hlt)]
      exact hsame
  · show k < w.core.physicalStep
    rw [habandoned.number]
    exact hinv.below hfresh k hk
  · show w.core.queuePolicy ≠ some .spill
    rw [hpolicy]
    exact hinv.policy

theorem KeptInv.apply {s : History} (hinv : KeptInv s) {ev : SessionEvent} (hat : SessionOkAt s ev) :
    KeptInv (s.apply ev) := by
  cases ev with
  | reopen config =>
    refine ⟨hinv.same, fun hfresh n hn => ?_, rfl, fun hf => (by cases hf), hinv.inward⟩
    -- a session that inherits nothing starts with no committed step
    have hempty : s.kept = [] := by
      have : (!s.kept.isEmpty) = false := hfresh
      simpa using this
    rw [show (s.apply (.reopen config)).kept = [] from hempty] at hn
    cases hn
  | inSession ev =>
    cases ev with
    | setRetention maxSteps maxBytes seedFails => 
      exact ⟨hinv.same, hinv.below, hinv.queue, hinv.policy, hinv.inward⟩
    | app ev prune =>
      by_cases hev : ∃ env, ev = .endStep env
      · obtain ⟨env, rfl⟩ := hev
        by_cases hin : s.store.writer.core.stepState = .inStep
        · rcases endStep_cases env s.store.writer with ⟨hout, -⟩ | ⟨w, h, hended⟩ | ⟨w, h, habandoned⟩
          · exact absurd hin hout
          · exact hinv.ended h hended (hat hin).1 (hat hin).2
          · exact hinv.abandoned h habandoned (hat hin).1 (hat hin).2
        · have hfail : endStep env s.store.writer = .fail s.store.writer := if_pos hin
          have hsame : s.apply (.inSession (.app (.endStep env) prune)) = s := by
            show { s with store := (s.store.endStep env prune).state, kept := s.keptAfter (.app (.endStep env) prune) }
              = s
            rw [(Retainer.endStep_fail hfail prune).1]
            show { s with kept := match endStep env s.store.writer with | .ok w => _ | .fail _ => _ } = s
            rw [hfail]
          rw [hsame]
          exact hinv
      · have hcore := (committed_apply s.store.writer (fun env h => hev ⟨env, h⟩)).1
        have hfile := congrArg Core.file hcore
        have hqueue := congrArg Core.pendingSpill hcore
        have hnumber := congrArg Core.physicalStep hcore
        simp only [Core.committed] at hfile hqueue hnumber
        have hstate : s.apply (.inSession (.app ev prune))
            = { s with store := { s.store with writer := (s.store.writer.apply ev).state } } := by
          cases ev with
          | endStep env => exact absurd ⟨env, rfl⟩ hev
          | _ => rfl
        have hpolicy : (s.store.writer.apply ev).state.core.queuePolicy ≠ some .spill := by
          by_cases hset : ∃ policy reserve, ev = .setQueuePolicy policy reserve
          · obtain ⟨policy, reserve, rfl⟩ := hset
            exact fun hf => hat (Option.some.inj hf)
          · rw [queuePolicy_apply s.store.writer ev (fun policy reserve h => hset ⟨policy, reserve, h⟩)]
            exact hinv.policy
        rw [hstate]
        refine ⟨fun k ops hk => ?_, fun hfresh k hk => ?_, hqueue.trans hinv.queue, hpolicy, fun k => ?_⟩
        · show (s.store.writer.apply ev).state.core.file.find? k = some ops
          rw [hfile]
          exact hinv.same k ops hk
        · show k < (s.store.writer.apply ev).state.core.physicalStep
          rw [hnumber]
          exact hinv.below hfresh k hk
        · exact (hinv.inward k).congr (congrArg (Table.find? · k) hfile)

theorem KeptInv.numbered {s : History} (hinv : KeptInv s) {ev : SessionEvent} (hat : SessionOkAt s ev) :
    ∀ c ∈ s.numbered ev, ∀ n ∈ c.present, n < c.number := by
  cases ev with
  | reopen config => exact List.forall_mem_nil _
  | inSession ev =>
    cases ev with
    | setRetention maxSteps maxBytes seedFails => exact List.forall_mem_nil _
    | app ev prune =>
      cases ev with
      | endStep env =>
        intro c hc n hn
        have hc' : c ∈ if (endStep env s.store.writer).isOk then
            [⟨s.store.writer.core.physicalStep, s.kept.keys⟩] else ([] : List Numbered) := hc
        split at hc'
        · rename_i hok
          rw [List.mem_singleton.mp hc'] at hn ⊢
          have hfresh : s.inherited = false := by
            refine (hat ?_).1
            by_contra hout
            rw [show endStep env s.store.writer = .fail s.store.writer from if_pos hout] at hok
            cases hok
          exact hinv.below hfresh n ((Table.mem_keys_iff _ _).mp hn)
        · cases hc'
      | _ => exact List.forall_mem_nil _

/-- One step creates `/a`; the file is closed and opened again, and the second session's first step
creates `/a` too. -/
def secondSession (first second : EndEnv) : List SessionEvent :=
  [.inSession (.app (.beginStep [] 0) .quiet), .inSession (.app (createByte 0 ['a']) .quiet),
    .inSession (.app (.closeHandle 0) .quiet), .inSession (.app (.endStep first) .quiet),
    .inSession (.app .fileClose .quiet), .reopen .plain,
    .inSession (.app (.beginStep [] 1) .quiet), .inSession (.app (createByte 1 ['a']) .quiet),
    .inSession (.app (.closeHandle 1) .quiet), .inSession (.app (.endStep second) .quiet)]

end VolStream
