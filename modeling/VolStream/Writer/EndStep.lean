import VolStream.Writer.Readable

/-!
# What one `H5Fend_step` changes

The groups it works in, the queue it leaves, and the counter: `H5Fend_step` works in the group of
the step it ends and in those of the queued steps that have come due, and in no other.
-/

namespace VolStream

/-! ## One group at a time -/

/-- Calls were made in the groups of `touched` only, and no group was removed. -/
structure StepFile.WorkedIn (touched : Nat → Prop) (file file' : StepFile) : Prop where
  same : ∀ k, ¬ touched k → file'.find? k = file.find? k
  kept : ∀ k, (file.find? k).isSome → (file'.find? k).isSome

section WorkedIn

variable {touched : Nat → Prop} {file file' file'' : StepFile} {n : Nat}

theorem StepFile.WorkedIn.refl (touched : Nat → Prop) (file : StepFile) : file.WorkedIn touched file :=
  ⟨fun _ _ => rfl, fun _ h => h⟩

theorem StepFile.WorkedIn.trans (h : file.WorkedIn touched file') (h' : file'.WorkedIn touched file'') :
    file.WorkedIn touched file'' :=
  ⟨fun k hk => (h'.same k hk).trans (h.same k hk), fun k hk => h'.kept k (h.kept k hk)⟩

theorem StepFile.workedIn_set (hn : touched n) (file : StepFile) (ops : List FileOp) :
    file.WorkedIn touched (file.set n ops) := by
  constructor
  · intro k hk
    rw [Table.find?_set, if_neg]
    rintro rfl
    exact hk hn
  · intro k hk
    rw [Table.find?_set]
    split
    · rfl
    · exact hk

theorem StepFile.workedIn_appendAll (hn : touched n) (file : StepFile) (ops : List FileOp) :
    file.WorkedIn touched (file.appendAll n ops) := by
  induction ops generalizing file with
  | nil => exact .refl touched file
  | cons op ops ih => exact (file.workedIn_set hn _).trans (ih (file.append n op))

theorem StepFile.workedIn_ensure (hn : touched n) (file : StepFile) :
    file.WorkedIn touched (file.ensure n) := by
  unfold StepFile.ensure
  split
  · exact file.workedIn_set hn []
  · exact .refl touched file

theorem StepFile.find?_ensure_self (file : StepFile) (n : Nat) : ((file.ensure n).find? n).isSome := by
  rw [← Table.mem_keys_iff, StepFile.keys_ensure]
  unfold addGroup
  split
  · assumption
  · exact List.mem_append_right _ List.mem_cons_self

end WorkedIn

/-- A replay works in the group of its step, which is there if it succeeds. -/
theorem workedIn_replayManifest (touched : Nat → Prop) (env : ReplayEnv) (args : ReplayArgs) (st : Replay)
    (h : touched args.manifest.physicalStep) :
    st.core.file.WorkedIn touched (replayManifest env args st).state.core.file ∧
      ((replayManifest env args st).isOk →
        ((replayManifest env args st).state.core.file.find? args.manifest.physicalStep).isSome) := by
  have hloop : st.core.file.WorkedIn touched
      (Outcome.runAll (replayEntry env args) (replayOrder args.manifest.entries) st).state.core.file := by
    refine Outcome.state_runAll (P := fun s : Replay => st.core.file.WorkedIn touched s.core.file) ?_
      (.refl touched _)
    intro ie _ s hs
    rcases replayEntry_core env args ie s with ⟨heq, -⟩ | ⟨r, ops, links, -, -, -, heq⟩
    · rw [heq]
      exact hs
    · rw [heq]
      exact hs.trans (s.core.file.workedIn_appendAll h ops)
  unfold replayManifest
  split
  · exact ⟨.refl touched _, fun hf => by cases hf⟩
  · cases hrun : Outcome.runAll (replayEntry env args) (replayOrder args.manifest.entries) st with
    | fail s =>
      rw [hrun] at hloop
      exact ⟨hloop, fun hf => by cases hf⟩
    | ok s =>
      rw [hrun] at hloop
      rw [Outcome.bind_ok, persist_eq]
      obtain ⟨-, ops, -, hcarry⟩ := applied_carryForwardResized env args.manifest s
      have hcarried : st.core.file.WorkedIn touched (carryForwardResized env args.manifest s).core.file := by
        rw [hcarry]
        exact hloop.trans (s.core.file.workedIn_appendAll h ops)
      split
      · exact ⟨hcarried, fun hf => by cases hf⟩
      · have hclosing := StepFile.workedIn_appendAll h
          ((carryForwardResized env args.manifest s).core.file.ensure args.manifest.physicalStep)
          (env.closing (carryForwardResized env args.manifest s).core.config args.manifest)
        refine ⟨(hcarried.trans (StepFile.workedIn_ensure h _)).trans hclosing, fun _ => ?_⟩
        exact hclosing.kept _ (StepFile.find?_ensure_self _ _)

theorem workedIn_replayStep (touched : Nat → Prop) (build : BuildEnv) (env : ReplayEnv) (st : Replay)
    (h : touched st.core.physicalStep) :
    st.core.file.WorkedIn touched (replayStep build env st).state.core.file ∧
      ((replayStep build env st).isOk →
        ((replayStep build env st).state.core.file.find? st.core.physicalStep).isSome) := by
  unfold replayStep
  cases hbuild : buildManifest build st.core with
  | mk fs res =>
    obtain ⟨w, hfs, hm⟩ := buildManifest_eq hbuild
    cases res with
    | none =>
      simp only [hfs]
      exact ⟨.refl touched _, fun hf => by cases hf⟩
    | some m =>
      simp only
      have hnumber : (fs.replayArgs m).manifest.physicalStep = st.core.physicalStep := (hm m rfl).1
      have hreplay := workedIn_replayManifest touched env (fs.replayArgs m) { st with core := fs }
        (by rw [hnumber]; exact h)
      rw [hnumber, hfs] at hreplay
      rw [hfs]
      exact hreplay

/-! ## Draining -/

/-- The end of the drain window. -/
def Core.drainLimit (fs : Core) (env : EndEnv) : Nat :=
  (env.lagDrain.getD fs.physicalStep + fs.reserveSlots) % 2 ^ 64

/-- The queued steps the drain may work on. -/
def Core.due (fs : Core) (env : EndEnv) : List SpillEntry :=
  if fs.activePolicy.isSome && fs.config.haveBake then
    fs.pendingSpill.filter fun q => q.physicalStep ≤ fs.drainLimit env
  else []

theorem Core.mem_of_due {fs : Core} {env : EndEnv} {q : SpillEntry} (h : q ∈ fs.due env) : q ∈ fs.pendingSpill := by
  unfold Core.due at h
  split at h
  · exact (List.mem_filter.mp h).1
  · cases h

theorem workedIn_drainEntries (touched : Nat → Prop) (env : Nat → DrainEnv) (limit k : Nat)
    (queue : List SpillEntry) (st : Replay)
    (h : ∀ q ∈ queue, q.physicalStep ≤ limit → touched q.manifest.physicalStep) :
    st.core.file.WorkedIn touched (drainEntries env limit k queue st).2.core.file ∧
      (drainEntries env limit k queue st).1 <:+ queue := by
  induction queue generalizing k st with
  | nil => exact ⟨.refl touched _, List.suffix_refl _⟩
  | cons q queue ih =>
    unfold drainEntries
    split
    · exact ⟨.refl touched _, List.suffix_refl _⟩
    · rename_i hdue
      split
      · exact ⟨.refl touched _, List.suffix_refl _⟩
      · have hreplay := (workedIn_replayManifest touched (env k).replay q.args st
          (h q List.mem_cons_self (Nat.le_of_not_lt hdue))).1
        cases hr : replayManifest (env k).replay q.args st with
        | fail st' =>
          rw [hr] at hreplay
          exact ⟨hreplay, List.suffix_refl _⟩
        | ok st' =>
          rw [hr] at hreplay
          obtain ⟨hrest, hsuffix⟩ := ih (k + 1) st' (fun q' hq' => h q' (List.mem_cons_of_mem _ hq'))
          exact ⟨hreplay.trans hrest, hsuffix.trans (List.suffix_cons q queue)⟩

/-- The drain works in the groups of the steps that are due, and leaves the end of the queue. -/
theorem workedIn_drained (touched : Nat → Prop) (env : EndEnv) (st : Replay)
    (h : ∀ q ∈ st.core.due env, touched q.manifest.physicalStep) :
    st.core.file.WorkedIn touched (drained env st).core.file ∧
      (drained env st).core.pendingSpill <:+ st.core.pendingSpill := by
  unfold drained
  split
  · rename_i hpolicy
    unfold drainFirst
    split
    · rename_i hbake
      rw [Bool.and_eq_true] at hbake
      have hdue : ∀ q ∈ st.core.pendingSpill, q.physicalStep ≤ st.core.drainLimit env →
          touched q.manifest.physicalStep := by
        intro q hq hle
        refine h q ?_
        unfold Core.due
        rw [hpolicy, hbake.1]
        exact List.mem_filter.mpr ⟨hq, decide_eq_true hle⟩
      exact workedIn_drainEntries touched env.drain _ 0 st.core.pendingSpill st hdue
    · exact ⟨.refl touched _, List.suffix_refl _⟩
  · exact ⟨.refl touched _, List.suffix_refl _⟩

/-! ## The whole call -/

/-- The groups `H5Fend_step` works in. -/
def Core.touches (fs : Core) (env : EndEnv) (n : Nat) : Prop :=
  n = fs.physicalStep ∨ ∃ q ∈ fs.due env, q.manifest.physicalStep = n

/-- What is left of the queue, with this step at its end if it was spilled. -/
def Requeued (n : Nat) (queue queue' : List SpillEntry) : Prop :=
  ∃ left, left <:+ queue ∧
    (queue' = left ∨ ∃ q, q.physicalStep = n ∧ q.manifest.physicalStep = n ∧ queue' = left ++ [q])

theorem Requeued.of_suffix {n : Nat} {queue queue' : List SpillEntry} (h : queue' <:+ queue) :
    Requeued n queue queue' := ⟨queue', h, .inl rfl⟩

theorem Requeued.mem {n : Nat} {queue queue' : List SpillEntry} (h : Requeued n queue queue') {q : SpillEntry}
    (hq : q ∈ queue') : q ∈ queue ∨ (q.physicalStep = n ∧ q.manifest.physicalStep = n) := by
  obtain ⟨left, hsuffix, rfl | ⟨q', hn, hm, rfl⟩⟩ := h
  · exact .inl (hsuffix.subset hq)
  · rcases List.mem_append.mp hq with hq | hq
    · exact .inl (hsuffix.subset hq)
    · rw [List.mem_singleton.mp hq]
      exact .inr ⟨hn, hm⟩

theorem applyQueuePolicy_spec (env : EndEnv) (st : Replay) :
    st.core.file.WorkedIn (st.core.touches env) (applyQueuePolicy env st).state.core.file
      ∧ ((applyQueuePolicy env st).isOk →
        ((applyQueuePolicy env st).state.core.file.find? st.core.physicalStep).isSome)
      ∧ Requeued st.core.physicalStep st.core.pendingSpill (applyQueuePolicy env st).state.core.pendingSpill
      ∧ ((applyQueuePolicy env st).isOk = false →
        (applyQueuePolicy env st).state.core.pendingSpill <:+ st.core.pendingSpill) := by
  obtain ⟨hworked, hsuffix⟩ := workedIn_drained (st.core.touches env) env st (fun q hq => .inr ⟨q, hq, rfl⟩)
  have hnumber : (drained env st).core.physicalStep = st.core.physicalStep :=
    by
    have := congrArg Core.physicalStep (drainFrame_drained env st)
    exact this
  have hown : st.core.touches env st.core.physicalStep := .inl rfl
  rw [applyQueuePolicy_eq]
  cases st.core.fate env.lag with
  | replay =>
    obtain ⟨hreplay, hthere⟩ := workedIn_replayStep (st.core.touches env) env.build env.replay (drained env st)
      (by rw [hnumber]; exact hown)
    rw [hnumber] at hthere
    refine ⟨hworked.trans hreplay, hthere, ?_⟩
    rw [pendingSpill_replayStep]
    exact ⟨.of_suffix hsuffix, fun _ => hsuffix⟩
  | drop =>
    simp only [dropped, discardStep]
    cases env.discardFails with
    | true => exact ⟨hworked, fun hf => (by cases hf), .of_suffix hsuffix, fun _ => hsuffix⟩
    | false =>
      refine ⟨hworked.trans (StepFile.workedIn_ensure (by rw [hnumber]; exact hown) _), fun _ => ?_,
        .of_suffix hsuffix, fun _ => hsuffix⟩
      rw [← hnumber]
      exact StepFile.find?_ensure_self _ _
  | spill =>
    simp only [spilled]
    have hensure : (drained env st).core.file.WorkedIn (st.core.touches env)
        ((drained env st).core.file.ensure (drained env st).core.physicalStep) :=
      StepFile.workedIn_ensure (by rw [hnumber]; exact hown) _
    rcases spillStep_eq env.spill (drained env st).core with
      ⟨file, w, m, h, hm, -, rfl⟩ | ⟨file, w, h, hfile⟩
    · rw [h]
      refine ⟨hworked.trans hensure, fun _ => ?_,
        ⟨_, hsuffix, .inr ⟨_, hnumber, hm.trans hnumber, rfl⟩⟩, fun hf => by cases hf⟩
      rw [← hnumber]
      exact StepFile.find?_ensure_self _ _
    · rw [h]
      simp only
      have hspilled : (drained env st).core.file.WorkedIn (st.core.touches env) file := by
        rcases hfile with rfl | rfl
        · exact .refl _ _
        · exact hensure
      obtain ⟨hreplay, hthere⟩ := workedIn_replayStep (st.core.touches env) env.build env.replay
        { drained env st with core := { (drained env st).core with file := file, writeTypeCache := w } }
        (by rw [show _ = st.core.physicalStep from hnumber]; exact hown)
      rw [show Core.physicalStep { (drained env st).core with file := file, writeTypeCache := w }
        = st.core.physicalStep from hnumber] at hthere
      refine ⟨hworked.trans (hspilled.trans hreplay), hthere, ?_⟩
      rw [pendingSpill_replayStep]
      exact ⟨.of_suffix hsuffix, fun _ => hsuffix⟩

/-- A successful `H5Fend_step`: the next number, this step's group, and the queue. -/
structure Ended (env : EndEnv) (fs fs' : Core) : Prop where
  number : fs'.physicalStep = fs.physicalStep + 1
  worked : fs.file.WorkedIn (fs.touches env) fs'.file
  there : (fs'.file.find? fs.physicalStep).isSome
  queue : Requeued fs.physicalStep fs.pendingSpill fs'.pendingSpill

/-- A failed one: the number stays, and this step's group goes. -/
structure Abandoned (env : EndEnv) (fs fs' : Core) : Prop where
  number : fs'.physicalStep = fs.physicalStep
  worked : ∃ file, fs.file.WorkedIn (fs.touches env) file ∧
    fs'.file = if env.unlinkFails then file else file.unlink fs.physicalStep
  queue : fs'.pendingSpill <:+ fs.pendingSpill

theorem Core.touches_folded (fs : Core) (env env' : EndEnv) : (fs.folded env').touches env = fs.touches env := by
  obtain ⟨pending, bytes, hfold⟩ := folded_eq fs env'
  rw [hfold]
  rfl

/-- The three ways `H5Fend_step` returns. -/
theorem endStep_cases (env : EndEnv) (w : Writer) :
    (w.core.stepState ≠ .inStep ∧ endStep env w = .fail w)
      ∨ (∃ w', endStep env w = .ok w' ∧ Ended env w.core w'.core)
      ∨ ∃ w', endStep env w = .fail w' ∧ Abandoned env w.core w'.core := by
  obtain ⟨pending, bytes, hfold⟩ := folded_eq w.core env
  have hspec := applyQueuePolicy_spec env ⟨w.core.folded env, [], w.lookups⟩
  have hframe := congrArg Core.physicalStep (policyFrame_applyQueuePolicy env ⟨w.core.folded env, [], w.lookups⟩)
  rw [Core.touches_folded] at hspec
  have hfile : (w.core.folded env).file = w.core.file := by rw [hfold]
  have hnumber : (w.core.folded env).physicalStep = w.core.physicalStep := by rw [hfold]
  have hqueue : (w.core.folded env).pendingSpill = w.core.pendingSpill := by rw [hfold]
  simp only [hfile, hnumber, hqueue] at hspec
  unfold endStep
  by_cases hstep : w.core.stepState = .inStep
  · rw [if_neg (not_not_intro hstep)]
    simp only
    cases happly : applyQueuePolicy env ⟨w.core.folded env, [], w.lookups⟩ with
    | ok st =>
      rw [happly] at hspec hframe
      have hst : st.core.physicalStep = w.core.physicalStep := hframe.trans hnumber
      exact .inr (.inl ⟨_, rfl, congrArg (· + 1) hst, hspec.1, hspec.2.1 rfl, hspec.2.2.1⟩)
    | fail st =>
      rw [happly] at hspec hframe
      have hst : st.core.physicalStep = w.core.physicalStep := hframe.trans hnumber
      refine .inr (.inr ⟨_, rfl, hst, ⟨st.core.file, hspec.1, ?_⟩, hspec.2.2.2 rfl⟩)
      rw [← hst]
      rfl
  · exact .inl ⟨hstep, if_pos hstep⟩

theorem endStep_ended {env : EndEnv} {w w' : Writer} (h : endStep env w = .ok w') : Ended env w.core w'.core := by
  rcases endStep_cases env w with ⟨-, h'⟩ | ⟨w₁, h', hended⟩ | ⟨w₁, h', -⟩
  · rw [h] at h'
    cases h'
  · rw [h] at h'
    cases h'
    exact hended
  · rw [h] at h'
    cases h'

theorem Core.fate_ne_spill {fs : Core} (h : fs.queuePolicy ≠ some .spill) (lag : Option Nat) :
    fs.fate lag ≠ .spill := by
  unfold Core.fate Core.activePolicy
  cases fs.config.transport with
  | false => simp
  | true =>
    cases hpolicy : fs.queuePolicy with
    | none => simp
    | some policy =>
      simp only [if_true]
      split
      · cases policy with
        | block => simp
        | discard => simp
        | spill => exact absurd hpolicy h
      · simp

theorem Core.queuePolicy_folded (fs : Core) (env : EndEnv) : (fs.folded env).queuePolicy = fs.queuePolicy := by
  obtain ⟨pending, bytes, hfold⟩ := folded_eq fs env
  rw [hfold]

/-- Without a spill the queue only gets shorter. -/
theorem pendingSpill_endStep (env : EndEnv) {w : Writer} (h : w.core.queuePolicy ≠ some .spill) :
    (endStep env w).state.core.pendingSpill <:+ w.core.pendingSpill := by
  obtain ⟨pending, bytes, hfold⟩ := folded_eq w.core env
  have hsuffix := (workedIn_drained (fun _ => True) env ⟨w.core.folded env, [], w.lookups⟩ (fun _ _ => trivial)).2
  have hqueue : (w.core.folded env).pendingSpill = w.core.pendingSpill := by rw [hfold]
  rw [show (⟨w.core.folded env, [], w.lookups⟩ : Replay).core.pendingSpill = w.core.pendingSpill from hqueue]
    at hsuffix
  have hfate : (w.core.folded env).fate env.lag ≠ .spill :=
    Core.fate_ne_spill (by rw [Core.queuePolicy_folded]; exact h) env.lag
  have hpolicy : (applyQueuePolicy env ⟨w.core.folded env, [], w.lookups⟩).state.core.pendingSpill
      <:+ w.core.pendingSpill := by
    rw [applyQueuePolicy_eq]
    simp only
    cases hf : (w.core.folded env).fate env.lag with
    | replay =>
      simp only
      rw [pendingSpill_replayStep]
      exact hsuffix
    | drop =>
      simp only [dropped, discardStep]
      cases env.discardFails with
      | true => exact hsuffix
      | false => exact hsuffix
    | spill => exact absurd hf hfate
  unfold endStep
  split
  · exact List.suffix_refl _
  · simp only
    cases happly : applyQueuePolicy env ⟨w.core.folded env, [], w.lookups⟩ with
    | ok st =>
      rw [happly] at hpolicy
      exact hpolicy
    | fail st =>
      rw [happly] at hpolicy
      exact hpolicy

end VolStream
