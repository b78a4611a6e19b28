import VolStream.Writer.PathIndex

/-!
# Committed histories and the reader

A reader refuses a file unless every group under `/step`, numbered without a gap, holds a
manifest. The writer finishes a step in three ways: a full replay, an empty group (dropped), or
an empty group filled later (spilled). Only the first leaves a group a reader accepts, so a
history is readable when no step was dropped, none is still queued and every replay wrote its
manifest.
-/

namespace VolStream

/-! ## What a run commits -/

/-- A step whose `H5Fend_step` succeeded: what was decided for it, and what it captured. -/
structure Commit where
  fate : Fate
  pending : List PendingEntry

def Commit.paths (c : Commit) : List Path := indexPaths (c.pending.map PendingEntry.key)

-- the step an event commits, if it does
def Writer.commitOf (w : Writer) : Event → List Commit
  | .endStep env =>
      if (endStep env w).isOk then [⟨(w.core.folded env).fate env.lag, (w.core.folded env).pending⟩] else []
  | _ => []

/-- The steps a run commits, in order of their numbers. -/
def Writer.commits : Writer → List Event → List Commit
  | _, [] => []
  | w, ev :: events => w.commitOf ev ++ Writer.commits (w.apply ev).state events

/-- Step `n` really wrote the path: it captured it, was not dropped and is not still queued. -/
def Wrote (fs : Core) (commits : List Commit) (path : Path) (n : Nat) : Prop :=
  ∃ c, commits[n]? = some c ∧ c.fate ≠ .drop ∧ (∀ q ∈ fs.pendingSpill, q.physicalStep ≠ n) ∧ path ∈ c.paths

/-- `dir` is what a reader finds under `/step`, which need not exist before the first step. -/
def StepFile.IsDir (file : StepFile) (dir : StepDir) : Prop :=
  dir = some file.children ∨ (file = [] ∧ dir = none)

/-- The index is built, counts the committed steps, and resolves a path at step `k` to the last
step up to `k` that really wrote it. -/
def Readable (fs : Core) (commits : List Commit) : Prop :=
  ∀ dir, fs.file.IsDir dir → ∃ r, readerBuildIndex dir Reader.init = .ok r
    ∧ r.nStepsTotal = fs.physicalStep
    ∧ ∀ path k n, k < fs.physicalStep → (pathIndexResolve r.pathIndex path k = some n ↔
        IsGreatest {n | Wrote fs commits path n ∧ n ≤ k} n)

-- every `H5Fend_step` of the run succeeds
def EndsOk (w : Writer) : Event → Prop
  | .endStep env => (endStep env w).isOk
  | _ => True

/-- No step is dropped and every replay, at once or in a drain, writes its manifest. -/
def ReadableAt (w : Writer) : Event → Prop
  | .endStep env => (w.core.folded env).fate env.lag ≠ .drop ∧ env.replay.Persists
      ∧ ∀ k, (env.drain k).replay.Persists
  | _ => True

/-! ## Groups and queued steps -/

/-- The groups are those of the committed steps, and the queued ones among them are empty. -/
structure FileInv (file : StepFile) (queue : List SpillEntry) (next : Nat) : Prop where
  groups : file.keys = List.range next
  fresh : ∀ n, next ≤ n → file.manifestOps n = []
  number : ∀ q ∈ queue, q.manifest.physicalStep = q.physicalStep
  before : ∀ q ∈ queue, q.physicalStep < next
  empty : ∀ q ∈ queue, file.manifestOps q.physicalStep = []
  order : queue.Pairwise fun q q' => q.physicalStep < q'.physicalStep

/-- The commit is in the file or in the queue. -/
def Kept (file : StepFile) (queue : List SpillEntry) (n : Nat) (paths : List Path) : Prop :=
  (∃ m, file.manifestOf n = some m ∧ m.indexPaths = paths)
    ∨ ∃ q ∈ queue, q.physicalStep = n ∧ q.manifest.indexPaths = paths

theorem addGroup_of_mem {keys : List Nat} {n : Nat} (h : n ∈ keys) : addGroup keys n = keys := if_pos h

theorem StepFile.keys_appendAll_of_mem {file : StepFile} {n : Nat} (h : n ∈ file.keys) (ops : List FileOp) :
    (file.appendAll n ops).keys = file.keys := by
  rcases file.keys_appendAll n ops with hk | hk
  · exact hk
  · exact hk.trans (addGroup_of_mem h)

/-- Replaying into a group that is there makes no other. -/
theorem keys_replayManifest_of_mem (env : ReplayEnv) (args : ReplayArgs) (st : Replay)
    (h : args.manifest.physicalStep ∈ st.core.file.keys) :
    (replayManifest env args st).state.core.file.keys = st.core.file.keys := by
  have hloop : (Outcome.runAll (replayEntry env args) (replayOrder args.manifest.entries) st).state.core.file.keys
      = st.core.file.keys := by
    rcases keys_loop env args (replayOrder args.manifest.entries) st with hk | hk
    · exact hk
    · exact hk.trans (addGroup_of_mem h)
  unfold replayManifest
  split
  · rfl
  · cases hrun : Outcome.runAll (replayEntry env args) (replayOrder args.manifest.entries) st with
    | fail st' =>
      rw [hrun] at hloop
      exact hloop
    | ok st' =>
      rw [hrun, Outcome.state_ok] at hloop
      obtain ⟨-, ops, -, hcarry⟩ := applied_carryForwardResized env args.manifest st'
      have hcarried : (carryForwardResized env args.manifest st').core.file.keys = st.core.file.keys := by
        rw [hcarry, ← hloop]
        exact StepFile.keys_appendAll_of_mem (hloop ▸ h) ops
      rw [Outcome.bind_ok, persist_eq]
      split
      · exact hcarried
      · have hensure : ((carryForwardResized env args.manifest st').core.file.ensure
            args.manifest.physicalStep).keys = st.core.file.keys := by
          rw [StepFile.keys_ensure, hcarried, addGroup_of_mem h]
        rw [← hensure]
        exact StepFile.keys_appendAll_of_mem (hensure ▸ h) _

theorem drainEntries_file {env : Nat → DrainEnv} {limit k next : Nat} {queue : List SpillEntry}
    {st : Replay} (hpersist : ∀ k, (env k).replay.Persists) (hinv : FileInv st.core.file queue next) :
    let left := drainEntries env limit k queue st
    FileInv left.2.core.file left.1 next
      ∧ ∀ n paths, Kept st.core.file queue n paths → Kept left.2.core.file left.1 n paths := by
  induction queue generalizing k st with
  | nil => exact ⟨hinv, fun _ _ h => h⟩
  | cons q queue ih =>
    unfold drainEntries
    split
    · exact ⟨hinv, fun _ _ h => h⟩
    · split
      · exact ⟨hinv, fun _ _ h => h⟩
      · have hnumber : q.args.manifest.physicalStep = q.physicalStep := hinv.number q List.mem_cons_self
        have hbefore := hinv.before q List.mem_cons_self
        have hkeys := keys_replayManifest_of_mem (env k).replay q.args st
          (by rw [hnumber, hinv.groups]; exact List.mem_range.mpr hbefore)
        have hops := manifestOps_replayManifest (env k).replay q.args st
        cases hreplay : replayManifest (env k).replay q.args st with
        | fail st' =>
          rw [hreplay] at hkeys hops
          have hsame : ∀ n, st'.core.file.manifestOps n = st.core.file.manifestOps n :=
            fun n => by simpa using hops n
          refine ⟨⟨hkeys.trans hinv.groups, fun n hn => (hsame n).trans (hinv.fresh n hn), hinv.number,
            hinv.before, fun q' hq' => (hsame _).trans (hinv.empty q' hq'), hinv.order⟩, fun n paths h => ?_⟩
          rcases h with ⟨m, hm, hpaths⟩ | h
          · refine .inl ⟨m, ?_, hpaths⟩
            unfold StepFile.manifestOf at hm ⊢
            rw [hsame]
            exact hm
          · exact .inr h
        | ok st' =>
          rw [hreplay] at hkeys hops
          have hother : ∀ n, q.physicalStep ≠ n →
              st'.core.file.manifestOps n = st.core.file.manifestOps n := by
            intro n hn
            have := hops n
            rw [hnumber, if_neg (by simp [hn]), List.append_nil] at this
            exact this
          have hmade : st'.core.file.manifestOf q.physicalStep = some q.manifest := by
            have := hops q.physicalStep
            rw [hnumber, hinv.empty q List.mem_cons_self, (hpersist k).made] at this
            unfold StepFile.manifestOf
            simp only [Outcome.state_ok] at this
            rw [this]
            rfl
          have horder := List.pairwise_cons.mp hinv.order
          have hinv' : FileInv st'.core.file queue next := by
            refine ⟨hkeys.trans hinv.groups, fun n hn => ?_, fun q' hq' => ?_, fun q' hq' => ?_,
              fun q' hq' => ?_, horder.2⟩
            · rw [hother n (by omega)]
              exact hinv.fresh n hn
            · exact hinv.number q' (List.mem_cons_of_mem _ hq')
            · exact hinv.before q' (List.mem_cons_of_mem _ hq')
            · rw [hother _ (Nat.ne_of_lt (horder.1 q' hq'))]
              exact hinv.empty q' (List.mem_cons_of_mem _ hq')
          obtain ⟨hfile, hkept⟩ := ih (k := k + 1) hinv'
          refine ⟨hfile, fun n paths h => hkept n paths ?_⟩
          -- the drained step moves from the queue to the file
          by_cases hn : q.physicalStep = n
          · rcases h with ⟨m, hm, -⟩ | ⟨q', hq', hnum, hpaths⟩
            · unfold StepFile.manifestOf at hm
              rw [← hn, hinv.empty q List.mem_cons_self] at hm
              cases hm
            · rcases List.mem_cons.mp hq' with rfl | hq'
              · exact .inl ⟨q'.manifest, hn ▸ hmade, hpaths⟩
              · have := horder.1 q' hq'
                omega
          · rcases h with ⟨m, hm, hpaths⟩ | ⟨q', hq', hnum, hpaths⟩
            · refine .inl ⟨m, ?_, hpaths⟩
              unfold StepFile.manifestOf at hm ⊢
              rw [hother n hn]
              exact hm
            · rcases List.mem_cons.mp hq' with rfl | hq'
              · exact absurd hnum hn
              · exact .inr ⟨q', hq', hnum, hpaths⟩

/-! ## Committing a step -/

/-- A commit keeps every earlier one and adds its own. -/
structure Committed (fs : Core) (st : Replay) : Prop where
  file : FileInv st.core.file st.core.pendingSpill (fs.physicalStep + 1)
  earlier : ∀ n paths, n < fs.physicalStep → Kept fs.file fs.pendingSpill n paths →
    Kept st.core.file st.core.pendingSpill n paths
  own : Kept st.core.file st.core.pendingSpill fs.physicalStep fs.pendingPaths

/-- What replay starts from: the step's own group may already be there, empty. -/
structure ReplayStart (fs : Core) : Prop where
  groups : addGroup fs.file.keys fs.physicalStep = List.range (fs.physicalStep + 1)
  fresh : ∀ n, fs.physicalStep ≤ n → fs.file.manifestOps n = []
  number : ∀ q ∈ fs.pendingSpill, q.manifest.physicalStep = q.physicalStep
  before : ∀ q ∈ fs.pendingSpill, q.physicalStep < fs.physicalStep
  empty : ∀ q ∈ fs.pendingSpill, fs.file.manifestOps q.physicalStep = []
  order : fs.pendingSpill.Pairwise fun q q' => q.physicalStep < q'.physicalStep

theorem FileInv.start {fs : Core} (h : FileInv fs.file fs.pendingSpill fs.physicalStep) : ReplayStart fs :=
  ⟨by rw [h.groups, addGroup_range], h.fresh, h.number, h.before, h.empty, h.order⟩

theorem replayStep_file {build : BuildEnv} {env : ReplayEnv} (st : Replay) {st' : Replay} (hstart : ReplayStart st.core)
    (hpersist : env.Persists) (hok : replayStep build env st = .ok st') : Committed st.core st' := by
  unfold replayStep at hok
  cases hbuild : buildManifest build st.core with
  | mk fs res =>
    obtain ⟨w, hfs, hm⟩ := buildManifest_eq hbuild
    rw [hbuild] at hok
    cases res with
    | none => cases hok
    | some m =>
      obtain ⟨hnumber, hpaths⟩ := hm m rfl
      have hreplay : replayManifest env (fs.replayArgs m) { st with core := fs } = .ok st' := hok
      have hkeys := keys_replayManifest_ok hreplay
      have hops := manifestOps_replayManifest env (fs.replayArgs m) { st with core := fs }
      have hspill := congrArg Core.pendingSpill (frame_replayManifest env (fs.replayArgs m) { st with core := fs })
      rw [hreplay] at hops hspill
      have hargs : (fs.replayArgs m).manifest = m := rfl
      rw [hargs, hnumber, hfs] at hkeys
      have hqueue : st'.core.pendingSpill = st.core.pendingSpill := by
        rw [hfs] at hspill
        exact hspill
      have hother : ∀ n, st.core.physicalStep ≠ n →
          st'.core.file.manifestOps n = st.core.file.manifestOps n := by
        intro n hn
        have := hops n
        rw [hargs, hnumber, if_neg (by simp [hn]), List.append_nil, hfs] at this
        exact this
      have hmade : st'.core.file.manifestOf st.core.physicalStep = some m := by
        have := hops st.core.physicalStep
        rw [hargs, hnumber, hpersist.made, hfs] at this
        simp only [Outcome.state_ok, hstart.fresh _ (Nat.le_refl _)] at this
        unfold StepFile.manifestOf
        rw [this]
        rfl
      refine ⟨⟨hkeys.trans hstart.groups, fun n hn => ?_, ?_, fun q hq => ?_, fun q hq => ?_, ?_⟩,
        fun n paths hn h => ?_, .inl ⟨m, hmade, hpaths⟩⟩
      · rw [hother n (by omega)]
        exact hstart.fresh n (by omega)
      · rw [hqueue]
        exact hstart.number
      · exact Nat.lt_succ_of_lt (hstart.before q (hqueue ▸ hq))
      · have hq' := hqueue ▸ hq
        rw [hother _ (Nat.ne_of_gt (hstart.before q hq'))]
        exact hstart.empty q hq'
      · rw [hqueue]
        exact hstart.order
      · rcases h with ⟨m', hm', hpaths'⟩ | h
        · refine .inl ⟨m', ?_, hpaths'⟩
          unfold StepFile.manifestOf at hm' ⊢
          rw [hother n (by omega)]
          exact hm'
        · rw [hqueue]
          exact .inr h

theorem spilled_file {env : EndEnv} {st st' : Replay}
    (hinv : FileInv st.core.file st.core.pendingSpill st.core.physicalStep)
    (hpersist : env.replay.Persists) (hok : spilled env st = .ok st') : Committed st.core st' := by
  have hensure : ∀ n, (st.core.file.ensure st.core.physicalStep).manifestOps n = st.core.file.manifestOps n :=
    fun n => st.core.file.manifestOps_ensure _ n
  have hkeys : (st.core.file.ensure st.core.physicalStep).keys = List.range (st.core.physicalStep + 1) := by
    rw [StepFile.keys_ensure, hinv.groups, addGroup_range]
  have hkept : ∀ n paths, (∃ m, st.core.file.manifestOf n = some m ∧ m.indexPaths = paths) →
      ∃ m, (st.core.file.ensure st.core.physicalStep).manifestOf n = some m ∧ m.indexPaths = paths := by
    intro n paths ⟨m, hm, hpaths⟩
    refine ⟨m, ?_, hpaths⟩
    unfold StepFile.manifestOf at hm ⊢
    rw [hensure]
    exact hm
  unfold spilled at hok
  rcases spillStep_eq env.spill st.core with ⟨file, w, m, h, hnumber, hpaths, rfl⟩ | ⟨file, w, h, hfile⟩
  · rw [h] at hok
    cases hok
    refine ⟨⟨hkeys, fun n hn => (hensure n).trans (hinv.fresh n (by omega)), fun q hq => ?_, fun q hq => ?_,
      fun q hq => ?_, ?_⟩, fun n paths _ hk => ?_, .inr ⟨_, List.mem_append_right _ List.mem_cons_self, rfl, hpaths⟩⟩
    · rcases List.mem_append.mp hq with hq | hq
      · exact hinv.number q hq
      · rw [List.mem_singleton.mp hq]
        exact hnumber
    · rcases List.mem_append.mp hq with hq | hq
      · exact Nat.lt_succ_of_lt (hinv.before q hq)
      · rw [List.mem_singleton.mp hq]
        exact Nat.lt_succ_self _
    · rcases List.mem_append.mp hq with hq | hq
      · exact (hensure _).trans (hinv.empty q hq)
      · rw [List.mem_singleton.mp hq]
        exact (hensure _).trans (hinv.fresh _ (Nat.le_refl _))
    · refine List.pairwise_append.mpr ⟨hinv.order, List.pairwise_singleton _ _, fun q hq q' hq' => ?_⟩
      rw [List.mem_singleton.mp hq']
      exact hinv.before q hq
    · rcases hk with hk | ⟨q, hq, hnum, hqpaths⟩
      · exact .inl (hkept n paths hk)
      · exact .inr ⟨q, List.mem_append_left _ hq, hnum, hqpaths⟩
  · rw [h] at hok
    -- the empty group stays, and the step is replayed into it
    rcases hfile with rfl | rfl
    · have hc := replayStep_file { st with core := { st.core with writeTypeCache := w } }
        ⟨by rw [← StepFile.keys_ensure]; exact hkeys, hinv.fresh, hinv.number, hinv.before, hinv.empty, hinv.order⟩
        hpersist hok
      exact ⟨hc.file, hc.earlier, hc.own⟩
    · have hc := replayStep_file { st with core := { st.core with
          file := st.core.file.ensure st.core.physicalStep, writeTypeCache := w } }
        ⟨by rw [hkeys]; exact addGroup_of_mem (List.mem_range.mpr (Nat.lt_succ_self _)),
          fun n hn => (hensure n).trans (hinv.fresh n hn), hinv.number, hinv.before,
          fun q hq => (hensure _).trans (hinv.empty q hq), hinv.order⟩
        hpersist hok
      refine ⟨hc.file, fun n paths hn hk => hc.earlier n paths hn ?_, hc.own⟩
      rcases hk with hk | hk
      · exact .inl (hkept n paths hk)
      · exact .inr hk

/-! ## Runs -/

/-- Every committed step is in the file or in the queue, under its own number. -/
structure HistoryInv (fs : Core) (commits : List Commit) : Prop where
  count : commits.length = fs.physicalStep
  file : FileInv fs.file fs.pendingSpill fs.physicalStep
  kept : ∀ n c, commits[n]? = some c → Kept fs.file fs.pendingSpill n c.paths
  undropped : ∀ c ∈ commits, c.fate ≠ .drop

theorem drained_file {env : EndEnv} (st : Replay) {next : Nat}
    (hpersist : ∀ k, (env.drain k).replay.Persists)
    (hinv : FileInv st.core.file st.core.pendingSpill next) :
    FileInv (drained env st).core.file (drained env st).core.pendingSpill next
      ∧ ∀ n paths, Kept st.core.file st.core.pendingSpill n paths →
        Kept (drained env st).core.file (drained env st).core.pendingSpill n paths := by
  unfold drained
  split
  · unfold drainFirst
    split
    · exact drainEntries_file hpersist hinv
    · exact ⟨hinv, fun _ _ h => h⟩
  · exact ⟨hinv, fun _ _ h => h⟩

theorem endStep_history {env : EndEnv} {w : Writer} {commits : List Commit} (hinv : HistoryInv w.core commits)
    (hok : (endStep env w).isOk) (hread : ReadableAt w (.endStep env)) :
    HistoryInv (endStep env w).state.core
      (commits ++ [⟨(w.core.folded env).fate env.lag, (w.core.folded env).pending⟩]) := by
  obtain ⟨hfate, hpersist, hdrain⟩ := hread
  obtain ⟨pending, bytes, hfold⟩ := folded_eq w.core env
  -- the drain, on the step as it was folded
  obtain ⟨st, hst⟩ : ∃ st : Replay, st = drained env ⟨w.core.folded env, [], w.lookups⟩ := ⟨_, rfl⟩
  have hframe := drainFrame_drained env ⟨w.core.folded env, [], w.lookups⟩
  rw [← hst] at hframe
  have hnumber : st.core.physicalStep = w.core.physicalStep := by
    have := congrArg Core.physicalStep hframe
    rw [hfold] at this
    exact this
  have hpending : st.core.pending = (w.core.folded env).pending := by
    have := congrArg Core.pending hframe
    exact this
  have hfile : FileInv (w.core.folded env).file (w.core.folded env).pendingSpill w.core.physicalStep := by
    rw [hfold]
    exact hinv.file
  obtain ⟨hdrained, hkept⟩ := drained_file ⟨w.core.folded env, [], w.lookups⟩ hdrain hfile
  rw [← hst] at hdrained hkept
  rw [← hnumber] at hdrained
  unfold endStep at hok ⊢
  split at hok
  · cases hok
  · rename_i hstep
    rw [if_neg hstep]
    simp only at hok ⊢
    cases happly : applyQueuePolicy env ⟨w.core.folded env, [], w.lookups⟩ with
    | fail st' =>
      rw [happly] at hok
      cases hok
    | ok st' =>
      have hcommit : Committed st.core st' := by
        rw [applyQueuePolicy_eq, ← hst] at happly
        cases hf : (w.core.folded env).fate env.lag with
        | replay =>
          rw [hf] at happly
          exact replayStep_file st hdrained.start hpersist happly
        | drop => exact absurd hf hfate
        | spill =>
          rw [hf] at happly
          exact spilled_file hdrained hpersist happly
      have hnumber' : st'.core.physicalStep = w.core.physicalStep := by
        have := congrArg Core.physicalStep
          (policyFrame_applyQueuePolicy env ⟨w.core.folded env, [], w.lookups⟩)
        rw [happly, hfold] at this
        exact this
      simp only [Outcome.state_ok, hnumber']
      refine ⟨?_, ?_, fun n c hc => ?_, fun c hc => ?_⟩
      · rw [List.length_append, hinv.count]
        rfl
      · rw [← hnumber]
        exact hcommit.file
      · by_cases hn : n < commits.length
        · rw [List.getElem?_append_left hn] at hc
          have hold := hinv.kept n c hc
          refine hcommit.earlier n _ (by rw [hnumber, ← hinv.count]; exact hn) (hkept n _ ?_)
          rw [hfold]
          exact hold
        · rw [List.getElem?_append_right (Nat.le_of_not_lt hn)] at hc
          have hzero : n - commits.length = 0 := by
            have := (List.getElem?_eq_some_iff.mp hc).1
            rw [List.length_singleton] at this
            omega
          rw [hzero] at hc
          cases hc
          have hown := hcommit.own
          rw [hnumber, show st.core.pendingPaths = indexPaths ((w.core.folded env).pending.map PendingEntry.key)
            from by rw [Core.pendingPaths, hpending]] at hown
          rw [show n = w.core.physicalStep from by rw [← hinv.count]; omega]
          exact hown
      · rcases List.mem_append.mp hc with hc | hc
        · exact hinv.undropped c hc
        · rw [List.mem_singleton.mp hc]
          exact hfate

theorem run_history {w : Writer} {events : List Event} {commits : List Commit}
    (hinv : HistoryInv w.core commits) (hok : w.Meets EndsOk events) (hread : w.Meets ReadableAt events) :
    HistoryInv (w.run events).core (commits ++ w.commits events) := by
  induction events generalizing w commits with
  | nil =>
    rw [Writer.commits, List.append_nil]
    exact hinv
  | cons ev events ih =>
    rw [Writer.commits, Writer.run_cons, ← List.append_assoc]
    refine ih ?_ hok.2 hread.2
    by_cases hev : ∃ env, ev = .endStep env
    · obtain ⟨env, rfl⟩ := hev
      have hend : (endStep env w).isOk := hok.1
      rw [Writer.commitOf, if_pos hend]
      exact endStep_history hinv hend hread.1
    · have hcore := (committed_apply w (fun env h => hev ⟨env, h⟩)).1
      have hfile := congrArg Core.file hcore
      have hspill := congrArg Core.pendingSpill hcore
      have hnumber := congrArg Core.physicalStep hcore
      simp only [Core.committed] at hfile hspill hnumber
      have hnone : w.commitOf ev = [] := by
        cases ev with
        | endStep env => exact absurd ⟨env, rfl⟩ hev
        | _ => rfl
      rw [hnone, List.append_nil]
      refine ⟨hinv.count.trans hnumber.symm, ?_, ?_, hinv.undropped⟩
      · rw [hfile, hspill, hnumber]
        exact hinv.file
      · rw [hfile, hspill]
        exact hinv.kept

/-! ## Reading the file -/

theorem children_eq {file : StepFile} (h : file.keys.Nodup) :
    file.children = file.keys.map fun n => (stepName n, file.manifestOf n) := by
  unfold StepFile.children Table.keys
  rw [List.map_map]
  refine List.map_congr_left (fun g hg => ?_)
  have hfind : file.find? g.1 = some g.2 := (Table.find?_eq_some_iff h g.1 g.2).mpr hg
  simp only [Function.comp, StepFile.manifestOf, StepFile.manifestOps, StepFile.ops, hfind,
    Option.getD_some]

/-- With a manifest for every step and none queued, the history is readable. -/
theorem HistoryInv.readable {fs : Core} {commits : List Commit} (h : HistoryInv fs commits)
    (hqueue : fs.pendingSpill = []) (hlen : fs.physicalStep ≤ CString.ullongMax) : Readable fs commits := by
  -- the manifest of every step is there
  have hmanifest : ∀ n c, commits[n]? = some c →
      ∃ m, fs.file.manifestOf n = some m ∧ m.indexPaths = c.paths := by
    intro n c hc
    rcases h.kept n c hc with hm | ⟨q, hq, -⟩
    · exact hm
    · rw [hqueue] at hq
      cases hq
  have hsome : ∀ n, n < fs.physicalStep → ∃ m, fs.file.manifestOf n = some m := by
    intro n hn
    rw [← h.count] at hn
    obtain ⟨m, hm, -⟩ := hmanifest n _ (List.getElem?_eq_getElem hn)
    exact ⟨m, hm⟩
  obtain ⟨ms, hms⟩ : ∃ ms : List Step,
      ms = (List.range fs.physicalStep).map fun n => (fs.file.manifestOf n).getD ⟨0, [], 0, [], 0⟩ := ⟨_, rfl⟩
  have hmslen : ms.length = fs.physicalStep := by rw [hms, List.length_map, List.length_range]
  have hget : ∀ n, n < fs.physicalStep → ms[n]? = fs.file.manifestOf n := by
    intro n hn
    obtain ⟨m, hm⟩ := hsome n hn
    rw [hms, List.getElem?_map, List.getElem?_range hn, Option.map_some, hm, Option.getD_some]
  have hchildren : fs.file.children = stepGroups ms := by
    rw [children_eq (by rw [h.file.groups]; exact List.nodup_range), h.file.groups, stepGroups, hmslen]
    refine List.map_congr_left (fun n hn => ?_)
    rw [hget n (List.mem_range.mp hn)]
  have hpaths : ∀ path n, path ∈ stepPaths fs.file.children n ↔ Wrote fs commits path n := by
    intro path n
    rw [stepPaths_children]
    constructor
    · intro hmem
      have hn : n < fs.physicalStep := by
        by_contra hle
        rw [StepFile.manifestOf, h.file.fresh n (Nat.le_of_not_lt hle)] at hmem
        cases hmem
      rw [← h.count] at hn
      obtain ⟨m, hm, hmpaths⟩ := hmanifest n _ (List.getElem?_eq_getElem hn)
      rw [hm] at hmem
      refine ⟨_, List.getElem?_eq_getElem hn, h.undropped _ (List.getElem_mem hn), ?_, hmpaths ▸ hmem⟩
      rw [hqueue]
      exact List.forall_mem_nil _
    · rintro ⟨c, hc, -, -, hmem⟩
      obtain ⟨m, hm, hmpaths⟩ := hmanifest n c hc
      rw [hm, Option.map_some, Option.getD_some, hmpaths]
      exact hmem
  intro dir hdir
  rcases hdir with rfl | ⟨hempty, rfl⟩
  · obtain ⟨r, hr, hindexed, -, -⟩ := readerBuildIndex_spec
      (.inl (congrArg some hchildren)) (by rw [hmslen]; exact hlen) Reader.init rfl rfl
    have htotal : r.nStepsTotal = fs.physicalStep := hindexed.total.trans hmslen
    refine ⟨r, hr, htotal, fun path k n _ => ?_⟩
    have hsteps := pathIndex_readerBuildIndex hr path
    rw [htotal, show (Reader.init.pathIndex path).steps = [] from rfl, List.nil_append] at hsteps
    rw [pathIndexResolve_eq_some_iff (by rw [hsteps]; exact sorted_scan _ _), hsteps]
    have hmem : ∀ p, (p < fs.physicalStep ∧ (stepPaths fs.file.children p).count path ≠ 0) ↔
        Wrote fs commits path p := by
      intro p
      rw [← hpaths, ← List.count_pos_iff, Nat.pos_iff_ne_zero]
      refine ⟨fun hp => hp.2, fun hp => ⟨?_, hp⟩⟩
      obtain ⟨c, hc, -⟩ := (hpaths path p).mp (List.count_pos_iff.mp (Nat.pos_of_ne_zero hp))
      rw [← h.count]
      exact (List.getElem?_eq_some_iff.mp hc).1
    simp only [mem_scan, hmem]
  · -- no group yet, so no step
    have hzero : fs.physicalStep = 0 := by
      have hgroups := h.file.groups
      rw [hempty] at hgroups
      have := congrArg List.length hgroups
      rw [List.length_range] at this
      exact this.symm
    refine ⟨_, rfl, hzero.symm, fun path k n hk => ?_⟩
    omega

/-- A reader positioned at a step resolves a path to the last step, not after it, whose manifest has the path. -/
theorem resolves_readerAdvance {file : StepFile} {dir : StepDir} (hdir : file.IsDir dir) {k : Nat} {rd : Reader}
    (h : readerAdvance dir (some k) Reader.init = .ok rd) (path : Path) (r : Nat) :
    pathIndexResolve rd.pathIndex path rd.currentStep = some r ↔
      IsGreatest {n | path ∈ file.pathsOf n ∧ n ≤ k} r := by
  unfold readerAdvance ensureIndex at h
  rw [if_neg (by decide), Outcome.bind_eq_ok_iff] at h
  obtain ⟨rd', hbuild, h⟩ := h
  rw [Option.getD_some] at h
  split at h
  · cases h
  · rename_i hlt
    cases h
    rw [ge_iff_le, Nat.not_le] at hlt
    rcases hdir with rfl | ⟨-, rfl⟩
    · have hsteps := pathIndex_readerBuildIndex hbuild path
      rw [show (Reader.init.pathIndex path).steps = [] from rfl, List.nil_append] at hsteps
      have hset : {j | j ∈ (rd'.pathIndex path).steps ∧ j ≤ k} = {n | path ∈ file.pathsOf n ∧ n ≤ k} := by
        ext j
        simp only [Set.mem_ofPred_eq]
        refine and_congr_left fun hjk => ?_
        rw [hsteps, mem_scan, stepPaths_children, ← Nat.pos_iff_ne_zero, List.count_pos_iff]
        exact ⟨fun hand => hand.2, fun hmem => ⟨by omega, hmem⟩⟩
      show pathIndexResolve rd'.pathIndex path k = some r ↔ _
      rw [pathIndexResolve_eq_some_iff (by rw [hsteps]; exact sorted_scan _ _), hset]
    · -- without `/step` there is no step to be positioned at
      cases hbuild
      exact absurd hlt (Nat.not_lt_zero k)

/-- A run whose steps all commit leaves a readable history, when none was dropped or is still
queued and every replay wrote its manifest. -/
theorem committed_readable {config : Config} {events : List Event}
    (hok : (Writer.init config).Meets EndsOk events)
    (hread : (Writer.init config).Meets ReadableAt events)
    (hqueue : ((Writer.init config).run events).core.pendingSpill = [])
    (hlen : ((Writer.init config).run events).core.physicalStep ≤ CString.ullongMax) :
    Readable ((Writer.init config).run events).core ((Writer.init config).commits events) := by
  have hinit : HistoryInv (Core.init config) [] :=
    ⟨rfl, ⟨rfl, fun _ _ => rfl, List.forall_mem_nil _, List.forall_mem_nil _, List.forall_mem_nil _,
      List.Pairwise.nil⟩, (by intro _ _ h; cases h), List.forall_mem_nil _⟩
  have hinv := run_history hinit hok hread
  rw [List.nil_append] at hinv
  exact hinv.readable hqueue hlen

/-! ### A dropped step -/

/-- With `Discard` set, step 1 is dropped because a reader has acknowledged step 0 only. -/
def discardRun : List Event :=
  [.setQueuePolicy .discard 0,
    .beginStep [] 0, createByte 0 ['a'], .closeHandle 0, .endStep .lagging,
    .beginStep [] 1, createByte 1 ['a'], .closeHandle 1, .endStep .lagging]

/-- Both commits succeed, and the reader refuses the file. -/
theorem discardRun_not_readable :
    ¬ ∀ config events, (Writer.init config).Meets EndsOk events →
      Readable ((Writer.init config).run events).core ((Writer.init config).commits events) := by
  intro h
  have hok : (Writer.init .staging).Meets EndsOk discardRun :=
    ⟨trivial, trivial, trivial, trivial, rfl, trivial, trivial, trivial, rfl, trivial⟩
  obtain ⟨r, hr, -⟩ := h .staging discardRun hok _ (.inl rfl)
  have hrefused : (readerBuildIndex (some ((Writer.init .staging).run discardRun).core.file.children)
      Reader.init).isOk = false := by decide
  rw [hr] at hrefused
  cases hrefused

/-- The spilled step has been drained by the end of the run. -/
theorem lateDrainRun_readable :
    ((Writer.init .staging).run (lateDrainRun ['b'] ['a'])).core.physicalStep = 4
      ∧ Readable ((Writer.init .staging).run (lateDrainRun ['b'] ['a'])).core
        ((Writer.init .staging).commits (lateDrainRun ['b'] ['a'])) := by
  refine ⟨by decide, committed_readable ?_ ?_ (by decide) (by decide)⟩
  · exact ⟨trivial, trivial, trivial, trivial, rfl, trivial, trivial, trivial, rfl, trivial, trivial, rfl,
      trivial, trivial, rfl, trivial⟩
  · have hpersist : ReplayEnv.quiet.Persists := ⟨rfl, rfl⟩
    exact ⟨trivial, trivial, trivial, trivial, ⟨by decide, hpersist, fun _ => hpersist⟩, trivial, trivial,
      trivial, ⟨by decide, hpersist, fun _ => hpersist⟩, trivial, trivial,
      ⟨by decide, hpersist, fun _ => hpersist⟩, trivial, trivial,
      ⟨by decide, hpersist, fun _ => hpersist⟩, trivial⟩

end VolStream
