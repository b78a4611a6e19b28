import VolStream.Writer.StepGroups

/-!
# The writer's path index over whole runs

The writer indexes entries while it replays them: in replay order, with entries of a failed step
dropped from the end of the lists and entries of a spilled step appended when it is drained. The
reader indexes the same file by scanning the manifests in ascending order.

The two agree, and the lists are strictly ascending, as long as no list is appended to out of
order or twice (`EndIndexOk`): a step indexes a path once, a step replayed ahead of queued steps
shares no indexed path with them, a drain that fails has indexed nothing, and a replay that
succeeds leaves its manifest behind.
-/

namespace VolStream

/-- The paths the manifest of step `n` indexes; none without a manifest. -/
def StepFile.pathsOf (file : StepFile) (n : Nat) : List Path :=
  ((file.manifestOf n).map Step.indexPaths).getD []

/-- Every list is strictly ascending and holds exactly the steps whose manifest carries the
path. -/
structure IndexMatches (idx : PathIndex) (file : StepFile) : Prop where
  ascending : ∀ path, (idx path).steps.Pairwise (· < ·)
  exact : ∀ path n, n ∈ (idx path).steps ↔ path ∈ file.pathsOf n
  nodup : ∀ n, (file.pathsOf n).Nodup

theorem pathsOf_congr {file file' : StepFile} {n : Nat} (h : file'.manifestOps n = file.manifestOps n) :
    file'.pathsOf n = file.pathsOf n := by
  unfold StepFile.pathsOf StepFile.manifestOf
  rw [h]

theorem IndexMatches.congr {idx idx' : PathIndex} {file file' : StepFile} (h : IndexMatches idx file)
    (hsteps : ∀ path, (idx' path).steps = (idx path).steps)
    (hfile : ∀ n, file'.manifestOps n = file.manifestOps n) : IndexMatches idx' file' := by
  refine ⟨fun path => ?_, fun path n => ?_, fun n => ?_⟩
  · rw [hsteps]
    exact h.ascending path
  · rw [hsteps, pathsOf_congr (hfile n)]
    exact h.exact path n
  · rw [pathsOf_congr (hfile n)]
    exact h.nodup n

/-- Appending a step that is after all steps of the paths it carries. -/
theorem IndexMatches.replayed {idx idx' : PathIndex} {file file' : StepFile} {m : Step} {n : Nat}
    (h : IndexMatches idx file) (hfresh : file.manifestOps n = []) (hnodup : m.indexPaths.Nodup)
    (hlast : ∀ path ∈ m.indexPaths, ∀ k ∈ (idx path).steps, k < n)
    (hsteps : ∀ path, (idx' path).steps = (idx path).steps ++ List.replicate (m.indexPaths.count path) n)
    (hfile : ∀ k, file'.manifestOps k = file.manifestOps k ++ if n = k then [some m] else []) :
    IndexMatches idx' file' := by
  have hold : file.pathsOf n = [] := by
    unfold StepFile.pathsOf StepFile.manifestOf
    rw [hfresh]
    rfl
  have hnew : file'.pathsOf n = m.indexPaths := by
    unfold StepFile.pathsOf StepFile.manifestOf
    rw [hfile, hfresh, if_pos rfl]
    rfl
  have hother : ∀ k, n ≠ k → file'.pathsOf k = file.pathsOf k := by
    intro k hk
    refine pathsOf_congr ?_
    rw [hfile, if_neg hk, List.append_nil]
  refine ⟨fun path => ?_, fun path k => ?_, fun k => ?_⟩
  · rw [hsteps, List.pairwise_append]
    refine ⟨h.ascending path, List.pairwise_replicate.mpr (.inl (List.nodup_iff_count_le_one.mp hnodup path)), ?_⟩
    intro a ha b hb
    obtain ⟨hcount, rfl⟩ := List.mem_replicate.mp hb
    exact hlast path (List.count_pos_iff.mp (Nat.pos_of_ne_zero hcount)) a ha
  · rw [hsteps, List.mem_append, List.mem_replicate, h.exact]
    by_cases hk : n = k
    · subst hk
      rw [hold, hnew]
      simp [List.count_eq_zero]
    · rw [hother k hk]
      simp [Ne.symm hk]
  · by_cases hk : n = k
    · rw [← hk, hnew]
      exact hnodup
    · rw [hother k hk]
      exact h.nodup k

/-! ## The invariant -/

/-- A queued step: not yet replayed, and carrying each path once. -/
structure SpillEntry.Waiting (q : SpillEntry) (file : StepFile) (next : Nat) : Prop where
  number : q.manifest.physicalStep = q.physicalStep
  before : q.physicalStep < next
  fresh : file.manifestOps q.physicalStep = []
  nodup : q.manifest.indexPaths.Nodup

/-- The index matches the file, steps from `next` on have no manifest, and the queued steps come
after everything indexed for their paths. -/
structure IndexInv (idx : PathIndex) (file : StepFile) (queue : List SpillEntry) (next : Nat) : Prop where
  matches_file : IndexMatches idx file
  fresh : ∀ n, next ≤ n → file.manifestOps n = []
  waiting : ∀ q ∈ queue, q.Waiting file next
  order : queue.Pairwise fun q q' => q.physicalStep < q'.physicalStep
  behind : ∀ q ∈ queue, ∀ path ∈ q.manifest.indexPaths, ∀ n ∈ (idx path).steps, n < q.physicalStep

theorem IndexInv.congr {idx idx' : PathIndex} {file file' : StepFile} {queue : List SpillEntry} {next : Nat}
    (h : IndexInv idx file queue next) (hsteps : ∀ path, (idx' path).steps = (idx path).steps)
    (hfile : ∀ n, file'.manifestOps n = file.manifestOps n) : IndexInv idx' file' queue next := by
  refine ⟨h.matches_file.congr hsteps hfile, fun n hn => (hfile n).trans (h.fresh n hn), ?_, h.order, ?_⟩
  · intro q hq
    obtain ⟨hnumber, hbefore, hfresh, hnodup⟩ := h.waiting q hq
    exact ⟨hnumber, hbefore, (hfile _).trans hfresh, hnodup⟩
  · intro q hq path hpath n hn
    rw [hsteps] at hn
    exact h.behind q hq path hpath n hn

/-- No step from `next` on is indexed. -/
theorem IndexInv.lt_next {idx : PathIndex} {file : StepFile} {queue : List SpillEntry} {next : Nat}
    (h : IndexInv idx file queue next) {path : Path} {n : Nat} (hn : n ∈ (idx path).steps) : n < next := by
  by_contra hle
  have hpath := (h.matches_file.exact path n).mp hn
  unfold StepFile.pathsOf StepFile.manifestOf at hpath
  rw [h.fresh n (Nat.le_of_not_lt hle)] at hpath
  cases hpath

/-- The number `next` is used up by a step that leaves no manifest. -/
theorem IndexInv.skip {idx : PathIndex} {file : StepFile} {queue : List SpillEntry} {next : Nat}
    (h : IndexInv idx file queue next) : IndexInv idx file queue (next + 1) := by
  refine ⟨h.matches_file, fun n hn => h.fresh n (by omega), fun q hq => ?_, h.order, h.behind⟩
  obtain ⟨hnumber, hbefore, hfresh, hnodup⟩ := h.waiting q hq
  exact ⟨hnumber, by omega, hfresh, hnodup⟩

-- a successful replay leaves a readable manifest
def ReplayEnv.Persists (env : ReplayEnv) : Prop :=
  env.manifestCreateFails = false ∧ env.manifestWriteFails = false

theorem ReplayEnv.Persists.made {env : ReplayEnv} (h : env.Persists) (m : Step) :
    env.manifestMade m = [some m] := by
  unfold ReplayEnv.manifestMade
  rw [h.1, h.2]
  rfl

/-- A replay that succeeds, at a step after those already indexed for its paths. -/
theorem matches_replayManifest {env : ReplayEnv} {args : ReplayArgs} {st st' : Replay}
    (h : IndexMatches st.core.pathIndex st.core.file) (hok : replayManifest env args st = .ok st')
    (hpersist : env.Persists) (hfresh : st.core.file.manifestOps args.manifest.physicalStep = [])
    (hnodup : args.manifest.indexPaths.Nodup)
    (hlast : ∀ path ∈ args.manifest.indexPaths, ∀ k ∈ (st.core.pathIndex path).steps,
      k < args.manifest.physicalStep) :
    IndexMatches st'.core.pathIndex st'.core.file := by
  refine h.replayed hfresh hnodup hlast (fun path => ?_) (fun k => ?_)
  · obtain ⟨c, hsteps, hc⟩ := steps_replayManifest env args st path
    rw [hok] at hsteps hc
    rw [← hc rfl]
    exact hsteps
  · have hmade := manifestOps_replayManifest env args st k
    rw [hok, hpersist.made] at hmade
    simpa using hmade

/-! ## Draining -/

/-- A drain that fails has indexed nothing, one that succeeds leaves its manifest. -/
def DrainIndexOk (env : Nat → DrainEnv) (limit : Nat) : Nat → List SpillEntry → Replay → Prop
  | _, [], _ => True
  | k, q :: qs, st =>
      q.physicalStep ≤ limit → (env k).readFails = false →
        match replayManifest (env k).replay q.args st with
        | .ok st' => (env k).replay.Persists ∧ DrainIndexOk env limit (k + 1) qs st'
        | .fail _ => (env k).replay.startFails
            || FailsUnindexed (env k).replay q.args (replayOrder q.manifest.entries)

theorem drainEntries_index {env : Nat → DrainEnv} {limit k next : Nat} {queue : List SpillEntry}
    {st : Replay} (hok : DrainIndexOk env limit k queue st)
    (hinv : IndexInv st.core.pathIndex st.core.file queue next) :
    let left := drainEntries env limit k queue st
    IndexInv left.2.core.pathIndex left.2.core.file left.1 next := by
  induction queue generalizing k st with
  | nil => exact hinv
  | cons q queue ih =>
    unfold drainEntries
    split
    · exact hinv
    · rename_i hlimit
      split
      · exact hinv
      · rename_i hread
        have hq := hinv.waiting q List.mem_cons_self
        have hstep := hok (Nat.le_of_not_lt hlimit) (by simpa using hread)
        have hmanifest : q.args.manifest = q.manifest := rfl
        cases hreplay : replayManifest (env k).replay q.args st with
        | ok st' =>
          rw [hreplay] at hstep
          obtain ⟨hpersist, hrest⟩ := hstep
          have hmatch := matches_replayManifest hinv.matches_file hreplay hpersist
            (by rw [hmanifest, hq.number]; exact hq.fresh) hq.nodup
            (by rw [hmanifest, hq.number]; exact hinv.behind q List.mem_cons_self)
          have hops : ∀ n, q.physicalStep ≠ n →
              st'.core.file.manifestOps n = st.core.file.manifestOps n := by
            intro n hn
            have := manifestOps_replayManifest (env k).replay q.args st n
            rw [hreplay, hmanifest, hq.number, if_neg (by simp [hn]), List.append_nil] at this
            exact this
          have horder := List.pairwise_cons.mp hinv.order
          refine ih hrest ⟨hmatch, fun n hn => ?_, fun q' hq' => ?_, horder.2, fun q' hq' path hpath n hn => ?_⟩
          · rw [hops n (by have := hq.before; omega)]
            exact hinv.fresh n hn
          · obtain ⟨hnumber, hbefore, hfresh, hnodup⟩ := hinv.waiting q' (List.mem_cons_of_mem _ hq')
            refine ⟨hnumber, hbefore, ?_, hnodup⟩
            rw [hops _ (Nat.ne_of_lt (horder.1 q' hq'))]
            exact hfresh
          · obtain ⟨c, hsteps, -⟩ := steps_replayManifest (env k).replay q.args st path
            rw [hreplay, Outcome.state_ok, hmanifest, hq.number] at hsteps
            rw [hsteps, List.mem_append, List.mem_replicate] at hn
            rcases hn with hn | ⟨-, rfl⟩
            · exact hinv.behind q' (List.mem_cons_of_mem _ hq') path hpath n hn
            · exact horder.1 q' hq'
        | fail st' =>
          rw [hreplay] at hstep
          refine hinv.congr (fun path => ?_) (fun n => ?_)
          · have := steps_replayManifest_unindexed hstep st path
            rw [hreplay] at this
            exact this
          · have := manifestOps_replayManifest (env k).replay q.args st n
            rw [hreplay] at this
            simpa using this

theorem drained_index {env : EndEnv} {st : Replay} {next : Nat}
    (hok : st.core.activePolicy.isSome →
      DrainIndexOk env.drain ((env.lagDrain.getD st.core.physicalStep + st.core.reserveSlots) % 2 ^ 64) 0
        st.core.pendingSpill st)
    (hinv : IndexInv st.core.pathIndex st.core.file st.core.pendingSpill next) :
    IndexInv (drained env st).core.pathIndex (drained env st).core.file
      (drained env st).core.pendingSpill next := by
  unfold drained
  split
  · rename_i hactive
    unfold drainFirst
    split
    · exact drainEntries_index (hok hactive) hinv
    · exact hinv
  · exact hinv

/-! ## Committing a step -/

/-- What a commit leaves: the index of the next step, or one to be rolled back. -/
def CommitIndex (next : Nat) : Outcome Replay → Prop
  | .ok st => IndexInv st.core.pathIndex st.core.file st.core.pendingSpill (next + 1)
  | .fail st => ∃ idx, IndexInv idx st.core.file st.core.pendingSpill next
      ∧ ∀ path, ∃ c, (st.core.pathIndex path).steps = (idx path).steps ++ List.replicate c next

/-- What an immediate replay has to meet if it succeeds: each path indexed once, none that a
queued step indexes, and the manifest left behind. -/
structure ReplayIndexOk (env : ReplayEnv) (fs : Core) : Prop where
  nodup : fs.pendingPaths.Nodup
  apart : ∀ q ∈ fs.pendingSpill, ∀ path ∈ q.manifest.indexPaths, path ∉ fs.pendingPaths
  persists : env.Persists

theorem replayStep_index {build : BuildEnv} {env : ReplayEnv} (st : Replay)
    (hok : (replayStep build env st).isOk → ReplayIndexOk env st.core)
    (hinv : IndexInv st.core.pathIndex st.core.file st.core.pendingSpill st.core.physicalStep) :
    CommitIndex st.core.physicalStep (replayStep build env st) := by
  unfold replayStep at hok ⊢
  cases hbuild : buildManifest build st.core with
  | mk fs res =>
    rw [hbuild] at hok
    obtain ⟨w, hfs, hm⟩ := buildManifest_eq hbuild
    cases res with
    | none =>
      simp only [hfs]
      refine ⟨st.core.pathIndex, hinv, fun path => ⟨0, ?_⟩⟩
      rw [List.replicate_zero, List.append_nil]
    | some m =>
      obtain ⟨hnumber, hpaths⟩ := hm m rfl
      simp only [hfs] at hok ⊢
      -- the state replay starts from
      obtain ⟨st₀, hst₀⟩ : ∃ st₀ : Replay, st₀ = { st with core := { st.core with writeTypeCache := w } } :=
        ⟨_, rfl⟩
      have hargs : (Core.replayArgs { st.core with writeTypeCache := w } m).manifest = m := rfl
      rw [← hst₀] at hok ⊢
      have hinv₀ : IndexInv st₀.core.pathIndex st₀.core.file st.core.pendingSpill st.core.physicalStep := by
        rw [hst₀]
        exact hinv
      have hspill := congrArg Core.pendingSpill
        (frame_replayManifest env (Core.replayArgs { st.core with writeTypeCache := w } m) st₀)
      cases hreplay : replayManifest env (Core.replayArgs { st.core with writeTypeCache := w } m) st₀ with
      | fail st' =>
        rw [hreplay, hst₀] at hspill
        have hqueue : st'.core.pendingSpill = st.core.pendingSpill := hspill
        refine ⟨st₀.core.pathIndex, ?_, fun path => ?_⟩
        · rw [hqueue]
          refine hinv₀.congr (fun _ => rfl) (fun n => ?_)
          have := manifestOps_replayManifest env (Core.replayArgs { st.core with writeTypeCache := w } m) st₀ n
          rw [hreplay] at this
          simpa using this
        · obtain ⟨c, hsteps, -⟩ :=
            steps_replayManifest env (Core.replayArgs { st.core with writeTypeCache := w } m) st₀ path
          rw [hreplay, hargs, hnumber] at hsteps
          exact ⟨c, hsteps⟩
      | ok st' =>
        rw [hreplay] at hspill hok
        obtain ⟨hnodup, hapart, hpersist⟩ := hok rfl
        have hqueue : st'.core.pendingSpill = st.core.pendingSpill := by
          rw [hst₀] at hspill
          exact hspill
        have hmatch := matches_replayManifest hinv₀.matches_file hreplay hpersist
          (by rw [hargs, hnumber]; exact hinv₀.fresh _ (Nat.le_refl _))
          (by rw [hargs, hpaths]; exact hnodup)
          (by rw [hargs, hnumber]; exact fun path _ k hk => hinv₀.lt_next hk)
        have hops : ∀ n, st.core.physicalStep ≠ n →
            st'.core.file.manifestOps n = st₀.core.file.manifestOps n := by
          intro n hn
          have := manifestOps_replayManifest env (Core.replayArgs { st.core with writeTypeCache := w } m) st₀ n
          rw [hreplay, hargs, hnumber, if_neg (by simp [hn]), List.append_nil] at this
          exact this
        refine ⟨hmatch, fun n hn => ?_, fun q hq => ?_, ?_, fun q hq path hpath n hn => ?_⟩
        · rw [hops n (by omega)]
          exact hinv₀.fresh n (by omega)
        · obtain ⟨hqnumber, hbefore, hfresh, hqnodup⟩ := hinv₀.waiting q (hqueue ▸ hq)
          refine ⟨hqnumber, by omega, ?_, hqnodup⟩
          rw [hops _ (by omega)]
          exact hfresh
        · rw [hqueue]
          exact hinv.order
        · obtain ⟨c, hsteps, hc⟩ :=
            steps_replayManifest env (Core.replayArgs { st.core with writeTypeCache := w } m) st₀ path
          rw [hreplay, hargs] at hsteps hc
          -- a queued step's path is not indexed by this one
          have hzero : c = 0 := by
            rw [hc rfl, hpaths, List.count_eq_zero]
            exact hapart q (hqueue ▸ hq) path hpath
          rw [hzero, List.replicate_zero, List.append_nil] at hsteps
          rw [show (st'.core.pathIndex path).steps = (st₀.core.pathIndex path).steps from hsteps] at hn
          exact hinv₀.behind q (hqueue ▸ hq) path hpath n hn

theorem spilled_index {env : EndEnv} {st : Replay}
    (hok : (spilled env st).isOk → st.core.pendingPaths.Nodup)
    (hreplay : (spillStep env.spill st.core).isOk = false → (spilled env st).isOk →
      ReplayIndexOk env.replay st.core)
    (hinv : IndexInv st.core.pathIndex st.core.file st.core.pendingSpill st.core.physicalStep) :
    CommitIndex st.core.physicalStep (spilled env st) := by
  unfold spilled at hok hreplay ⊢
  rcases spillStep_eq env.spill st.core with ⟨file, w, m, h, hnumber, hpaths, rfl⟩ | ⟨file, w, h, hfile⟩
  · rw [h] at hok ⊢
    have hinv' : IndexInv st.core.pathIndex (st.core.file.ensure st.core.physicalStep)
        st.core.pendingSpill st.core.physicalStep :=
      hinv.congr (fun _ => rfl) (fun n => st.core.file.manifestOps_ensure _ n)
    refine ⟨hinv'.matches_file, hinv'.skip.fresh, fun q hq => ?_, ?_, fun q hq path hpath n hn => ?_⟩
    · rcases List.mem_append.mp hq with hq | hq
      · exact hinv'.skip.waiting q hq
      · rw [List.mem_singleton.mp hq]
        exact ⟨hnumber, Nat.lt_succ_self _, hinv'.fresh _ (Nat.le_refl _), by rw [hpaths]; exact hok rfl⟩
    · refine List.pairwise_append.mpr ⟨hinv.order, List.pairwise_singleton _ _, fun q hq q' hq' => ?_⟩
      rw [List.mem_singleton.mp hq']
      exact (hinv.waiting q hq).before
    · rcases List.mem_append.mp hq with hq | hq
      · exact hinv.behind q hq path hpath n hn
      · rw [List.mem_singleton.mp hq]
        exact hinv.lt_next hn
  · rw [h] at hreplay ⊢
    refine replayStep_index { st with core := { st.core with file := file, writeTypeCache := w } }
      (fun hstep => ?_) ?_
    · obtain ⟨hnodup, hapart, hpersist⟩ := hreplay rfl hstep
      exact ⟨hnodup, hapart, hpersist⟩
    · refine hinv.congr (fun _ => rfl) (fun n => ?_)
      rcases hfile with rfl | rfl
      · rfl
      · exact st.core.file.manifestOps_ensure _ n

theorem dropped_index {env : EndEnv} {st : Replay}
    (hinv : IndexInv st.core.pathIndex st.core.file st.core.pendingSpill st.core.physicalStep) :
    CommitIndex st.core.physicalStep (dropped env st) := by
  unfold dropped discardStep
  cases env.discardFails with
  | false => exact (hinv.congr (fun _ => rfl) (fun n => st.core.file.manifestOps_ensure _ n)).skip
  | true =>
    refine ⟨st.core.pathIndex, hinv, fun path => ⟨0, ?_⟩⟩
    rw [List.replicate_zero, List.append_nil]

/-- What an `H5Fend_step` has to meet for the index to stay exact. -/
def EndIndexOk (env : EndEnv) (w : Writer) : Prop :=
  let st : Replay := ⟨w.core.folded env, [], w.lookups⟩
  let st' := drained env st
  (st.core.activePolicy.isSome →
      DrainIndexOk env.drain ((env.lagDrain.getD st.core.physicalStep + st.core.reserveSlots) % 2 ^ 64) 0
        st.core.pendingSpill st)
    ∧ match st.core.fate env.lag with
      | .drop => True
      | .replay => (replayStep env.build env.replay st').isOk → ReplayIndexOk env.replay st'.core
      | .spill => ((spilled env st').isOk → st'.core.pendingPaths.Nodup)
          ∧ ((spillStep env.spill st'.core).isOk = false → (spilled env st').isOk →
              ReplayIndexOk env.replay st'.core)

def IndexOkAt (w : Writer) : Event → Prop
  | .endStep env => w.core.stepState = .inStep → EndIndexOk env w
  | _ => True

theorem applyQueuePolicy_index {env : EndEnv} {w : Writer} (hok : EndIndexOk env w)
    (hinv : IndexInv w.core.pathIndex w.core.file w.core.pendingSpill w.core.physicalStep) :
    CommitIndex w.core.physicalStep (applyQueuePolicy env ⟨w.core.folded env, [], w.lookups⟩) := by
  obtain ⟨pending, bytes, hfold⟩ := folded_eq w.core env
  have hst : IndexInv (w.core.folded env).pathIndex (w.core.folded env).file
      (w.core.folded env).pendingSpill w.core.physicalStep := by
    rw [hfold]
    exact hinv
  obtain ⟨hdrain, hfate⟩ := hok
  have hdrained := drained_index hdrain hst
  have hnext : (drained env ⟨w.core.folded env, [], w.lookups⟩).core.physicalStep = w.core.physicalStep := by
    have hframe := congrArg Core.physicalStep (drainFrame_drained env ⟨w.core.folded env, [], w.lookups⟩)
    rw [hfold] at hframe ⊢
    exact hframe
  rw [← hnext] at hdrained ⊢
  rw [applyQueuePolicy_eq]
  cases hf : (w.core.folded env).fate env.lag with
  | replay =>
    rw [hf] at hfate
    exact replayStep_index _ hfate hdrained
  | drop => exact dropped_index hdrained
  | spill =>
    rw [hf] at hfate
    exact spilled_index hfate.1 hfate.2 hdrained

theorem endStep_index {env : EndEnv} {w : Writer} (hok : w.core.stepState = .inStep → EndIndexOk env w)
    (hinv : IndexInv w.core.pathIndex w.core.file w.core.pendingSpill w.core.physicalStep) :
    let fs := (endStep env w).state.core
    IndexInv fs.pathIndex fs.file fs.pendingSpill fs.physicalStep := by
  unfold endStep
  by_cases hstep : w.core.stepState = .inStep
  · rw [if_neg (not_not_intro hstep)]
    have hcommit := applyQueuePolicy_index (hok hstep) hinv
    have hnumber : (applyQueuePolicy env ⟨w.core.folded env, [], w.lookups⟩).state.core.physicalStep
        = w.core.physicalStep := by
      have hframe := congrArg Core.physicalStep
        (policyFrame_applyQueuePolicy env ⟨w.core.folded env, [], w.lookups⟩)
      obtain ⟨pending, bytes, hfold⟩ := folded_eq w.core env
      rw [hfold] at hframe ⊢
      exact hframe
    simp only
    cases happly : applyQueuePolicy env ⟨w.core.folded env, [], w.lookups⟩ with
    | ok st =>
      rw [happly] at hcommit hnumber
      rw [Outcome.state_ok] at hnumber
      simp only [Outcome.state_ok, hnumber]
      exact hcommit
    | fail st =>
      rw [happly] at hcommit hnumber
      rw [Outcome.state_fail] at hnumber
      obtain ⟨idx, hidx, hsteps⟩ := hcommit
      simp only [Outcome.state_fail, Core.dropStep, Core.discardPending, hnumber]
      refine hidx.congr (fun path => ?_) (fun n => ?_)
      · obtain ⟨c, hc⟩ := hsteps path
        show dropTail w.core.physicalStep (st.core.pathIndex path).steps = (idx path).steps
        rw [hc]
        exact dropTail_append_replicate (fun hmem => Nat.lt_irrefl _ (hidx.lt_next hmem)) c
      · split
        · rfl
        · rw [StepFile.manifestOps_unlink]
          split
          · rename_i hn
            exact (hidx.fresh n (Nat.le_of_eq hn)).symm
          · rfl
  · rw [if_pos hstep]
    exact hinv

theorem apply_index {w : Writer} {ev : Event}
    (hinv : IndexInv w.core.pathIndex w.core.file w.core.pendingSpill w.core.physicalStep)
    (hok : IndexOkAt w ev) :
    let fs := (w.apply ev).state.core
    IndexInv fs.pathIndex fs.file fs.pendingSpill fs.physicalStep := by
  by_cases hev : ∃ env, ev = .endStep env
  · obtain ⟨env, rfl⟩ := hev
    exact endStep_index hok hinv
  · have hcore := (committed_apply w (fun env h => hev ⟨env, h⟩)).1
    have hindex := congrArg Core.pathIndex hcore
    have hfile := congrArg Core.file hcore
    have hspill := congrArg Core.pendingSpill hcore
    have hnumber := congrArg Core.physicalStep hcore
    simp only [Core.committed] at hindex hfile hspill hnumber
    simp only [hindex, hfile, hspill, hnumber]
    exact hinv

/-! ## The two indexes agree -/

/-- The writer's index is exact, strictly ascending, what a reader builds from the file, and
resolves a path to the last step not after the current one. -/
structure Core.IndexExact (fs : Core) : Prop where
  ascending : ∀ path, (fs.pathIndex path).steps.Pairwise (· < ·)
  exact : ∀ path n, n ∈ (fs.pathIndex path).steps ↔
    ∃ m, fs.file.manifestOf n = some m ∧ path ∈ m.indexPaths
  scanned : ∀ path, (fs.pathIndex path).steps
    = ((indexSteps fs.file.children (List.range fs.physicalStep) Reader.init).pathIndex path).steps
  resolves : ∀ path k n, pathIndexResolve fs.pathIndex path k = some n ↔
    IsGreatest {n | (∃ m, fs.file.manifestOf n = some m ∧ path ∈ m.indexPaths) ∧ n ≤ k} n

theorem mem_pathsOf (file : StepFile) (path : Path) (n : Nat) :
    path ∈ file.pathsOf n ↔ ∃ m, file.manifestOf n = some m ∧ path ∈ m.indexPaths := by
  unfold StepFile.pathsOf
  cases file.manifestOf n with
  | none => simp
  | some m => simp

theorem IndexInv.exact {fs : Core}
    (h : IndexInv fs.pathIndex fs.file fs.pendingSpill fs.physicalStep) : fs.IndexExact := by
  have hexact : ∀ path n, n ∈ (fs.pathIndex path).steps ↔
      ∃ m, fs.file.manifestOf n = some m ∧ path ∈ m.indexPaths :=
    fun path n => (h.matches_file.exact path n).trans (mem_pathsOf fs.file path n)
  refine ⟨h.matches_file.ascending, hexact, fun path => ?_, fun path k n => ?_⟩
  · have hpaths : ∀ n, stepPaths fs.file.children n = fs.file.pathsOf n := stepPaths_children fs.file
    have hcount : ∀ n, (stepPaths fs.file.children n).count path ≤ 1 := by
      intro n
      rw [hpaths]
      exact List.nodup_iff_count_le_one.mp (h.matches_file.nodup n) path
    have hempty : (Reader.init.pathIndex path).steps = [] := rfl
    rw [steps_indexSteps, hempty, List.nil_append]
    refine (h.matches_file.ascending path).eq_of_mem_iff (strictly_sorted_scan hcount _) (fun n => ?_)
    rw [mem_scan, hpaths, h.matches_file.exact, ← List.count_pos_iff,
      Nat.pos_iff_ne_zero]
    constructor
    · intro hn
      refine ⟨h.lt_next ((h.matches_file.exact path n).mpr ?_), hn⟩
      exact List.count_pos_iff.mp (Nat.pos_of_ne_zero hn)
    · exact fun hn => hn.2
  · rw [pathIndexResolve_eq_some_iff ((h.matches_file.ascending path).imp Nat.le_of_lt)]
    simp only [hexact]

/-- In every run whose commits keep the lists in order, the writer's index is the reader's. -/
theorem writerIndex_exact {config : Config} {events : List Event}
    (hok : (Writer.init config).Meets IndexOkAt events) :
    ((Writer.init config).run events).core.IndexExact := by
  have hinit : IndexInv (Core.init config).pathIndex (Core.init config).file
      (Core.init config).pendingSpill (Core.init config).physicalStep := by
    refine ⟨⟨fun _ => List.Pairwise.nil, fun path n => ?_, fun _ => List.nodup_nil⟩, fun _ _ => rfl,
      List.forall_mem_nil _, List.Pairwise.nil, List.forall_mem_nil _⟩
    exact iff_of_false List.not_mem_nil List.not_mem_nil
  have hinv := Writer.run_keeps
    (P := fun w => IndexInv w.core.pathIndex w.core.file w.core.pendingSpill w.core.physicalStep)
    (fun w ev hw hev => apply_index hw hev) hinit hok
  exact hinv.exact

/-! ### A spilled step drained after a newer one -/

-- a tracked reader has acknowledged step 0 only
def EndEnv.lagging : EndEnv := { EndEnv.quiet with lagDrain := some 0, lag := some 0 }

def Config.staging : Config := ⟨true, true, false, 0⟩

/-- Step 1 is spilled; step 2 holds an open placeholder and is replayed at once; step 1 is drained
when step 3 finds no reader behind. Steps 1 and 2 create the datasets named. -/
def lateDrainRun (spilledName aheadName : Path) : List Event :=
  [.setQueuePolicy .spill 0,
    .beginStep [] 0, createByte 0 ['a'], .closeHandle 0, .endStep .lagging,
    .beginStep [] 1, createByte 1 spilledName, .closeHandle 1, .endStep .lagging,
    .beginStep [] 2, createByte 2 aheadName, .endStep .lagging,
    .beginStep [] 3, createByte 3 ['c'], .endStep .quiet]

/-- `/a` is listed at steps 0, 2, 1: the scan from the end answers 1 for step 2. -/
theorem lateDrainRun_not_exact :
    ¬ ∀ config events, ((Writer.init config).run events).core.IndexExact := by
  intro h
  have hascending := (h .staging (lateDrainRun ['a'] ['a'])).ascending ['/', 'a']
  have hsteps : (((Writer.init .staging).run (lateDrainRun ['a'] ['a'])).core.pathIndex ['/', 'a']).steps
      = [0, 2, 1] := by decide
  rw [hsteps] at hascending
  exact absurd hascending (by decide)

theorem lateDrainRun_exact :
    (((Writer.init .staging).run (lateDrainRun ['b'] ['a'])).core.pathIndex ['/', 'a']).steps = [0, 2]
      ∧ ((Writer.init .staging).run (lateDrainRun ['b'] ['a'])).core.IndexExact := by
  refine ⟨by decide, writerIndex_exact ?_⟩
  refine ⟨trivial, trivial, trivial, trivial, ?_, trivial, trivial, trivial, ?_, trivial, trivial, ?_,
    trivial, trivial, ?_, trivial⟩
  · exact fun _ => ⟨fun _ => trivial, fun _ => ⟨by decide, by decide, rfl, rfl⟩⟩
  · exact fun _ => ⟨fun _ => trivial, fun _ => by decide, fun h => absurd h (by decide)⟩
  · exact fun _ => ⟨fun _ h => absurd h (by decide), fun _ => ⟨by decide, by decide, rfl, rfl⟩⟩
  · exact fun _ => ⟨fun _ _ _ => ⟨⟨rfl, rfl⟩, trivial⟩, fun _ => ⟨by decide, by decide, rfl, rfl⟩⟩

end VolStream
