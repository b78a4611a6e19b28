import VolStream.Overlay.View

/-!
# The rows of the overlay over whole runs

A row is made once, from the index of its step. It stays true as long as no step is put in the file before it later:
a spilled step that is drained after the row was made, with a copy of the dataset, belongs in rows that already show an
older one. A frame is taken from the step whose extent has it first; that is the step that writes it when every step
writes all the frames it adds.
-/

namespace VolStream

/-! ## What a step adds to the file -/

/-- Calls were added to the groups of the file, each of a given origin. -/
def StepFile.Extended (origin : Nat → FileOp → Prop) (file file' : StepFile) : Prop :=
  ∀ k, ∃ ops, file'.ops k = file.ops k ++ ops ∧ ∀ op ∈ ops, origin k op

section Extended

variable {origin origin' : Nat → FileOp → Prop} {file file' file'' : StepFile}

theorem StepFile.Extended.refl (origin : Nat → FileOp → Prop) (file : StepFile) : file.Extended origin file :=
  fun _ => ⟨[], (List.append_nil _).symm, List.forall_mem_nil _⟩

theorem StepFile.Extended.trans (h : file.Extended origin file') (h' : file'.Extended origin file'') :
    file.Extended origin file'' := by
  intro k
  obtain ⟨ops, heq, hops⟩ := h k
  obtain ⟨ops', heq', hops'⟩ := h' k
  refine ⟨ops ++ ops', by rw [heq', heq, List.append_assoc], fun op hop => ?_⟩
  rcases List.mem_append.mp hop with hop | hop
  · exact hops op hop
  · exact hops' op hop

theorem StepFile.Extended.mono (h : file.Extended origin file') (himp : ∀ k op, origin k op → origin' k op) :
    file.Extended origin' file' := by
  intro k
  obtain ⟨ops, heq, hops⟩ := h k
  exact ⟨ops, heq, fun op hop => himp k op (hops op hop)⟩

theorem StepFile.extended_appendAll {n : Nat} {ops : List FileOp} (h : ∀ op ∈ ops, origin n op) (file : StepFile) :
    file.Extended origin (file.appendAll n ops) := by
  intro k
  rw [StepFile.ops_appendAll]
  by_cases hk : n = k
  · subst hk
    rw [if_pos rfl]
    exact ⟨ops, rfl, h⟩
  · rw [if_neg hk]
    exact ⟨[], (List.append_nil _).symm, List.forall_mem_nil _⟩

theorem StepFile.extended_ensure (origin : Nat → FileOp → Prop) (file : StepFile) (n : Nat) :
    file.Extended origin (file.ensure n) := by
  intro k
  rw [StepFile.ops_ensure]
  exact ⟨[], (List.append_nil _).symm, List.forall_mem_nil _⟩

/-- A step's manifest stays, and a new one is of the given origin. -/
theorem StepFile.Extended.manifestOf (h : file.Extended origin file') (k : Nat) :
    file'.manifestOf k = file.manifestOf k ∨
      (file.manifestOf k = none ∧ ∃ m, file'.manifestOf k = some m ∧ origin k (.manifest (some m))) := by
  obtain ⟨ops, heq, hops⟩ := h k
  have hmanifests : file'.manifestOps k = file.manifestOps k ++ ops.filterMap FileOp.manifestContent := by
    unfold StepFile.manifestOps
    rw [heq, List.filterMap_append]
  unfold StepFile.manifestOf
  rw [hmanifests]
  cases hold : file.manifestOps k with
  | cons content rest => exact .inl rfl
  | nil =>
    rw [List.nil_append]
    cases hnew : (ops.filterMap FileOp.manifestContent).head?.join with
    | none => exact .inl rfl
    | some m =>
      refine .inr ⟨rfl, m, rfl, ?_⟩
      have hmem : some m ∈ ops.filterMap FileOp.manifestContent :=
        List.mem_of_mem_head? (Option.join_eq_some_iff.mp hnew)
      obtain ⟨op, hop, hcontent⟩ := List.mem_filterMap.mp hmem
      have hop' := hops op hop
      cases op with
      | manifest content =>
        have hcontent' : content = some m := Option.some.inj hcontent
        rw [hcontent'] at hop'
        exact hop'
      | _ => cases hcontent

end Extended

/-- What a call of a replay tells about the manifest that is replayed. -/
def FileOp.Within (m : Step) : FileOp → Prop
  | .manifest content => content = none ∨ content = some m
  | .datasetCreate path _ space _ => ⟨.dsetCreate, path, space⟩ ∈ m.entries.map Entry.shape
  | _ => True

theorem FileOp.Of.within {n : Nat} {idx : PathIndex} {payload : Payload} {m : Step} {e : Entry} {op : FileOp}
    (h : FileOp.Of n idx payload e op) (he : e ∈ m.entries) : op.Within m := by
  cases h with
  | datasetCreate t hk =>
    refine List.mem_map.mpr ⟨e, he, ?_⟩
    unfold Entry.shape
    rw [hk]
  | _ => trivial

theorem within_closing (env : ReplayEnv) (config : Config) (m : Step) : ∀ op ∈ env.closing config m, op.Within m := by
  intro op hop
  unfold ReplayEnv.closing at hop
  rcases List.mem_append.mp hop with hop | hop
  · split at hop
    · cases hop
    · rw [List.mem_singleton.mp hop]
      show _ = none ∨ _ = some m
      split
      · exact .inl rfl
      · exact .inr rfl
  · split at hop
    · rw [List.mem_singleton.mp hop]
      trivial
    · cases hop

theorem logged_carryForward (env : ReplayEnv) (m : Step) (st : Replay) :
    st.Logged m.physicalStep (FileOp.Within m) (carryForwardResized env m st) := by
  unfold carryForwardResized
  refine List.foldlRecOn (motive := st.Logged m.physicalStep (FileOp.Within m)) _ _ (.refl _ _ st) ?_
  intro s hs ie _
  refine Replay.Logged.trans hs ?_
  unfold carryForwardOne
  split
  · exact .refl _ _ s
  · split
    · split
      · exact .refl _ _ s
      · exact s.logged_logOp trivial
    · exact .refl _ _ s

/-- The calls of a replay. -/
def Replays (m : Step) (k : Nat) (op : FileOp) : Prop := m.physicalStep = k ∧ op.Within m

theorem replayManifest_extended (env : ReplayEnv) (args : ReplayArgs) (st : Replay) :
    st.core.file.Extended (Replays args.manifest) (replayManifest env args st).state.core.file := by
  have hloop : st.core.file.Extended (Replays args.manifest)
      (Outcome.runAll (replayEntry env args) (replayOrder args.manifest.entries) st).state.core.file := by
    refine Outcome.state_runAll (P := fun s : Replay => st.core.file.Extended (Replays args.manifest) s.core.file)
      (fun ie hie s hs => hs.trans ?_) (.refl _ _)
    obtain ⟨ops, hops, hfile⟩ := replayEntry_ops env args ie s
    rw [hfile]
    exact StepFile.extended_appendAll (fun op hop => ⟨rfl, (hops op hop).within (mem_replayOrder hie)⟩) _
  unfold replayManifest
  split
  · exact .refl _ _
  · cases hrun : Outcome.runAll (replayEntry env args) (replayOrder args.manifest.entries) st with
    | fail s =>
      rw [hrun] at hloop
      exact hloop
    | ok s =>
      rw [hrun] at hloop
      rw [Outcome.bind_ok, persist_eq]
      obtain ⟨ops, hops, hcarry, -⟩ := logged_carryForward env args.manifest s
      have hcarried : st.core.file.Extended (Replays args.manifest)
          (carryForwardResized env args.manifest s).core.file := by
        rw [hcarry]
        exact hloop.trans (StepFile.extended_appendAll (fun op hop => ⟨rfl, hops op hop⟩) _)
      split
      · exact hcarried
      · refine (hcarried.trans (StepFile.extended_ensure _ _ _)).trans (StepFile.extended_appendAll ?_ _)
        exact fun op hop => ⟨rfl, within_closing env _ args.manifest op hop⟩

/-- The calls of the drain: those of queued steps. -/
theorem drainEntries_extended (env : Nat → DrainEnv) (limit k : Nat) (queue : List SpillEntry) (st : Replay) :
    st.core.file.Extended (fun k op => ∃ q ∈ queue, Replays q.manifest k op)
      (drainEntries env limit k queue st).2.core.file := by
  induction queue generalizing k st with
  | nil => exact .refl _ _
  | cons q queue ih =>
    unfold drainEntries
    split
    · exact .refl _ _
    · split
      · exact .refl _ _
      · have hreplay : st.core.file.Extended (fun k op => ∃ q' ∈ q :: queue, Replays q'.manifest k op)
            (replayManifest (env k).replay q.args st).state.core.file :=
          (replayManifest_extended (env k).replay q.args st).mono fun k op hop => ⟨q, List.mem_cons_self, hop⟩
        cases hr : replayManifest (env k).replay q.args st with
        | fail st' =>
          rw [hr] at hreplay
          exact hreplay
        | ok st' =>
          rw [hr] at hreplay
          refine hreplay.trans ((ih (k + 1) st').mono fun k op hop => ?_)
          obtain ⟨q', hq', hop⟩ := hop
          exact ⟨q', List.mem_cons_of_mem _ hq', hop⟩

theorem drained_extended (env : EndEnv) (st : Replay) :
    st.core.file.Extended (fun k op => ∃ q ∈ st.core.pendingSpill, Replays q.manifest k op)
      (drained env st).core.file := by
  unfold drained
  split
  · unfold drainFirst
    split
    · exact drainEntries_extended env.drain _ 0 st.core.pendingSpill st
    · exact .refl _ _
  · exact .refl _ _

/-- The calls of the step's own replay. -/
def Captures (shapes : List Shape) (n k : Nat) (op : FileOp) : Prop :=
  k = n ∧ ∃ m, m.entries.map Entry.shape = shapes ∧ op.Within m

theorem replayStep_extended (build : BuildEnv) (env : ReplayEnv) (st : Replay) :
    st.core.file.Extended (Captures (st.core.pending.map PendingEntry.shape) st.core.physicalStep)
      (replayStep build env st).state.core.file := by
  unfold replayStep
  cases hbuild : buildManifest build st.core with
  | mk fs res =>
    obtain ⟨w, hfs, hm⟩ := buildManifest_eq hbuild
    cases res with
    | none =>
      simp only [hfs]
      exact .refl _ _
    | some m =>
      have hshapes := shapes_buildManifest (by rw [hbuild] : (buildManifest build st.core).2 = some m)
      have hreplay := replayManifest_extended env (fs.replayArgs m) { st with core := fs }
      rw [hfs] at hreplay ⊢
      refine hreplay.mono fun k op hop => ?_
      exact ⟨hop.1.symm.trans (hm m rfl).1, m, hshapes, hop.2⟩

/-- Whether `H5Fend_step` replays the step, rather than drop or spill it. -/
def Writer.replays (env : EndEnv) (w : Writer) : Bool :=
  match (w.core.folded env).fate env.lag with
  | .replay => true
  | .drop => false
  | .spill => !(spillStep env.spill (drained env ⟨w.core.folded env, [], w.lookups⟩).core).isOk

/-- The calls of a commit: of the steps drained, and of this one if it is replayed. -/
def Commits (env : EndEnv) (w : Writer) (k : Nat) (op : FileOp) : Prop :=
  (∃ q ∈ w.core.pendingSpill, Replays q.manifest k op) ∨
    (w.replays env = true ∧ Captures ((w.core.folded env).pending.map PendingEntry.shape) w.core.physicalStep k op)

theorem drained_frame (env : EndEnv) (st : Replay) :
    (drained env st).core.physicalStep = st.core.physicalStep ∧ (drained env st).core.pending = st.core.pending := by
  have hnumber := congrArg Core.physicalStep (drainFrame_drained env st)
  have hpending := congrArg Core.pending (drainFrame_drained env st)
  exact ⟨hnumber, hpending⟩

theorem applyQueuePolicy_extended (env : EndEnv) (w : Writer) :
    w.core.file.Extended (Commits env w)
      (applyQueuePolicy env ⟨w.core.folded env, [], w.lookups⟩).state.core.file := by
  obtain ⟨pending, bytes, hfold⟩ := folded_eq w.core env
  obtain ⟨hnumber, hpending⟩ := drained_frame env ⟨w.core.folded env, [], w.lookups⟩
  have hn : (drained env ⟨w.core.folded env, [], w.lookups⟩).core.physicalStep = w.core.physicalStep := by
    rw [hnumber, hfold]
  have hdrained : w.core.file.Extended (Commits env w) (drained env ⟨w.core.folded env, [], w.lookups⟩).core.file := by
    have hdrain := drained_extended env ⟨w.core.folded env, [], w.lookups⟩
    have hqueue : (w.core.folded env).pendingSpill = w.core.pendingSpill := by rw [hfold]
    have hfile : (w.core.folded env).file = w.core.file := by rw [hfold]
    simp only [hqueue, hfile] at hdrain
    exact hdrain.mono fun k op hop => .inl hop
  -- a replay of this step, wherever it is called from
  have hreplay : w.replays env = true → ∀ st : Replay, st.core.pending = (w.core.folded env).pending →
      st.core.physicalStep = w.core.physicalStep →
      st.core.file.Extended (Commits env w) (replayStep env.build env.replay st).state.core.file := by
    intro hreplays st hpend hstep
    refine (replayStep_extended env.build env.replay st).mono fun k op hop => .inr ⟨hreplays, ?_⟩
    rw [hpend, hstep] at hop
    exact hop
  rw [applyQueuePolicy_eq]
  refine hdrained.trans ?_
  cases hfate : (w.core.folded env).fate env.lag with
  | replay =>
    refine hreplay ?_ _ hpending hn
    unfold Writer.replays
    rw [hfate]
  | drop =>
    simp only [dropped, discardStep]
    cases env.discardFails with
    | true => exact .refl _ _
    | false => exact StepFile.extended_ensure _ _ _
  | spill =>
    simp only [spilled]
    rcases spillStep_eq env.spill (drained env ⟨w.core.folded env, [], w.lookups⟩).core with
      ⟨file, cache, m, h, -, -, rfl⟩ | ⟨file, cache, h, hfile⟩
    · rw [h]
      exact StepFile.extended_ensure _ _ _
    · have hreplays : w.replays env = true := by
        unfold Writer.replays
        rw [hfate, h]
        rfl
      rw [h]
      have hspilled : (drained env ⟨w.core.folded env, [], w.lookups⟩).core.file.Extended (Commits env w) file := by
        rcases hfile with rfl | rfl
        · exact .refl _ _
        · exact StepFile.extended_ensure _ _ _
      exact hspilled.trans (hreplay hreplays ⟨{ (drained env ⟨w.core.folded env, [], w.lookups⟩).core with
        file := file, writeTypeCache := cache }, _, _⟩ hpending hn)

/-- A queued step was queued before, or is this one, spilled. -/
theorem mem_pendingSpill_endStep (env : EndEnv) {w : Writer} (hstep : w.core.stepState = .inStep) {q : SpillEntry}
    (hq : q ∈ (endStep env w).state.core.pendingSpill) :
    q ∈ w.core.pendingSpill ∨
      ((w.core.folded env).fate env.lag = .spill ∧ w.replays env = false ∧
        q.manifest.indexPaths = (w.core.folded env).pendingPaths) := by
  obtain ⟨pending, bytes, hfold⟩ := folded_eq w.core env
  have hsuffix := (workedIn_drained (fun _ => True) env ⟨w.core.folded env, [], w.lookups⟩ fun _ _ => trivial).2
  have hqueue : (w.core.folded env).pendingSpill = w.core.pendingSpill := by rw [hfold]
  have hpending := (drained_frame env ⟨w.core.folded env, [], w.lookups⟩).2
  simp only [hqueue] at hsuffix
  have hpolicy : q ∈ (applyQueuePolicy env ⟨w.core.folded env, [], w.lookups⟩).state.core.pendingSpill := by
    unfold endStep at hq
    rw [if_neg (not_not_intro hstep)] at hq
    simp only at hq
    cases happly : applyQueuePolicy env ⟨w.core.folded env, [], w.lookups⟩ with
    | ok st =>
      rw [happly] at hq
      exact hq
    | fail st =>
      rw [happly] at hq
      exact hq
  rw [applyQueuePolicy_eq] at hpolicy
  cases hfate : (w.core.folded env).fate env.lag with
  | replay =>
    rw [hfate] at hpolicy
    simp only [pendingSpill_replayStep] at hpolicy
    exact .inl (hsuffix.subset hpolicy)
  | drop =>
    rw [hfate] at hpolicy
    simp only [dropped, discardStep] at hpolicy
    refine .inl (hsuffix.subset ?_)
    cases hfails : env.discardFails with
    | true =>
      rw [hfails] at hpolicy
      exact hpolicy
    | false =>
      rw [hfails] at hpolicy
      exact hpolicy
  | spill =>
    rw [hfate] at hpolicy
    simp only [spilled] at hpolicy
    rcases spillStep_eq env.spill (drained env ⟨w.core.folded env, [], w.lookups⟩).core with
      ⟨file, cache, m, h, -, hpaths, -⟩ | ⟨file, cache, h, -⟩
    · rw [h] at hpolicy
      rcases List.mem_append.mp hpolicy with hq' | hq'
      · exact .inl (hsuffix.subset hq')
      · refine .inr ⟨rfl, ?_, ?_⟩
        · unfold Writer.replays
          rw [hfate, h]
          rfl
        · rw [List.mem_singleton.mp hq', hpaths]
          unfold Core.pendingPaths
          rw [hpending]
    · rw [h] at hpolicy
      simp only [pendingSpill_replayStep] at hpolicy
      exact .inl (hsuffix.subset hpolicy)

/-- A path once known for a link stays one. -/
theorem isLink_replayManifest (env : ReplayEnv) (args : ReplayArgs) {st : Replay} {path : Path}
    (h : (st.core.pathIndex path).isLink = true) :
    ((replayManifest env args st).state.core.pathIndex path).isLink = true := by
  refine state_replayManifest (P := fun s : Replay => (s.core.pathIndex path).isLink = true) h ?_ ?_
  · intro ie s hs
    rcases replayEntry_core env args ie s with ⟨h, -⟩ | ⟨r, ops, links, -, -, -, h⟩
    · rw [h]
      exact hs
    · rw [h]
      show (indexEntry s.core.pathIndex _ ie.2.kind ie.2.path path).isLink = true
      unfold indexEntry pathIndexMarkLink pathIndexAdd
      by_cases hpath : path = ie.2.path
      · subst hpath
        cases ie.2.kind <;> simp [Kind.indexed, hs]
      · cases ie.2.kind <;> simp [Kind.indexed, Function.update_of_ne hpath, hs]
  · intro s s' file links _ hcore hs
    rw [hcore]
    exact hs

theorem isLink_drained (env : EndEnv) {st : Replay} {path : Path} (h : (st.core.pathIndex path).isLink = true) :
    ((drained env st).core.pathIndex path).isLink = true := by
  have hentries : ∀ limit queue k (st : Replay), (st.core.pathIndex path).isLink = true →
      ((drainEntries env.drain limit k queue st).2.core.pathIndex path).isLink = true := by
    intro limit queue
    induction queue with
    | nil => exact fun _ _ h => h
    | cons q queue ih =>
      intro k st h
      unfold drainEntries
      split
      · exact h
      · split
        · exact h
        · have hreplay := isLink_replayManifest (env.drain k).replay q.args h
          cases hr : replayManifest (env.drain k).replay q.args st with
          | fail st' =>
            rw [hr] at hreplay
            exact hreplay
          | ok st' =>
            rw [hr] at hreplay
            exact ih (k + 1) st' hreplay
  unfold drained
  split
  · unfold drainFirst
    split
    · exact hentries _ _ _ st h
    · exact h
  · exact h

theorem isLink_replayStep (build : BuildEnv) (env : ReplayEnv) {st : Replay} {path : Path}
    (h : (st.core.pathIndex path).isLink = true) :
    ((replayStep build env st).state.core.pathIndex path).isLink = true := by
  unfold replayStep
  cases hbuild : buildManifest build st.core with
  | mk fs res =>
    obtain ⟨w, hfs, -⟩ := buildManifest_eq hbuild
    cases res with
    | none =>
      simp only [hfs]
      exact h
    | some m =>
      simp only
      refine isLink_replayManifest env (fs.replayArgs m) ?_
      rw [hfs]
      exact h

theorem isLink_endStep {env : EndEnv} {w w' : Writer} (hok : endStep env w = .ok w') {path : Path}
    (h : (w.core.pathIndex path).isLink = true) : (w'.core.pathIndex path).isLink = true := by
  obtain ⟨pending, bytes, hfold⟩ := folded_eq w.core env
  have hdrained : ((drained env ⟨w.core.folded env, [], w.lookups⟩).core.pathIndex path).isLink = true :=
    isLink_drained env (by rw [hfold]; exact h)
  have hpolicy : ((applyQueuePolicy env ⟨w.core.folded env, [], w.lookups⟩).state.core.pathIndex path).isLink = true := by
    rw [applyQueuePolicy_eq]
    cases (w.core.folded env).fate env.lag with
    | replay => exact isLink_replayStep _ _ hdrained
    | drop =>
      simp only [dropped, discardStep]
      cases env.discardFails with
      | true => exact hdrained
      | false => exact hdrained
    | spill =>
      simp only [spilled]
      rcases spillStep_eq env.spill (drained env ⟨w.core.folded env, [], w.lookups⟩).core with
        ⟨file, cache, m, h, -⟩ | ⟨file, cache, h, -⟩
      · rw [h]
        exact hdrained
      · rw [h]
        exact isLink_replayStep _ _ hdrained
  unfold endStep at hok
  split at hok
  · cases hok
  · simp only at hok
    cases happly : applyQueuePolicy env ⟨w.core.folded env, [], w.lookups⟩ with
    | ok st =>
      rw [happly] at hok hpolicy
      cases hok
      exact hpolicy
    | fail st =>
      rw [happly] at hok
      cases hok

/-! ## The invariant -/

/-- There is something of the dataset in the view, or there will be. -/
def OverlayEntry.Shows (e : OverlayEntry) : Prop := e.dead = false ∨ e.rows ≠ []

/-- An entry of the overlay before step `next` has its row: no queued step can still change its rows, and those it has
are true. -/
structure OverlayEntry.Kept (e : OverlayEntry) (file : StepFile) (queue : List SpillEntry) (next : Nat) : Prop where
  first : e.firstStep ≤ next
  apart : e.Shows → ∀ q ∈ queue, e.path ∉ q.manifest.indexPaths
  indexed : e.dead = false → e.path ∈ file.pathsOf e.firstStep
  row : e.growing = false → ∀ j r, e.rows.find? j = some r → e.firstStep + j < next ∧
    IsGreatest {n | e.path ∈ file.pathsOf n ∧ n ≤ e.firstStep + j} r
  rowAt : e.growing = false → e.dead = false → ∀ j, e.firstStep + j < next → (e.rows.find? j).isSome
  frame : e.growing = true → ∀ k n, e.rows.find? k = some n → n < next ∧ IsLeast {n | file.Covers n e.path k} n
  seen : e.growing = true → e.dead = false → ∀ n < next, ∀ m, file.manifestOf n = some m → ∀ space,
    ⟨.dsetCreate, e.path, space⟩ ∈ m.entries.map Entry.shape → space.extent.dims.headD 0 ≤ e.frames

/-- The manifests before step `n` stay, and those added are of queued steps. -/
def Carried (queue : List SpillEntry) (n : Nat) (file file' : StepFile) : Prop :=
  ∀ k < n, file'.manifestOf k = file.manifestOf k ∨
    (file.manifestOf k = none ∧ ∃ q ∈ queue, file'.manifestOf k = some q.manifest)

theorem mem_indexPaths_of_shape {m : Step} {path : Path} {space : Dataspace}
    (h : ⟨.dsetCreate, path, space⟩ ∈ m.entries.map Entry.shape) : path ∈ m.indexPaths := by
  obtain ⟨e, he, hshape⟩ := List.mem_map.mp h
  have hkind : e.kind = .dsetCreate := congrArg Shape.kind hshape
  have hpath : e.path = path := congrArg Shape.path hshape
  unfold Step.indexPaths indexPaths
  refine List.mem_map.mpr ⟨e.key, List.mem_filter.mpr ⟨List.mem_map.mpr ⟨e, he, rfl⟩, ?_⟩, hpath⟩
  show e.kind.indexed = true
  rw [hkind]
  rfl

section Carried

variable {queue : List SpillEntry} {n : Nat} {file file' : StepFile} {path : Path}

theorem Carried.kept (h : Carried queue n file file') {k : Nat} (hk : k < n) {m : Step}
    (hm : file.manifestOf k = some m) : file'.manifestOf k = some m := by
  rcases h k hk with heq | ⟨hnone, -⟩
  · rw [heq, hm]
  · rw [hm] at hnone
    cases hnone

theorem Carried.old (h : Carried queue n file file') (hpath : ∀ q ∈ queue, path ∉ q.manifest.indexPaths) {k : Nat}
    (hk : k < n) {m : Step} (hm : file'.manifestOf k = some m) (hmem : path ∈ m.indexPaths) :
    file.manifestOf k = some m := by
  rcases h k hk with heq | ⟨-, q, hq, hnew⟩
  · rw [← heq, hm]
  · rw [hm] at hnew
    rw [Option.some.inj hnew] at hmem
    exact absurd hmem (hpath q hq)

theorem Carried.pathsOf (h : Carried queue n file file') (hpath : ∀ q ∈ queue, path ∉ q.manifest.indexPaths) {k : Nat}
    (hk : k < n) : path ∈ file'.pathsOf k ↔ path ∈ file.pathsOf k := by
  rw [mem_pathsOf, mem_pathsOf]
  constructor
  · rintro ⟨m, hm, hmem⟩
    exact ⟨m, h.old hpath hk hm hmem, hmem⟩
  · rintro ⟨m, hm, hmem⟩
    exact ⟨m, h.kept hk hm, hmem⟩

theorem Carried.covers (h : Carried queue n file file') (hpath : ∀ q ∈ queue, path ∉ q.manifest.indexPaths) {k : Nat}
    (hk : k < n) (frame : Nat) : file'.Covers k path frame ↔ file.Covers k path frame := by
  constructor
  · rintro ⟨m, hm, hcovers⟩
    obtain ⟨space, hspace, -⟩ := id hcovers
    exact ⟨m, h.old hpath hk hm (mem_indexPaths_of_shape hspace), hcovers⟩
  · rintro ⟨m, hm, hcovers⟩
    exact ⟨m, h.kept hk hm, hcovers⟩

end Carried

/-- What an entry shows stays true while the steps before `n` only gain manifests that do not name it. -/
theorem OverlayEntry.Kept.carry {e : OverlayEntry} {file file' : StepFile} {queue queue' : List SpillEntry} {n : Nat}
    (h : e.Kept file queue n) (hcarried : Carried queue n file file') (hfresh : file.manifestOf n = none)
    (hqueue : e.Shows → ∀ q ∈ queue', e.path ∉ q.manifest.indexPaths) : e.Kept file' queue' n := by
  refine ⟨h.first, hqueue, fun hdead => ?_, fun hgrow j r hrow => ?_, h.rowAt, fun hgrow k r hrow => ?_,
    fun hgrow hdead k hk m hm space hspace => ?_⟩
  · have hindexed := h.indexed hdead
    have hlt : e.firstStep < n := by
      refine Nat.lt_of_le_of_ne h.first fun heq => ?_
      rw [heq, mem_pathsOf, hfresh] at hindexed
      obtain ⟨m, hm, -⟩ := hindexed
      cases hm
    exact (hcarried.pathsOf (h.apart (.inl hdead)) hlt).mpr hindexed
  · have happart := h.apart (.inr fun hnil => by rw [hnil] at hrow; cases hrow)
    obtain ⟨hlt, hgreatest⟩ := h.row hgrow j r hrow
    refine ⟨hlt, ⟨⟨?_, hgreatest.1.2⟩, fun k hk => hgreatest.2 ⟨?_, hk.2⟩⟩⟩
    · exact (hcarried.pathsOf happart (Nat.lt_of_le_of_lt hgreatest.1.2 hlt)).mpr hgreatest.1.1
    · exact (hcarried.pathsOf happart (Nat.lt_of_le_of_lt hk.2 hlt)).mp hk.1
  · have happart := h.apart (.inr fun hnil => by rw [hnil] at hrow; cases hrow)
    obtain ⟨hlt, hleast⟩ := h.frame hgrow k r hrow
    refine ⟨hlt, ⟨(hcarried.covers happart hlt k).mpr hleast.1, fun k' hk' => ?_⟩⟩
    by_contra hbefore
    have hbefore' : k' < r := Nat.lt_of_not_le hbefore
    exact hbefore (hleast.2 ((hcarried.covers happart (hbefore'.trans hlt) k).mp hk'))
  · exact h.seen hgrow hdead k hk m (hcarried.old (h.apart (.inl hdead)) hk hm (mem_indexPaths_of_shape hspace)) space
      hspace

/-! ## One row more -/

/-- The frames mapped are those from the first new one on. -/
theorem mapFrames_spec (fails : Nat → Bool) (n count : Nat) (e : OverlayEntry) :
    ∃ frames rows, (mapFrames fails n count e).state = { e with frames := frames, rows := rows } ∧
      (∀ k r, rows.find? k = some r → e.rows.find? k = some r ∨ (r = n ∧ e.frames ≤ k ∧ k < e.frames + count)) ∧
      ((mapFrames fails n count e).isOk → frames = e.frames + count) := by
  induction count generalizing e with
  | zero => exact ⟨e.frames, e.rows, rfl, fun k r h => .inl h, fun _ => rfl⟩
  | succ count ih =>
    unfold mapFrames
    split
    · exact ⟨e.frames, e.rows, rfl, fun k r h => .inl h, fun hf => (by cases hf)⟩
    · obtain ⟨frames, rows, hstate, hrows, hframes⟩ :=
        ih { e with rows := e.rows.set e.frames n, frames := e.frames + 1 }
      refine ⟨frames, rows, hstate, fun k r h => ?_, fun hok => by rw [hframes hok]; show e.frames + 1 + count = _; omega⟩
      rcases hrows k r h with h | ⟨hr, hle, hlt⟩
      · have h' : (e.rows.set e.frames n).find? k = some r := h
        rw [Table.find?_set] at h'
        split at h'
        · rename_i hk
          exact .inr ⟨(Option.some.inj h').symm, Nat.le_of_eq hk, by omega⟩
        · exact .inl h'
      · have hle' : e.frames + 1 ≤ k := hle
        have hlt' : k < e.frames + 1 + count := hlt
        exact .inr ⟨hr, by omega, by omega⟩

/-- What the step has of a growing dataset: new frames only that it writes, and one copy. -/
def StepFile.AddsWritten (file : StepFile) (n : Nat) (path : Path) (frames : Nat) : Prop :=
  ∀ m type space, file.manifestOf n = some m → path ∈ m.indexPaths → file.copyAt n path = some (type, space) →
    (∀ k, frames ≤ k → k < space.extent.dims.headD 0 → CoversFrame (m.entries.map Entry.shape) path k) ∧
      ∀ space', ⟨.dsetCreate, path, space'⟩ ∈ m.entries.map Entry.shape → space' = space

theorem OverlayEntry.Kept.grown {e : OverlayEntry} {file : StepFile} {queue : List SpillEntry} {n : Nat}
    (h : e.Kept file queue n) (hdead : e.dead = false) (hgrow : e.growing = true) {m : Step}
    (hm : file.manifestOf n = some m) (hmem : e.path ∈ m.indexPaths)
    (hadds : file.AddsWritten n e.path e.frames) (env : OverlayEnv) (dead : Bool)
    (hok : dead = false → (overlayFrames env file n e).isOk) :
    OverlayEntry.Kept { (overlayFrames env file n e).state with dead := dead } file queue (n + 1) := by
  have hapart := h.apart (.inl hdead)
  -- a frame that is new is in no extent before
  have hnew : ∀ k, e.frames ≤ k → ∀ n' < n, ¬ file.Covers n' e.path k := by
    rintro k hk n' hn' ⟨m', hm', space, hspace, hlt, -⟩
    have := h.seen hgrow hdead n' hn' m' hm' space hspace
    omega
  have hkept : ∀ frames rows, (∀ k r, rows.find? k = some r → e.rows.find? k = some r ∨
        (r = n ∧ e.frames ≤ k ∧ CoversFrame (m.entries.map Entry.shape) e.path k)) →
      (dead = false → ∀ n' < n + 1, ∀ m', file.manifestOf n' = some m' → ∀ space,
        ⟨.dsetCreate, e.path, space⟩ ∈ m'.entries.map Entry.shape → space.extent.dims.headD 0 ≤ frames) →
      OverlayEntry.Kept { e with frames := frames, rows := rows, dead := dead } file queue (n + 1) := by
    intro frames rows hrows hseen
    refine ⟨Nat.le_succ_of_le h.first, fun _ => hapart, fun _ => h.indexed hdead, fun hfixed => ?_, fun hfixed => ?_,
      fun _ k r hrow => ?_, fun _ hd => hseen hd⟩
    · rw [show e.growing = false from hfixed] at hgrow
      cases hgrow
    · rw [show e.growing = false from hfixed] at hgrow
      cases hgrow
    · rcases hrows k r hrow with hold | ⟨rfl, hle, hcovers⟩
      · obtain ⟨hlt, hleast⟩ := h.frame hgrow k r hold
        exact ⟨by omega, hleast⟩
      · refine ⟨Nat.lt_succ_self _, ⟨⟨m, hm, hcovers⟩, fun n' hn' => ?_⟩⟩
        by_contra hlt
        exact hnew k hle n' (Nat.lt_of_not_le hlt) hn'
  unfold overlayFrames at hok ⊢
  cases hcopy : file.copyAt n e.path with
  | none =>
    rw [hcopy] at hok
    refine hkept e.frames e.rows (fun k r hrow => .inl hrow) fun hd => ?_
    cases hok hd
  | some copy =>
    obtain ⟨type, space⟩ := copy
    obtain ⟨hcovers, hone⟩ := hadds m type space hm hmem hcopy
    rw [hcopy] at hok
    simp only at hok ⊢
    split at hok
    · rename_i hrank
      rw [if_pos hrank]
      refine hkept e.frames e.rows (fun k r hrow => .inl hrow) fun hd => ?_
      cases hok hd
    · rename_i hrank
      rw [if_neg hrank]
      obtain ⟨frames, rows, hstate, hrows, hframes⟩ :=
        mapFrames_spec (env.frameFails e.path) n (space.extent.dims.headD 0 - e.frames) e
      rw [hstate]
      refine hkept frames rows (fun k r hrow => ?_) fun hd n' hn' m' hm' space' hspace' => ?_
      · rcases hrows k r hrow with hold | ⟨hr, hle, hlt⟩
        · exact .inl hold
        · exact .inr ⟨hr, hle, hcovers k hle (by omega)⟩
      · rw [hframes (hok hd)]
        by_cases hlast : n' = n
        · subst hlast
          rw [hm] at hm'
          cases hm'
          rw [hone space' hspace']
          omega
        · have := h.seen hgrow hdead n' (by omega) m' hm' space' hspace'
          omega

section Fixed

variable {e : OverlayEntry} {file : StepFile} {queue : List SpillEntry} {n : Nat}

theorem OverlayEntry.Kept.row_succ (h : e.Kept file queue n) (hfixed : e.growing = false) (j r : Nat)
    (hrow : e.rows.find? j = some r) :
    e.firstStep + j < n + 1 ∧ IsGreatest {k | e.path ∈ file.pathsOf k ∧ k ≤ e.firstStep + j} r := by
  obtain ⟨hlt, hgreatest⟩ := h.row hfixed j r hrow
  exact ⟨by omega, hgreatest⟩

/-- A dataset whose row could not be made. -/
theorem OverlayEntry.Kept.stopped (h : e.Kept file queue n) (hdead : e.dead = false) (hfixed : e.growing = false) :
    OverlayEntry.Kept { e with dead := true } file queue (n + 1) := by
  refine ⟨Nat.le_succ_of_le h.first, fun _ => h.apart (.inl hdead), fun hd => (by cases hd),
    fun _ => h.row_succ hfixed, fun _ hd => (by cases hd), fun hgrow => ?_, fun _ hd => (by cases hd)⟩
  rw [show e.growing = true from hgrow] at hfixed
  cases hfixed

/-- One whose row links to its last copy. -/
theorem OverlayEntry.Kept.linked (h : e.Kept file queue n) (hdead : e.dead = false) (hfixed : e.growing = false)
    {r : Nat} (hgreatest : IsGreatest {k | e.path ∈ file.pathsOf k ∧ k ≤ n} r) (dead : Bool) :
    OverlayEntry.Kept { e with rows := e.rows.set (n - e.firstStep) r, dead := dead } file queue (n + 1) := by
  have hfirst := h.first
  have hgrows : ∀ {P : Prop}, e.growing = true → P := fun hgrow => by
    rw [hgrow] at hfixed
    cases hfixed
  refine ⟨Nat.le_succ_of_le hfirst, fun _ => h.apart (.inl hdead), fun _ => h.indexed hdead, fun _ j r' hrow => ?_,
    fun _ _ j hj => ?_, fun hgrow => hgrows hgrow, fun hgrow => hgrows hgrow⟩
  · have hrow' : (e.rows.set (n - e.firstStep) r).find? j = some r' := hrow
    rw [Table.find?_set] at hrow'
    split at hrow'
    · rename_i hj
      cases hrow'
      have hlast : e.firstStep + j = n := by omega
      show e.firstStep + j < n + 1 ∧ IsGreatest {k | e.path ∈ file.pathsOf k ∧ k ≤ e.firstStep + j} _
      rw [hlast]
      exact ⟨Nat.lt_succ_self n, hgreatest⟩
    · exact h.row_succ hfixed j r' hrow'
  · show ((e.rows.set (n - e.firstStep) r).find? j).isSome
    rw [Table.find?_set]
    split
    · rfl
    · rename_i hne
      have hj' : e.firstStep + j < n + 1 := hj
      exact h.rowAt hfixed hdead j (by omega)

end Fixed

/-- The entry with the row of step `n`. -/
theorem OverlayEntry.Kept.next {e : OverlayEntry} {fs : Core} {n : Nat}
    (hidx : IndexInv fs.pathIndex fs.file fs.pendingSpill (n + 1)) (h : e.Kept fs.file fs.pendingSpill n)
    (hadds : e.growing = true → e.dead = false → fs.file.AddsWritten n e.path e.frames) (env : OverlayEnv) :
    (overlayRow env fs n e).Kept fs.file fs.pendingSpill (n + 1) := by
  have hresolves : ∀ r, pathIndexResolve fs.pathIndex e.path n = some r ↔
      IsGreatest {k | e.path ∈ fs.file.pathsOf k ∧ k ≤ n} r := by
    intro r
    rw [pathIndexResolve_eq_some_iff ((hidx.matches_file.ascending e.path).imp Nat.le_of_lt)]
    simp only [hidx.matches_file.exact]
  have hnumber : ¬ n < e.firstStep := Nat.not_lt.mpr h.first
  unfold overlayRow
  cases hdead : e.dead with
  | true =>
    rw [if_pos (.inl rfl)]
    refine ⟨Nat.le_succ_of_le h.first, h.apart, h.indexed, fun hfixed j r hrow => ?_, fun _ hd => ?_,
      fun hgrow k r hrow => ?_, fun _ hd => ?_⟩
    · obtain ⟨hlt, hgreatest⟩ := h.row hfixed j r hrow
      exact ⟨by omega, hgreatest⟩
    · rw [hdead] at hd
      cases hd
    · obtain ⟨hlt, hleast⟩ := h.frame hgrow k r hrow
      exact ⟨by omega, hleast⟩
    · rw [hdead] at hd
      cases hd
  | false =>
    rw [if_neg fun hor => hor.elim (fun hf => (by cases hf)) hnumber]
    have hindexed := h.indexed hdead
    obtain ⟨r, hr⟩ : ∃ r, pathIndexResolve fs.pathIndex e.path n = some r := by
      cases hres : pathIndexResolve fs.pathIndex e.path n with
      | some r => exact ⟨r, rfl⟩
      | none =>
        rw [pathIndexResolve, List.find?_eq_none] at hres
        have hmem := (hidx.matches_file.exact e.path e.firstStep).mpr hindexed
        exact absurd (decide_eq_true h.first) (hres e.firstStep (List.mem_reverse.mpr hmem))
    have hgreatest := (hresolves r).mp hr
    rw [hr]
    simp only
    by_cases hgrow : e.growing = true
    · rw [if_pos hgrow]
      by_cases hrn : r = n
      · rw [if_pos hrn]
        obtain ⟨m, hm, hmem⟩ := (mem_pathsOf fs.file e.path n).mp (hrn ▸ hgreatest.1.1)
        have hgrown := h.grown hdead hgrow hm hmem (hadds hgrow hdead) env
        cases hframes : overlayFrames env fs.file n e with
        | fail e' =>
          have := hgrown true (fun hf => by cases hf)
          rw [hframes] at this
          exact this
        | ok e' =>
          have := hgrown (decide (e.frames < e'.frames) && env.axisFails e.path) (fun _ => by rw [hframes]; rfl)
          rw [hframes] at this
          exact this
      · rw [if_neg hrn]
        -- the step did not write the dataset
        have hnot : e.path ∉ fs.file.pathsOf n := fun hmem =>
          hrn (Nat.le_antisymm hgreatest.1.2 (hgreatest.2 ⟨hmem, Nat.le_refl n⟩))
        refine ⟨Nat.le_succ_of_le h.first, h.apart, h.indexed, fun hfixed => ?_, fun hfixed => ?_,
          fun _ k r hrow => ?_, fun _ _ n' hn' m hm space hspace => ?_⟩
        · rw [hgrow] at hfixed
          cases hfixed
        · rw [hgrow] at hfixed
          cases hfixed
        · obtain ⟨hlt, hleast⟩ := h.frame hgrow k r hrow
          exact ⟨by omega, hleast⟩
        · refine h.seen hgrow hdead n' (Nat.lt_of_le_of_ne (Nat.le_of_lt_succ hn') fun heq => hnot ?_) m hm space hspace
          rw [← heq, mem_pathsOf]
          exact ⟨m, hm, mem_indexPaths_of_shape hspace⟩
    · have hfixed : e.growing = false := Bool.eq_false_of_not_eq_true hgrow
      rw [if_neg hgrow]
      split
      · exact h.stopped hdead hfixed
      · exact h.linked hdead hfixed hgreatest _

/-! ## A commit -/

/-- What the overlay asks of a step: its group holds nothing of what it makes; if it is spilled, it makes nothing the
overlay shows; to a growing dataset it adds only frames it writes, and makes no link in its place; and a growing dataset
the overlay does not know yet was written by no step before, queued ones included. -/
structure OverlayEndOk (view : OverlayEnv) (env : EndEnv) (s : Overlaid) : Prop where
  spilled : s.writer.replays env = false → (s.writer.core.folded env).fate env.lag = .spill →
    ∀ e ∈ s.overlay, e.Shows → e.path ∉ (s.writer.core.folded env).pendingPaths
  created : s.writer.replays env = true → ∀ path ∈ (s.writer.core.folded env).pendingPaths,
    s.writer.core.file.copyAt s.writer.core.physicalStep path = none
  grows : s.writer.replays env = true → ∀ e ∈ s.overlay, e.growing = true → e.dead = false →
    (∀ pe ∈ (s.writer.core.folded env).pending, pe.path = e.path → pe.kind ≠ .link) ∧ ∀ space,
      ⟨.dsetCreate, e.path, space⟩ ∈ (s.writer.core.folded env).pending.map PendingEntry.shape →
        ∀ k, e.frames ≤ k → k < space.extent.dims.headD 0 →
          coversFrame space.extent.dims (writesAt ((s.writer.core.folded env).pending.map PendingEntry.shape) e.path) k
  begins : s.writer.replays env = true → ∀ path space,
    ⟨.dsetCreate, path, space⟩ ∈ (s.writer.core.folded env).pending.map PendingEntry.shape →
      (∀ e ∈ s.overlay, e.path ≠ path) → path.contains '@' = false → (s.writer.core.pathIndex path).isLink = false →
      2 ≤ space.extent.dims.length → (view.maxDims path).headD 0 ≠ space.extent.dims.headD 0 →
        (s.writer.core.pathIndex path).steps = [] ∧ (∀ q ∈ s.writer.core.pendingSpill, path ∉ q.manifest.indexPaths) ∧
          ∀ k < space.extent.dims.headD 0,
            coversFrame space.extent.dims (writesAt ((s.writer.core.folded env).pending.map PendingEntry.shape) path) k

def OverlayOkAt (s : Overlaid) (ev : Event × OverlayEnv) : Prop :=
  match ev.1 with
  | .endStep env => s.writer.core.stepState = .inStep → EndIndexOk env s.writer ∧ OverlayEndOk ev.2 env s
  | _ => True

structure OverlayInv (s : Overlaid) : Prop where
  index : IndexInv s.writer.core.pathIndex s.writer.core.file s.writer.core.pendingSpill s.writer.core.physicalStep
  kept : ∀ e ∈ s.overlay, e.Kept s.writer.core.file s.writer.core.pendingSpill s.writer.core.physicalStep

section Commit

variable {env : EndEnv} {w : Writer} {file' : StepFile} (hext : w.core.file.Extended (Commits env w) file')

include hext

/-- Before this step only queued ones gain a manifest. -/
theorem carried_commit : Carried w.core.pendingSpill w.core.physicalStep w.core.file file' := by
  intro k hk
  rcases hext.manifestOf k with heq | ⟨hnone, m, hm, ⟨q, hq, -, hwithin⟩ | ⟨-, hkn, -⟩⟩
  · exact .inl heq
  · refine .inr ⟨hnone, q, hq, ?_⟩
    rcases hwithin with hf | hf
    · cases hf
    · rw [hm, hf]
  · exact absurd hkn (Nat.ne_of_lt hk)

variable (hinv : IndexInv w.core.pathIndex w.core.file w.core.pendingSpill w.core.physicalStep)

include hinv

/-- The manifest of this step is of what it captured. -/
theorem manifest_commit {m : Step} (hm : file'.manifestOf w.core.physicalStep = some m) :
    w.replays env = true ∧ m.entries.map Entry.shape = (w.core.folded env).pending.map PendingEntry.shape := by
  have hfresh : w.core.file.manifestOf w.core.physicalStep = none := by
    unfold StepFile.manifestOf
    rw [hinv.fresh _ (Nat.le_refl _)]
    rfl
  rcases hext.manifestOf w.core.physicalStep with heq | ⟨-, m', hm', ⟨q, hq, hnumber, -⟩ | ⟨hreplays, -, m₀, hshapes, hwithin⟩⟩
  · rw [hm, hfresh] at heq
    cases heq
  · obtain ⟨hq₁, hq₂, -, -⟩ := hinv.waiting q hq
    omega
  · refine ⟨hreplays, ?_⟩
    rcases hwithin with hf | hf
    · cases hf
    · rw [hm] at hm'
      rw [Option.some.inj hm', Option.some.inj hf, hshapes]

/-- The copy of a dataset that was not there is one the step captured. -/
theorem copy_commit {path : Path} (hfresh : w.core.file.copyAt w.core.physicalStep path = none) {type : Datatype}
    {space : Dataspace} (hcopy : file'.copyAt w.core.physicalStep path = some (type, space)) :
    ⟨.dsetCreate, path, space⟩ ∈ (w.core.folded env).pending.map PendingEntry.shape := by
  obtain ⟨ops, heq, hops⟩ := hext w.core.physicalStep
  unfold StepFile.copyAt at hfresh hcopy
  rw [heq, List.findSome?_append, hfresh, Option.none_or] at hcopy
  obtain ⟨op, hop, hfound⟩ := List.exists_of_findSome?_eq_some hcopy
  cases op with
  | datasetCreate p t sp d =>
    simp only at hfound
    split at hfound
    · rename_i hp
      cases hfound
      rcases hops _ hop with ⟨q, hq, hnumber, -⟩ | ⟨-, -, m₀, hshapes, hwithin⟩
      · obtain ⟨hq₁, hq₂, -, -⟩ := hinv.waiting q hq
        omega
      · rw [← hshapes, ← hp]
        exact hwithin
    · cases hfound
  | _ => cases hfound

end Commit

theorem endStep_extended {env : EndEnv} {w w' : Writer} (h : endStep env w = .ok w') :
    w.core.file.Extended (Commits env w) w'.core.file := by
  have hext := applyQueuePolicy_extended env w
  unfold endStep at h
  split at h
  · cases h
  · simp only at h
    cases happly : applyQueuePolicy env ⟨w.core.folded env, [], w.lookups⟩ with
    | ok st =>
      rw [happly] at h hext
      cases h
      exact hext
    | fail st =>
      rw [happly] at h
      cases h

/-- A failed step leaves the manifests of the steps before it as a commit would. -/
theorem carried_fail {env : EndEnv} {w w' : Writer} (h : endStep env w = .fail w') :
    Carried w.core.pendingSpill w.core.physicalStep w.core.file w'.core.file := by
  have hcarried := carried_commit (applyQueuePolicy_extended env w)
  have hnumber := congrArg Core.physicalStep (policyFrame_applyQueuePolicy env ⟨w.core.folded env, [], w.lookups⟩)
  obtain ⟨pending, bytes, hfold⟩ := folded_eq w.core env
  have hfolded : (w.core.folded env).physicalStep = w.core.physicalStep := by rw [hfold]
  unfold endStep at h
  split at h
  · cases h
    exact fun k _ => .inl rfl
  · simp only at h
    cases happly : applyQueuePolicy env ⟨w.core.folded env, [], w.lookups⟩ with
    | ok st =>
      rw [happly] at h
      cases h
    | fail st =>
      rw [happly] at h hcarried hnumber
      have hst : st.core.physicalStep = w.core.physicalStep := hnumber.trans hfolded
      cases h
      intro k hk
      have hsame : (if env.unlinkFails then st.core.file else st.core.file.unlink st.core.physicalStep).manifestOf k
          = st.core.file.manifestOf k := by
        split
        · rfl
        · unfold StepFile.manifestOf
          rw [StepFile.manifestOps_unlink, if_neg (by omega)]
      show (if env.unlinkFails then st.core.file else st.core.file.unlink st.core.physicalStep).manifestOf k = _ ∨
        (_ ∧ ∃ q ∈ _, (if env.unlinkFails then st.core.file else st.core.file.unlink st.core.physicalStep).manifestOf k = _)
      rw [hsame]
      exact hcarried k hk

theorem space_of_shapes {m : Step} (h : m.indexPaths.Nodup) {path : Path} {space space' : Dataspace}
    (hspace : ⟨.dsetCreate, path, space⟩ ∈ m.entries.map Entry.shape)
    (hspace' : ⟨.dsetCreate, path, space'⟩ ∈ m.entries.map Entry.shape) : space' = space := by
  have hpaths : m.indexPaths = (m.entries.filter fun e => e.kind.indexed).map Entry.path := by
    unfold Step.indexPaths indexPaths
    rw [List.filter_map, List.map_map]
    rfl
  rw [hpaths] at h
  obtain ⟨e, he, hshape⟩ := List.mem_map.mp hspace
  obtain ⟨e', he', hshape'⟩ := List.mem_map.mp hspace'
  have hmem : ∀ {a : Entry} {sp : Dataspace}, a ∈ m.entries → a.shape = ⟨.dsetCreate, path, sp⟩ →
      a ∈ m.entries.filter fun e => e.kind.indexed := by
    intro a sp ha hsh
    have hkind : a.kind = .dsetCreate := congrArg Shape.kind hsh
    refine List.mem_filter.mpr ⟨ha, ?_⟩
    rw [hkind]
    rfl
  have heq : e' = e := List.inj_on_of_nodup_map h (hmem he' hshape') (hmem he hshape)
    ((congrArg Shape.path hshape').trans (congrArg Shape.path hshape).symm)
  rw [heq] at hshape'
  exact congrArg Shape.space (hshape'.symm.trans hshape)

/-- The entries after the new ones were noticed. -/
theorem mem_notice {view : OverlayEnv} {fs : Core} {n : Nat} {paths : List Path} {overlay : List OverlayEntry}
    {e : OverlayEntry} (h : e ∈ paths.foldl (overlayNotice view fs n) overlay) :
    e ∈ overlay ∨ ∃ path, newlyWritten fs.pathIndex n path = true ∧ (∀ e' ∈ overlay, e'.path ≠ path) ∧
      e = overlayStart view fs.file path n := by
  induction paths generalizing overlay with
  | nil => exact .inl h
  | cons path paths ih =>
    rw [List.foldl_cons] at h
    have hnew : ∀ e' ∈ overlayNotice view fs n overlay path, e' ∈ overlay ∨ ∃ path,
        newlyWritten fs.pathIndex n path = true ∧ (∀ e' ∈ overlay, e'.path ≠ path) ∧
          e' = overlayStart view fs.file path n := by
      intro e' he'
      unfold overlayNotice at he'
      split at he'
      · rename_i hif
        rw [Bool.and_eq_true, Bool.not_eq_true', List.any_eq_false] at hif
        rcases List.mem_append.mp he' with he' | he'
        · exact .inl he'
        · refine .inr ⟨path, hif.1, fun e'' he'' hpath => ?_, List.mem_singleton.mp he'⟩
          exact hif.2 e'' he'' (decide_eq_true hpath)
      · exact .inl he'
    have hsub : ∀ e' ∈ overlay, e' ∈ overlayNotice view fs n overlay path := by
      intro e' he'
      unfold overlayNotice
      split
      · exact List.mem_append_left _ he'
      · exact he'
    rcases ih h with h | ⟨path', hwritten, hpaths, heq⟩
    · exact hnew e h
    · exact .inr ⟨path', hwritten, fun e' he' => hpaths e' (hsub e' he'), heq⟩

theorem overlayStart_fields (view : OverlayEnv) (file : StepFile) (path : Path) (n : Nat) :
    (overlayStart view file path n).path = path ∧ (overlayStart view file path n).firstStep = n ∧
      (overlayStart view file path n).frames = 0 ∧ (overlayStart view file path n).rows = [] := by
  unfold overlayStart
  simp only
  split
  · exact ⟨rfl, rfl, rfl, rfl⟩
  · split
    · exact ⟨rfl, rfl, rfl, rfl⟩
    · exact ⟨rfl, rfl, rfl, rfl⟩

/-- An entry just started, before its first row. -/
theorem kept_overlayStart {view : OverlayEnv} {fs : Core} {n : Nat} {path : Path}
    (hidx : IndexInv fs.pathIndex fs.file fs.pendingSpill (n + 1)) (hwritten : path ∈ fs.file.pathsOf n)
    (hfirst : (overlayStart view fs.file path n).growing = true → ∀ n' < n, path ∉ fs.file.pathsOf n') :
    (overlayStart view fs.file path n).Kept fs.file fs.pendingSpill n := by
  have hfields := overlayStart_fields view fs.file path n
  generalize overlayStart view fs.file path n = e at hfields hfirst
  obtain ⟨hpath, hstart, -, hrows⟩ := hfields
  have hnone : ∀ {k r : Nat} {P : Prop}, e.rows.find? k = some r → P := by
    intro k r P hrow
    rw [hrows] at hrow
    cases hrow
  refine ⟨Nat.le_of_eq hstart, fun _ q hq hmem => ?_, fun _ => ?_, fun _ j r hrow => hnone hrow, fun _ _ j hj => ?_,
    fun _ k r hrow => hnone hrow, fun hgrow _ n' hn' m hm space hspace => ?_⟩
  · -- a queued step comes after every step that has the path, so not before this one
    have hlt := hidx.behind q hq e.path hmem n ((hidx.matches_file.exact e.path n).mpr (by rw [hpath]; exact hwritten))
    have := (hidx.waiting q hq).before
    omega
  · rw [hpath, hstart]
    exact hwritten
  · omega
  · refine absurd ?_ (hfirst hgrow n' hn')
    rw [mem_pathsOf, ← hpath]
    exact ⟨m, hm, mem_indexPaths_of_shape hspace⟩

theorem overlayKind_growing {type : Datatype} {dims maxDims : List Nat} (h : overlayKind type dims maxDims = some true) :
    2 ≤ dims.length ∧ maxDims.headD 0 ≠ dims.headD 0 := by
  unfold overlayKind at h
  split at h
  · cases h
  · split at h
    · cases h
    · split at h
      · rename_i hne
        split at h
        · cases h
        · rename_i hrank
          exact ⟨Nat.le_of_not_lt hrank, hne⟩
      · cases h

theorem copy_of_growing {view : OverlayEnv} {file : StepFile} {path : Path} {n : Nat}
    (h : (overlayStart view file path n).growing = true) : ∃ type space, file.copyAt n path = some (type, space) := by
  unfold overlayStart at h
  cases hcopy : file.copyAt n path with
  | none =>
    rw [hcopy] at h
    cases h
  | some copy => exact ⟨copy.1, copy.2, rfl⟩

theorem overlayStart_growing {view : OverlayEnv} {file : StepFile} {path : Path} {n : Nat}
    (h : (overlayStart view file path n).growing = true) {type : Datatype} {space : Dataspace}
    (hcopy : file.copyAt n path = some (type, space)) :
    2 ≤ space.extent.dims.length ∧ (view.maxDims path).headD 0 ≠ space.extent.dims.headD 0 := by
  unfold overlayStart at h
  rw [hcopy] at h
  simp only at h
  split at h
  · cases h
  · rename_i growing hkind
    have hgrow : growing = true := h
    subst hgrow
    exact overlayKind_growing hkind

/-- A commit leaves every row of the overlay true. -/
theorem OverlayInv.commit {s : Overlaid} {env : EndEnv} {view : OverlayEnv} {w : Writer} (h : OverlayInv s)
    (hok : EndIndexOk env s.writer ∧ OverlayEndOk view env s) (hend : endStep env s.writer = .ok w) :
    OverlayInv ⟨w, overlayStep view w.core s.writer.core.physicalStep (s.writer.core.folded env).pendingPaths
      s.overlay⟩ := by
  have hstep : s.writer.core.stepState = .inStep := by
    by_contra hne
    unfold endStep at hend
    rw [if_pos hne] at hend
    cases hend
  have hidx := endStep_index (fun _ => hok.1) h.index
  rw [hend] at hidx
  have hnumber : w.core.physicalStep = s.writer.core.physicalStep + 1 := (endStep_ended hend).number
  simp only [Outcome.state_ok, hnumber] at hidx
  have hext := endStep_extended hend
  have hcarried := carried_commit hext
  have hfresh : s.writer.core.file.manifestOf s.writer.core.physicalStep = none := by
    unfold StepFile.manifestOf
    rw [h.index.fresh _ (Nat.le_refl _)]
    rfl
  -- what the step has of a dataset, all new frames of which it writes
  have hadds : ∀ path frames, (∀ space, ⟨.dsetCreate, path, space⟩ ∈
        (s.writer.core.folded env).pending.map PendingEntry.shape → s.writer.replays env = true → ∀ type,
          w.core.file.copyAt s.writer.core.physicalStep path = some (type, space) → ∀ k, frames ≤ k →
            k < space.extent.dims.headD 0 → coversFrame space.extent.dims
              (writesAt ((s.writer.core.folded env).pending.map PendingEntry.shape) path) k) →
      w.core.file.AddsWritten s.writer.core.physicalStep path frames := by
    intro path frames hframes m type space hm hmem hcopy
    obtain ⟨hreplays, hshapes⟩ := manifest_commit hext h.index hm
    have hpaths : m.indexPaths = (s.writer.core.folded env).pendingPaths := congrArg indexPaths (keys_of_shapes hshapes)
    have hnodup : m.indexPaths.Nodup := by
      have := hidx.matches_file.nodup s.writer.core.physicalStep
      unfold StepFile.pathsOf at this
      rw [hm] at this
      exact this
    have hspace := copy_commit hext h.index (hok.2.created hreplays path (hpaths ▸ hmem)) hcopy
    refine ⟨fun k hle hlt => ⟨space, by rw [hshapes]; exact hspace, ?_⟩, fun space' hspace' => ?_⟩
    · rw [hshapes]
      exact hframes space hspace hreplays type hcopy k hle hlt
    · exact space_of_shapes hnodup (by rw [hshapes]; exact hspace) hspace'
  refine ⟨by rw [hnumber]; exact hidx, fun e he => ?_⟩
  obtain ⟨e₀, he₀, rfl⟩ := List.mem_map.mp he
  rw [hnumber]
  rcases mem_notice he₀ with hold | ⟨path, hwritten, hunseen, rfl⟩
  · -- an entry from before
    have hapart : e₀.Shows → ∀ q ∈ w.core.pendingSpill, e₀.path ∉ q.manifest.indexPaths := by
      intro hshows q hq
      have hq' : q ∈ (endStep env s.writer).state.core.pendingSpill := by
        rw [hend]
        exact hq
      rcases mem_pendingSpill_endStep env hstep hq' with hq' | ⟨hfate, hreplays, hpaths⟩
      · exact (h.kept e₀ hold).apart hshows q hq'
      · rw [hpaths]
        exact hok.2.spilled hreplays hfate e₀ hold hshows
    refine ((h.kept e₀ hold).carry hcarried hfresh hapart).next hidx (fun hgrow hdead => ?_) view
    refine hadds e₀.path e₀.frames fun space hspace hreplays _ _ k hle hlt => ?_
    exact (hok.2.grows hreplays e₀ hold hgrow hdead).2 space hspace k hle hlt
  · -- one that begins with this step
    unfold newlyWritten at hwritten
    simp only [Bool.and_eq_true, Bool.not_eq_true', decide_eq_true_eq] at hwritten
    obtain ⟨⟨hname, hlink⟩, hlast⟩ := hwritten
    have hmem : path ∈ w.core.file.pathsOf s.writer.core.physicalStep :=
      (hidx.matches_file.exact path _).mp (List.mem_of_getLast? hlast)
    have hlink₀ : (s.writer.core.pathIndex path).isLink = false := by
      by_contra htrue
      rw [isLink_endStep hend (by simpa using htrue)] at hlink
      cases hlink
    obtain ⟨m, hm, hmemPaths⟩ := (mem_pathsOf _ _ _).mp hmem
    obtain ⟨hreplays, hshapes⟩ := manifest_commit hext h.index hm
    have hpaths : m.indexPaths = (s.writer.core.folded env).pendingPaths := congrArg indexPaths (keys_of_shapes hshapes)
    have hcreated := hok.2.created hreplays path (hpaths ▸ hmemPaths)
    -- a growing one is new to the stream
    have hbegins : (overlayStart view w.core.file path s.writer.core.physicalStep).growing = true → ∀ type space,
        w.core.file.copyAt s.writer.core.physicalStep path = some (type, space) →
          (s.writer.core.pathIndex path).steps = [] ∧
          (∀ q ∈ s.writer.core.pendingSpill, path ∉ q.manifest.indexPaths) ∧
          ∀ k < space.extent.dims.headD 0, coversFrame space.extent.dims
            (writesAt ((s.writer.core.folded env).pending.map PendingEntry.shape) path) k := by
      intro hgrow type space hcopy
      obtain ⟨hrank, hmax⟩ := overlayStart_growing hgrow hcopy
      exact hok.2.begins hreplays path space (copy_commit hext h.index hcreated hcopy) hunseen hname hlink₀ hrank hmax
    obtain ⟨hpath, -, hframes, -⟩ := overlayStart_fields view w.core.file path s.writer.core.physicalStep
    refine (kept_overlayStart hidx hmem fun hgrow n' hn' hmem' => ?_).next hidx (fun hgrow _ => ?_) view
    · obtain ⟨type, space, hcopy⟩ := copy_of_growing hgrow
      obtain ⟨hsteps, hqueue, -⟩ := hbegins hgrow type space hcopy
      have := (h.index.matches_file.exact path n').mpr ((hcarried.pathsOf hqueue hn').mp hmem')
      rw [hsteps] at this
      cases this
    · rw [hpath, hframes]
      exact hadds path 0 fun space _ _ type hcopy k _ hlt => (hbegins hgrow type space hcopy).2.2 k hlt

theorem OverlayInv.endStep {s : Overlaid} (h : OverlayInv s) {env : EndEnv} {view : OverlayEnv}
    (hok : s.writer.core.stepState = .inStep → EndIndexOk env s.writer ∧ OverlayEndOk view env s) :
    OverlayInv (s.endStep env view) := by
  unfold Overlaid.endStep
  rcases endStep_cases env s.writer with ⟨-, hend⟩ | ⟨w, hend, -⟩ | ⟨w, hend, habandoned⟩
  · rw [hend]
    exact h
  · have hstep : s.writer.core.stepState = .inStep := by
      by_contra hne
      unfold VolStream.endStep at hend
      rw [if_pos hne] at hend
      cases hend
    rw [hend]
    exact h.commit (hok hstep) hend
  · have hidx := endStep_index (fun hstep => (hok hstep).1) h.index
    rw [hend] at hidx ⊢
    have hfresh : s.writer.core.file.manifestOf s.writer.core.physicalStep = none := by
      unfold StepFile.manifestOf
      rw [h.index.fresh _ (Nat.le_refl _)]
      rfl
    refine ⟨hidx, fun e he => ?_⟩
    simp only [habandoned.number]
    refine (h.kept e he).carry (carried_fail hend) hfresh fun hshows q hq => ?_
    exact (h.kept e he).apart hshows q (habandoned.queue.subset hq)

theorem OverlayInv.apply {s : Overlaid} (h : OverlayInv s) (ev : Event × OverlayEnv) (hok : OverlayOkAt s ev) :
    OverlayInv (s.apply ev) := by
  obtain ⟨ev, view⟩ := ev
  by_cases hev : ∃ env, ev = .endStep env
  · obtain ⟨env, rfl⟩ := hev
    exact h.endStep hok
  · have happly : s.apply (ev, view) = { s with writer := (s.writer.apply ev).state } := by
      cases ev with
      | endStep env => exact absurd ⟨env, rfl⟩ hev
      | _ => rfl
    have hcore := (committed_apply s.writer fun env heq => hev ⟨env, heq⟩).1
    have hindex := congrArg Core.pathIndex hcore
    have hfile := congrArg Core.file hcore
    have hspill := congrArg Core.pendingSpill hcore
    have hnumber := congrArg Core.physicalStep hcore
    simp only [Core.committed] at hindex hfile hspill hnumber
    rw [happly]
    refine ⟨?_, fun e he => ?_⟩
    · simp only [hindex, hfile, hspill, hnumber]
      exact h.index
    · simp only [hfile, hspill, hnumber]
      exact h.kept e he

theorem OverlayInv.init (config : Config) : OverlayInv (.init config) := by
  refine ⟨⟨⟨fun _ => List.Pairwise.nil, fun path n => ?_, fun _ => List.nodup_nil⟩, fun _ _ => rfl,
    List.forall_mem_nil _, List.Pairwise.nil, List.forall_mem_nil _⟩, List.forall_mem_nil _⟩
  exact iff_of_false List.not_mem_nil List.not_mem_nil

theorem OverlayInv.truthful {s : Overlaid} (h : OverlayInv s) : s.Truthful where
  rows e he hfixed j r hrow dir rd hdir hread := by
    rw [resolves_readerAdvance hdir hread]
    exact ((h.kept e he).row hfixed j r hrow).2
  complete e he hfixed hdead j hj := (h.kept e he).rowAt hfixed hdead j hj
  frames e he hgrow k n hrow := ((h.kept e he).frame hgrow k n hrow).2

/-- In a run whose steps keep the index in order, spill nothing the overlay shows and write the frames they add, every
row of the overlay is true in every state. -/
theorem overlay_truthful (config : Config) (events : List (Event × OverlayEnv))
    (h : Runs.Meets Overlaid.apply OverlayOkAt (.init config) events) : (Overlaid.after config events).Truthful :=
  (Runs.run_inv (fun _ ev hs hok => hs.apply ev hok) (OverlayInv.init config) h).truthful

/-! ## Runs of a frame stack -/

-- a file whose calls all succeed, with datasets of these maximum dimensions
def OverlayEnv.quiet (maxDims : List Nat) : OverlayEnv :=
  ⟨fun _ => maxDims, fun _ => false, fun _ _ => false, fun _ => false, fun _ => false⟩

/-- A stack of `n` frames of one byte. -/
def frameStack (n : Nat) : Dataspace := ⟨.simple [n, 1], .all⟩

def frameRow (n k : Nat) : Dataspace := ⟨.simple [n, 1], .hyperslab [⟨[k, 0], [k, 0]⟩]⟩

def writeFrame (n k : Nat) : Event :=
  .datasetWrite [⟨0, nativeUchar, some ⟨.simple [1], .all⟩, some (frameRow n k), [[7]], none,
    some ⟨nativeUchar, frameStack n, []⟩⟩]

/-- Step 0 makes a stack of `n` frames and writes the first, step 1 makes it two and writes the second. -/
def stackRun (n : Nat) : List (Event × OverlayEnv) :=
  [.beginStep [] 0, .datasetCreate 0 [] ['f'] nativeUchar (frameStack n) [], writeFrame n 0, .endStep .quiet,
    .beginStep [] 1, .setExtent 0 [2, 1] [none, some 1] (some (frameStack n)), writeFrame 2 1, .endStep .quiet].map
    fun ev => (ev, .quiet [9, 1])

theorem coversFrame_row {n k : Nat} (hk : k < n) (path : Path) (space : Dataspace) :
    coversFrame [n, 1] (writesAt [⟨.dsetCreate, path, space⟩, ⟨.dsetWrite, path, frameRow n k⟩] path) k := by
  refine ⟨hk, fun x hx hrow => ⟨frameRow n k, ?_, ?_⟩⟩
  · unfold writesAt
    simp
  · match x, hx, hrow with
    | [a, b], hx, hrow =>
      have ha : a = k := hrow
      subst ha
      have hb : b = 0 := by
        simp only [inExtent, Bool.and_eq_true, decide_eq_true_eq] at hx
        omega
      subst hb
      simp [frameRow, Dataspace.selectsAt, RowMajor.inBox]
    | [], hx, _ => cases hx
    | [a], hx, _ => simp [inExtent] at hx
    | a :: b :: c :: l, hx, _ => simp [inExtent] at hx

/-- What a step captures of the stack. -/
def stackShapes (n k : Nat) : List Shape :=
  [⟨.dsetCreate, ['/', 'f'], frameStack n⟩, ⟨.dsetWrite, ['/', 'f'], frameRow n k⟩]

theorem eq_of_mem_stackShapes {n k : Nat} {path : Path} {space : Dataspace}
    (h : ⟨.dsetCreate, path, space⟩ ∈ stackShapes n k) : path = ['/', 'f'] ∧ space = frameStack n := by
  rcases List.mem_cons.mp h with h | h
  · cases h
    exact ⟨rfl, rfl⟩
  · cases List.mem_singleton.mp h

/-- A stack that grows by what is written: each frame is shown from its own step. -/
theorem stackRun_truthful :
    (Overlaid.after .plain (stackRun 1)).overlay.map (fun e => (e.growing, e.rows)) = [(true, [(0, 0), (1, 1)])] ∧
      (Overlaid.after .plain (stackRun 1)).Truthful := by
  have hfirst : ((Overlaid.after .plain ((stackRun 1).take 3)).writer.core.folded .quiet).pending.map
      PendingEntry.shape = stackShapes 1 0 := by decide
  have hsecond : ((Overlaid.after .plain ((stackRun 1).take 7)).writer.core.folded .quiet).pending.map
      PendingEntry.shape = stackShapes 2 1 := by decide
  have hoverlay : (Overlaid.after .plain ((stackRun 1).take 7)).overlay =
      [⟨['/', 'f'], 0, false, true, 1, [(0, 0)]⟩] := by decide
  refine ⟨by decide, overlay_truthful .plain (stackRun 1) ?_⟩
  refine ⟨trivial, trivial, trivial, fun _ => ⟨?_, ?_⟩, trivial, trivial, trivial, fun _ => ⟨?_, ?_⟩, trivial⟩
  · exact ⟨fun _ => trivial, fun _ => ⟨by decide, by decide, rfl, rfl⟩⟩
  · refine ⟨fun hf => absurd hf (by decide), fun _ => by decide, fun _ e he => (by cases he), ?_⟩
    intro _ path space hmem _ _ _ _ _
    obtain ⟨rfl, rfl⟩ := eq_of_mem_stackShapes (hfirst ▸ hmem : _ ∈ stackShapes 1 0)
    refine ⟨by decide, by decide, fun k hk => ?_⟩
    have hk' : k = 0 := Nat.lt_one_iff.mp hk
    subst hk'
    have hcovers := coversFrame_row (Nat.zero_lt_one) ['/', 'f'] (frameStack 1)
    exact hfirst.symm ▸ hcovers
  · exact ⟨fun _ => trivial, fun _ => ⟨by decide, by decide, rfl, rfl⟩⟩
  · refine ⟨fun hf => absurd hf (by decide), fun _ => by decide, fun _ e he _ _ => ?_, ?_⟩
    · have he' := List.mem_singleton.mp (hoverlay ▸ he : e ∈ [(⟨['/', 'f'], 0, false, true, 1, [(0, 0)]⟩ : OverlayEntry)])
      subst he'
      refine ⟨by decide, fun space hmem k hle hlt => ?_⟩
      obtain ⟨-, rfl⟩ := eq_of_mem_stackShapes (hsecond ▸ hmem : _ ∈ stackShapes 2 1)
      have hk : k = 1 := by
        have hlt' : k < 2 := hlt
        have hle' : 1 ≤ k := hle
        omega
      subst hk
      have hcovers := coversFrame_row (Nat.lt_succ_self 1) ['/', 'f'] (frameStack 2)
      exact hsecond.symm ▸ hcovers
    · intro _ path space hmem hunseen _ _ _ _
      obtain ⟨rfl, -⟩ := eq_of_mem_stackShapes (hsecond ▸ hmem : _ ∈ stackShapes 2 1)
      exact absurd rfl (hunseen ⟨['/', 'f'], 0, false, true, 1, [(0, 0)]⟩ (hoverlay.symm ▸ List.mem_singleton_self _))

/-- A stack that has two frames before the second is written: it is shown from step 0, which does not write it. A
spilled copy, drained later, is missing from its row. -/
theorem stackRun_untruthful :
    ¬ (Overlaid.after .plain (stackRun 2)).Truthful ∧
      ¬ (Overlaid.after .staging ((lateDrainRun ['a'] ['a']).map fun ev => (ev, .quiet []))).Truthful := by
  constructor
  · intro h
    have hleast := h.frames ⟨['/', 'f'], 0, false, true, 2, [(0, 0), (1, 0)]⟩ (by decide) rfl 1 0 rfl
    obtain ⟨m, hm, space, hspace, -, hcovers⟩ := hleast.1
    have hshapes : ((Overlaid.after .plain (stackRun 2)).writer.core.file.manifestOf 0).map
        (fun m => m.entries.map Entry.shape) = some (stackShapes 2 0) := by decide
    rw [hm] at hshapes
    have hcaptured : m.entries.map Entry.shape = stackShapes 2 0 := Option.some.inj hshapes
    rw [hcaptured] at hspace hcovers
    obtain ⟨-, rfl⟩ := eq_of_mem_stackShapes hspace
    have hwritten := hcovers [1, 0] (by decide) rfl
    have hnot : ¬ ∃ space ∈ writesAt (stackShapes 2 0) ['/', 'f'], space.selectsAt [1, 0] = true := by decide
    exact hnot hwritten
  · intro h
    have hrow := h.rows ⟨['/', 'a'], 0, false, false, 0, [(0, 0), (1, 0), (2, 2), (3, 1)]⟩ (by decide) rfl 1 0 rfl _
      (readerAdvance (some (Overlaid.after .staging ((lateDrainRun ['a'] ['a']).map
        fun ev => (ev, .quiet []))).writer.core.file.children) (some 1) Reader.init).state (.inl rfl) rfl
    revert hrow
    decide

end VolStream
