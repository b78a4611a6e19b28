import VolStream.Lib.Run
import VolStream.Writer.Independent
import VolStream.Writer.PathIndex
import VolStream.Writer.Disposal

/-!
# Spilled steps

Under the `Spill` policy a step is queued and replayed by a later `H5Fend_step`. Next to such a writer
runs one without a queue policy, which replays every step at once. What the two files hold differs as
long as something is queued, and for good if the file is closed then: the queue goes with the file
state. Otherwise they hold the same, unless a step was dropped (`Discard`), was replayed past a queued
one that names the same path, or missed a link that was still queued when it rewrote the link's target.
-/

namespace VolStream

/-! ## Two writers -/

/-- A writer, and one that does the same without a queue policy. -/
structure Twin where
  spilling : Writer
  immediate : Writer

def Twin.init (config : Config) : Twin := ⟨.init config, .init config⟩

def Twin.apply (s : Twin) (ev : Event) : Twin :=
  ⟨(s.spilling.apply ev).state,
    match ev with
    | .setQueuePolicy .. => s.immediate
    | ev => (s.immediate.apply ev).state⟩

def Twin.after (config : Config) (events : List Event) : Twin := Runs.run Twin.apply (.init config) events

/-- Every step that was committed holds what its immediate replay wrote. -/
def Twin.NothingLost (s : Twin) : Prop :=
  ∀ n < s.spilling.core.physicalStep, s.spilling.core.file.ops n = s.immediate.core.file.ops n

/-! ## When nothing is lost -/

def SpillEnv.quiet : SpillEnv := ⟨false, false, .quiet, false⟩

-- the paths the pending entries name
def Core.Names (fs : Core) (path : Path) : Prop :=
  ∃ pe ∈ fs.pending, path = pe.path ∨ attrParent pe.path = some path ∨ ∃ hard, pe.payload = .link hard path

def Core.creates (fs : Core) (path : Path) : Bool :=
  fs.pending.any fun pe => pe.kind = .dsetCreate ∧ pe.path = path

/-- The step rewrites neither the target of a queued link nor that of the link it replaces. -/
def SpillEntry.LinksSettled (q : SpillEntry) (fs : Core) : Prop :=
  ∀ (i : Nat) (e : Entry) (hard : Bool) (target : Path), q.manifest.entries[i]? = some e → e.kind = .link →
    q.args.payload i = .link hard target →
      fs.creates target = false ∧ ∀ link, fs.links.find? e.path = some link → fs.creates link.target = false

/-- The step names no path the queued step names, and not both have links. -/
structure SpillEntry.ApartFrom (q : SpillEntry) (fs : Core) : Prop where
  paths : ∀ path, fs.Names path → ¬ q.args.Names path
  links : (∀ pe ∈ fs.pending, pe.kind ≠ .link) ∨ ∀ e ∈ q.manifest.entries, e.kind ≠ .link

/-- An `H5Fend_step` that loses nothing. The first two fields say that the spill and the drain do not
fail: a queued step gets at its drain the answers its immediate replay gets, and that one succeeds. -/
structure EndDeferred (answers : Nat → ReplayEnv) (s : Twin) (env : EndEnv) : Prop where
  drains : ∀ k q, s.spilling.core.pendingSpill[k]? = some q → env.drain k = ⟨false, answers q.physicalStep⟩
  spills : (s.spilling.core.folded env).fate env.lag = .spill → env.spill = .quiet
    ∧ env.replay = answers s.spilling.core.physicalStep ∧ (endStep env s.immediate).isOk
  kept : (s.spilling.core.folded env).fate env.lag ≠ .drop
  linked : ∀ q ∈ s.spilling.core.pendingSpill, q.LinksSettled s.spilling.core
  inTurn : (s.spilling.core.folded env).fate env.lag = .replay →
    ∀ q ∈ s.spilling.left env, q.ApartFrom (s.spilling.core.folded env)

def Deferred (answers : Nat → ReplayEnv) (s : Twin) : Event → Prop
  | .endStep env => s.spilling.core.stepState = .inStep → EndDeferred answers s env
  | _ => True

/-! ## Folding -/

theorem Core.creates_over (fs base : Core) (path : Path) : (fs.over base).creates path = fs.creates path := rfl

theorem foldGroupAttr_over {fs base : Core} (hconfig : base.config = fs.config) (answer : Path → Option GroupAttr)
    (path : Path) : foldGroupAttr answer (fs.over base) path = (foldGroupAttr answer fs path).over base := by
  unfold foldGroupAttr
  by_cases hself : (fs.pending.any fun pe => decide (pe.kind = .attr ∧ pe.path = path)) = true
  · have hself' : ((fs.over base).pending.any fun pe => decide (pe.kind = .attr ∧ pe.path = path)) = true := hself
    rw [if_pos hself, if_pos hself']
  · have hself' : ¬ ((fs.over base).pending.any fun pe => decide (pe.kind = .attr ∧ pe.path = path)) = true := hself
    rw [if_neg hself, if_neg hself']
    cases answer path with
    | none => rfl
    | some a =>
      simp only
      by_cases hsafe : a.type.unsafeToCapture = true
      · rw [if_pos hsafe, if_pos hsafe]
      · rw [if_neg hsafe, if_neg hsafe, pendingAppend_over hconfig]
        cases pendingAppend fs _ with
        | none => rfl
        | some fs' => rfl

theorem foldLink_over {fs base : Core} (hconfig : base.config = fs.config) (link : Path × LinkRec) :
    foldLink (fs.over base) link = (foldLink fs link).over base := by
  unfold foldLink pendingLink
  simp only [Core.over_pending, pendingAppend_over hconfig]
  rw [apply_ite (fun fs : Core => fs.over base)]
  congr 1
  cases pendingAppend fs _ with
  | none => rfl
  | some fs' => rfl

/-- A fold over the pending buffer does not look at the rest of the commit state. -/
theorem foldl_over {α : Type} {f : Core → α → Core} (hsame : ∀ (fs : Core) (a : α), fs.SameButPending (f fs a))
    (hover : ∀ (fs base : Core) (a : α), base.config = fs.config → f (fs.over base) a = (f fs a).over base)
    (l : List α) {fs base : Core} (hconfig : base.config = fs.config) :
    l.foldl f (fs.over base) = (l.foldl f fs).over base := by
  induction l generalizing fs with
  | nil => rfl
  | cons a l ih =>
    rw [List.foldl_cons, List.foldl_cons, hover fs base a hconfig]
    obtain ⟨pending, bytes, h⟩ := hsame fs a
    exact ih (by rw [h]; exact hconfig)

/-- Linking again adds no dataset. -/
theorem creates_foldLink (fs : Core) (link : Path × LinkRec) (path : Path) :
    (foldLink fs link).creates path = fs.creates path := by
  unfold foldLink
  simp only
  split
  · unfold pendingLink
    cases happend : pendingAppend fs _ with
    | none => rfl
    | some fs' =>
      unfold pendingAppend at happend
      simp only at happend
      split at happend
      · cases happend
      · cases happend
        simp [Core.creates]
  · rfl

/-- A link whose target the step does not write is skipped. -/
theorem foldLinks_filter (links : Table Path LinkRec) (fs : Core) :
    links.foldl foldLink fs = (links.filter fun link => fs.creates link.2.target).foldl foldLink fs := by
  have hskip : ∀ (links : Table Path LinkRec) (fs' : Core), fs'.creates = fs.creates →
      links.foldl foldLink fs' = (links.filter fun link => fs.creates link.2.target).foldl foldLink fs' := by
    intro links
    induction links with
    | nil => exact fun _ _ => rfl
    | cons link links ih =>
      intro fs' hcreates
      rw [List.foldl_cons, ih _ ((funext (creates_foldLink fs' link)).trans hcreates)]
      cases hwrites : fs.creates link.2.target with
      | true => rw [List.filter_cons_of_pos (by exact hwrites), List.foldl_cons]
      | false =>
        rw [List.filter_cons_of_neg (by simp [hwrites])]
        have hkeep : foldLink fs' link = fs' := by
          have hnot : (fs'.pending.any fun pe => decide (pe.kind = .dsetCreate ∧ pe.path = link.2.target)) = false := by
            show fs'.creates link.2.target = false
            rw [hcreates]
            exact hwrites
          unfold foldLink
          simp only [hnot, Bool.false_eq_true, false_and, if_false]
        rw [hkeep]
  exact hskip links fs rfl

theorem creates_foldGroupAttr (answer : Path → Option GroupAttr) (fs : Core) (path target : Path) :
    (foldGroupAttr answer fs path).creates target = fs.creates target := by
  unfold foldGroupAttr
  split
  · rfl
  · split
    · rfl
    · split
      · rfl
      · cases happend : pendingAppend fs _ with
        | none => rfl
        | some fs' =>
          unfold pendingAppend at happend
          simp only at happend
          split at happend
          · cases happend
          · cases happend
            simp [Core.creates]

theorem creates_foldGroupAttrs (answer : Path → Option GroupAttr) (fs : Core) :
    (foldGroupAttrs answer fs).creates = fs.creates := by
  have hfold : ∀ (l : List Path) (fs : Core), (l.foldl (foldGroupAttr answer) fs).creates = fs.creates := by
    intro l
    induction l with
    | nil => exact fun _ => rfl
    | cons path l ih => exact fun fs => (ih _).trans (funext (creates_foldGroupAttr answer fs path))
  exact hfold fs.groupAttrs fs

/-- Two steps with the same captures fold alike if the links they know differ only in such as the
step does not rewrite. -/
theorem folded_over {c c' : Core} (env : EndEnv) (hover : c' = c.over c') (hconfig : c'.config = c.config)
    (hattrs : c'.groupAttrs = c.groupAttrs)
    (hlinks : c'.links.filter (fun link => c.creates link.2.target)
      = c.links.filter fun link => c.creates link.2.target) :
    (c'.folded env).pending = (c.folded env).pending
      ∧ (c'.folded env).pendingBytes = (c.folded env).pendingBytes := by
  have hfold : foldGroupAttrs env.groupAttr c'
      = (foldGroupAttrs env.groupAttr c).over { c' with groupAttrs := [] } := by
    have hover' := foldl_over (sameButPending_foldGroupAttr env.groupAttr)
      (fun fs base path h => foldGroupAttr_over h env.groupAttr path) c.groupAttrs hconfig
    unfold foldGroupAttrs
    rw [hattrs]
    conv_lhs => rw [hover]
    rw [hover']
    rfl
  obtain ⟨pending, bytes, hsame⟩ :=
    Core.SameButPending.foldl (sameButPending_foldGroupAttr env.groupAttr) c.groupAttrs c
  have hkeep : (foldGroupAttrs env.groupAttr c).links = c.links
      ∧ (foldGroupAttrs env.groupAttr c).config = c.config := by
    unfold foldGroupAttrs
    rw [hsame]
    exact ⟨rfl, rfl⟩
  have hfinal : foldLinks (foldGroupAttrs env.groupAttr c')
      = (foldLinks (foldGroupAttrs env.groupAttr c)).over { c' with groupAttrs := [] } := by
    unfold foldLinks
    rw [foldLinks_filter, foldLinks_filter (foldGroupAttrs env.groupAttr c).links, hfold, hkeep.1]
    simp only [Core.creates_over, creates_foldGroupAttrs]
    rw [← hlinks]
    exact foldl_over sameButPending_foldLink (fun fs base link h => foldLink_over h link) _
      (hconfig.trans hkeep.2.symm)
  unfold Core.folded
  rw [hfinal]
  exact ⟨rfl, rfl⟩

/-! ## Encoding -/

/-- The commit state less the tables replay and the queue policy work on: what the two writers have
in common. -/
def Core.common (fs : Core) : Core :=
  { fs.drainFrame with queuePolicy := none, reserveSlots := 0 }

theorem buildManifest_common (env : BuildEnv) (fs : Core) :
    (buildManifest env fs.common).2 = (buildManifest env fs).2
      ∧ (buildManifest env fs.common).1.writeTypeCache = (buildManifest env fs).1.writeTypeCache := by
  unfold buildManifest Core.common Core.drainFrame Core.frame
  simp only
  cases buildEntries env 0 0 fs.pending fs.writeTypeCache with
  | mk w res =>
    cases res with
    | none => exact ⟨rfl, rfl⟩
    | some pair => exact ⟨rfl, rfl⟩

/-- What is encoded does not depend on the answers, once it is. -/
theorem buildEntries_quiet {env : BuildEnv} {i off : Nat} {ps : List PendingEntry} {w w' : TypeCache}
    {res : List Entry × Nat} (h : buildEntries env i off ps w = (w', some res)) :
    buildEntries .quiet i off ps w = (w', some res) := by
  induction ps generalizing i off w w' res with
  | nil => exact h
  | cons pe ps ih =>
    unfold buildEntries at h ⊢
    simp only [BuildEnv.quiet, Bool.and_false, Bool.false_eq_true, if_false]
    split at h
    · cases h
    · split at h
      · cases h
      · split at h
        · cases h
        · simp only at h
          cases hrest : buildEntries env (i + 1) (off + pe.payload.len) ps (recordType w pe) with
          | mk w₁ res₁ =>
            rw [hrest] at h
            cases res₁ with
            | none => cases h
            | some pair =>
              have hquiet := ih hrest
              rw [BuildEnv.quiet] at hquiet
              rw [hquiet]
              exact h

theorem buildManifest_quiet {env : BuildEnv} {fs fs' : Core} {m : Step} (h : buildManifest env fs = (fs', some m)) :
    buildManifest .quiet fs = (fs', some m) := by
  unfold buildManifest at h ⊢
  cases hbuild : buildEntries env 0 0 fs.pending fs.writeTypeCache with
  | mk w res =>
    rw [hbuild] at h
    cases res with
    | none => cases h
    | some pair =>
      rw [buildEntries_quiet hbuild]
      obtain ⟨entries, total⟩ := pair
      simp only [Prod.mk.injEq] at h ⊢
      rw [Option.ite_none_left_eq_some] at h
      exact ⟨h.1, h.2.2⟩

theorem buildEntries_quiet_isSome (i off : Nat) (ps : List PendingEntry) (w : TypeCache) :
    (buildEntries .quiet i off ps w).2.isSome := by
  induction ps generalizing i off w with
  | nil => rfl
  | cons pe ps ih =>
    unfold buildEntries
    simp only [BuildEnv.quiet, Bool.and_false, Bool.false_eq_true, if_false]
    have hrest := ih (i + 1) (off + pe.payload.len) (recordType w pe)
    rw [BuildEnv.quiet] at hrest
    generalize buildEntries _ (i + 1) (off + pe.payload.len) ps (recordType w pe) = r at hrest ⊢
    obtain ⟨w', _ | pair⟩ := r
    · cases hrest
    · rfl

/-- An encoded entry's bytes lie in the payload. -/
theorem buildEntries_bounds {env : BuildEnv} {i off : Nat} {ps : List PendingEntry} {w w' : TypeCache}
    {entries : List Entry} {total : Nat} (h : buildEntries env i off ps w = (w', some (entries, total))) :
    off ≤ total ∧ ∀ e ∈ entries, e.payloadOff + e.payloadLen ≤ total := by
  induction ps generalizing i off w entries with
  | nil =>
    cases h
    exact ⟨Nat.le_refl _, fun e he => by cases he⟩
  | cons pe ps ih =>
    unfold buildEntries at h
    split at h
    · cases h
    · split at h
      · cases h
      · split at h
        · cases h
        · simp only at h
          cases hrest : buildEntries env (i + 1) (off + pe.payload.len) ps (recordType w pe) with
          | mk w₁ res₁ =>
            rw [hrest] at h
            cases res₁ with
            | none => cases h
            | some pair =>
              obtain ⟨es, n⟩ := pair
              cases h
              obtain ⟨hoff, hes⟩ := ih hrest
              refine ⟨by omega, fun e he => ?_⟩
              rcases List.mem_cons.mp he with rfl | he
              · exact hoff
              · exact hes e he

theorem outOfBounds_built {env : BuildEnv} {fs fs' : Core} {m : Step} (h : buildManifest env fs = (fs', some m))
    {args : ReplayArgs} (hargs : args.manifest = m) {e : Entry} (he : e ∈ m.entries) : args.outOfBounds e = false := by
  have hbound : e.payloadOff + e.payloadLen ≤ m.payloadBytes := by
    unfold buildManifest at h
    cases hbuild : buildEntries env 0 0 fs.pending fs.writeTypeCache with
    | mk w res =>
      rw [hbuild] at h
      cases res with
      | none => cases h
      | some pair =>
        obtain ⟨entries, total⟩ := pair
        simp only [Prod.mk.injEq] at h
        obtain ⟨-, h⟩ := h
        rw [Option.ite_none_left_eq_some, Option.some.injEq] at h
        obtain ⟨-, rfl⟩ := h
        exact (buildEntries_bounds hbuild).2 e he
  unfold ReplayArgs.outOfBounds
  rw [hargs, Bool.and_eq_false_iff]
  right
  rw [decide_eq_false_iff_not]
  omega

/-- Replay looks at the staging of the payload only for entries outside it. -/
theorem replayManifest_staged (env : ReplayEnv) (args : ReplayArgs) (staged : Bool)
    (h : ∀ e ∈ args.manifest.entries, args.outOfBounds e = false
      ∧ ReplayArgs.outOfBounds { args with staged := staged } e = false) (st : Replay) :
    replayManifest env { args with staged := staged } st = replayManifest env args st := by
  have hentry : ∀ ie ∈ replayOrder args.manifest.entries, ∀ s : Replay,
      replayEntry env { args with staged := staged } ie s = replayEntry env args ie s := by
    intro ie hie s
    obtain ⟨hargs, hstaged⟩ := h ie.2 (mem_replayOrder hie)
    unfold replayEntry resolveEntry
    rw [hargs, hstaged]
    rfl
  have hrun : ∀ (l : List (Nat × Entry)), (∀ ie ∈ l, ie ∈ replayOrder args.manifest.entries) → ∀ s : Replay,
      Outcome.runAll (replayEntry env { args with staged := staged }) l s
        = Outcome.runAll (replayEntry env args) l s := by
    intro l
    induction l with
    | nil => exact fun _ _ => rfl
    | cons ie l ih =>
      intro hl s
      rw [Outcome.runAll_cons, Outcome.runAll_cons, hentry ie (hl ie List.mem_cons_self)]
      congr 1
      exact funext (ih fun ie' hie' => hl ie' (List.mem_cons_of_mem _ hie'))
  unfold replayManifest
  rw [hrun _ (fun _ h => h)]

theorem owned_replayArgs {fs : Core} (h : fs.hasOpenPlaceholder = false) (m : Step) (i : Nat) :
    (fs.replayArgs m).owned i = false := by
  unfold Core.hasOpenPlaceholder at h
  rw [List.any_eq_false] at h
  show (fs.pending[i]?.bind (·.owner)).isSome = false
  cases hi : fs.pending[i]? with
  | none => rfl
  | some pe => simpa using h pe (List.mem_of_getElem? hi)

/-- The drain replays a queued step as `H5VL__stream_replay_step` would have. -/
theorem replayManifest_queued (env : ReplayEnv) {build : BuildEnv} {fs fs₀ fs' : Core} {m : Step}
    (hbuild : buildManifest build fs₀ = (fs', some m)) (hopen : fs.hasOpenPlaceholder = false) (n : Nat) (st : Replay) :
    replayManifest env (SpillEntry.args ⟨n, m, fs.pending.map (·.payload)⟩) st
      = replayManifest env (fs.replayArgs m) st := by
  have hargs : SpillEntry.args ⟨n, m, fs.pending.map (·.payload)⟩ = { fs.replayArgs m with staged := true } := by
    unfold SpillEntry.args Core.replayArgs
    simp only [ReplayArgs.mk.injEq, true_and, and_true]
    constructor
    · funext i
      rw [List.getElem?_map]
    · funext i
      exact (owned_replayArgs hopen m i).symm
  rw [hargs]
  refine replayManifest_staged env (fs.replayArgs m) true (fun e he => ⟨?_, ?_⟩) st
  · exact outOfBounds_built hbuild rfl he
  · exact outOfBounds_built hbuild rfl he

/-! ## Draining -/

theorem catchUp_append {answers : Nat → ReplayEnv} {l l' : List SpillEntry} {st st' : Replay}
    (h : catchUp answers (l ++ l') st = .ok st') :
    ∃ mid, catchUp answers l st = .ok mid ∧ catchUp answers l' mid = .ok st' := by
  rw [catchUp, Outcome.runAll_append, Outcome.bind_eq_ok_iff] at h
  exact h

theorem wired_catchUp (answers : Nat → ReplayEnv) (queue : List SpillEntry) (st : Replay) :
    (catchUp answers queue st).state.wired = st.wired :=
  Outcome.state_runAll (P := fun s : Replay => s.wired = st.wired)
    (fun q _ s hs => (wired_replayManifest (answers q.physicalStep) q.args (fun _ => rfl) s).trans hs) rfl

/-- A drain that does not fail catches up with the steps it takes off the queue. -/
theorem drainEntries_catchUp {answers : Nat → ReplayEnv} {env : Nat → DrainEnv} (limit : Nat) {k : Nat}
    {queue : List SpillEntry} {st last : Replay}
    (hdrain : ∀ (j : Nat) (q : SpillEntry), queue[j]? = some q → env (k + j) = ⟨false, answers q.physicalStep⟩)
    (hcatch : catchUp answers queue st = .ok last) :
    ∃ taken, queue = taken ++ (drainEntries env limit k queue st).1
      ∧ catchUp answers taken st = .ok (drainEntries env limit k queue st).2 := by
  induction queue generalizing k st with
  | nil => exact ⟨[], rfl, rfl⟩
  | cons q queue ih =>
    rw [catchUp, Outcome.runAll_cons, Outcome.bind_eq_ok_iff] at hcatch
    obtain ⟨mid, hq, hcatch⟩ := hcatch
    have henv : env k = ⟨false, answers q.physicalStep⟩ := hdrain 0 q rfl
    unfold drainEntries
    rw [henv]
    simp only [hq, Bool.false_eq_true, if_false]
    split
    · exact ⟨[], rfl, rfl⟩
    · obtain ⟨taken, hqueue, htaken⟩ := ih (k := k + 1) (fun j q' hq' => by
        have := hdrain (j + 1) q' hq'
        rwa [show k + (j + 1) = k + 1 + j from by omega] at this) hcatch
      refine ⟨q :: taken, by rw [List.cons_append, ← hqueue], ?_⟩
      rw [catchUp, Outcome.runAll_cons, hq, Outcome.bind_ok]
      exact htaken

theorem catchUp_agree {answers : Nat → ReplayEnv} {queue : List SpillEntry} {st last : Replay}
    (hcatch : catchUp answers queue st = .ok last) (st' : Replay) (h : st.core.TablesAgree st'.core)
    (hwired : st'.wired = st.wired) :
    ∃ last', catchUp answers queue st' = .ok last' ∧ last.core.TablesAgree last'.core := by
  have hrel : Outcome.Rel _ (catchUp answers queue st) (catchUp answers queue st') :=
    catchUp_tablesAgree ⟨h, hwired⟩
  rw [hcatch] at hrel
  generalize catchUp answers queue st' = o at hrel ⊢
  cases hrel with
  | @ok _ last' hlast => exact ⟨last', rfl, hlast.core⟩

theorem tablesAgree_folded (fs : Core) (env : EndEnv) : fs.TablesAgree (fs.folded env) := by
  obtain ⟨pending, bytes, hfold⟩ := folded_eq fs env
  rw [hfold]
  exact ⟨rfl, rfl, rfl, rfl, fun _ => rfl⟩

/-- After the drain the rest of the queue catches up with the same state. -/
theorem afterDrain_catchUp {answers : Nat → ReplayEnv} {w : Writer} {env : EndEnv} {last : Replay}
    (hdrain : ∀ (k : Nat) (q : SpillEntry), w.core.pendingSpill[k]? = some q →
      env.drain k = ⟨false, answers q.physicalStep⟩)
    (hcatch : catchUp answers w.core.pendingSpill ⟨w.core, [], []⟩ = .ok last) :
    (w.afterDrain env).wired = []
      ∧ ∃ last', catchUp answers (w.afterDrain env).core.pendingSpill (w.afterDrain env) = .ok last'
        ∧ last.core.TablesAgree last'.core := by
  have hqueue : (w.core.folded env).pendingSpill = w.core.pendingSpill := by
    obtain ⟨pending, bytes, hfold⟩ := folded_eq w.core env
    rw [hfold]
  obtain ⟨last₁, hcatch₁, hagree₁⟩ := catchUp_agree hcatch ⟨w.core.folded env, [], w.lookups⟩
    (tablesAgree_folded w.core env) rfl
  have hstay : (⟨w.core.folded env, [], w.lookups⟩ : Replay).wired = []
      ∧ ∃ last', catchUp answers (w.core.folded env).pendingSpill ⟨w.core.folded env, [], w.lookups⟩ = .ok last'
        ∧ last.core.TablesAgree last'.core := by
    rw [hqueue]
    exact ⟨rfl, last₁, hcatch₁, hagree₁⟩
  unfold Writer.afterDrain drained
  split
  · unfold drainFirst
    split
    · unfold drainSpill
      simp only [hqueue]
      obtain ⟨taken, htaken, hmid⟩ := drainEntries_catchUp
        ((env.lagDrain.getD (w.core.folded env).physicalStep + (w.core.folded env).reserveSlots) % 2 ^ 64)
        (fun j q hq => by rw [Nat.zero_add]; exact hdrain j q hq) hcatch₁
      generalize drainEntries env.drain
        ((env.lagDrain.getD (w.core.folded env).physicalStep + (w.core.folded env).reserveSlots) % 2 ^ 64) 0
        w.core.pendingSpill ⟨w.core.folded env, [], w.lookups⟩ = r at htaken hmid
      obtain ⟨left, mid⟩ := r
      rw [htaken] at hcatch₁
      obtain ⟨mid', hmid', hlast⟩ := catchUp_append hcatch₁
      rw [hmid] at hmid'
      cases hmid'
      have hwired := wired_catchUp answers taken ⟨w.core.folded env, [], w.lookups⟩
      rw [hmid] at hwired
      refine ⟨hwired, ?_⟩
      obtain ⟨last₂, hcatch₂, hagree₂⟩ := catchUp_agree hlast
        { mid with core := { mid.core with pendingSpill := left } } ⟨rfl, rfl, rfl, rfl, fun _ => rfl⟩ rfl
      exact ⟨last₂, hcatch₂, hagree₁.trans hagree₂⟩
    · exact hstay
  · exact hstay

/-! ## Replaying a step with others queued -/

theorem Core.common_pending {c c' : Core} (h : c'.common = c.common) : c'.pending = c.pending := by
  have := congrArg Core.pending h
  exact this

theorem Core.common_config {c c' : Core} (h : c'.common = c.common) : c'.config = c.config := by
  have := congrArg Core.config h
  exact this

theorem Core.common_physicalStep {c c' : Core} (h : c'.common = c.common) : c'.physicalStep = c.physicalStep := by
  have := congrArg Core.physicalStep h
  exact this

theorem Core.common_of_frame {c c' : Core} (h : c'.frame = c.frame) : c'.common = c.common := by
  unfold Core.common Core.drainFrame
  rw [h]

theorem Core.common_of_drainFrame {c c' : Core} (h : c'.drainFrame = c.drainFrame) : c'.common = c.common := by
  unfold Core.common
  rw [h]

theorem names_replayArgs {fs : Core} {m : Step} (hshapes : m.entries.map Entry.shape = fs.pending.map PendingEntry.shape)
    {path : Path} (h : (fs.replayArgs m).Names path) : fs.Names path := by
  obtain ⟨i, e, he, hnames⟩ := h
  have hi := congrArg (·[i]?) hshapes
  simp only [List.getElem?_map] at hi
  have he : m.entries[i]? = some e := he
  rw [he, Option.map_some] at hi
  obtain ⟨pe, hpe, hshape⟩ := Option.map_eq_some_iff.mp hi.symm
  have hpath : pe.path = e.path := congrArg Shape.path hshape
  have hpayload : (fs.replayArgs m).payload i = pe.payload := by
    unfold Core.replayArgs
    simp only [hpe, Option.map_some, Option.getD_some]
  refine ⟨pe, List.mem_of_getElem? hpe, ?_⟩
  rw [hpath, ← hpayload]
  exact hnames

theorem apart_replayArgs {q : SpillEntry} {fs : Core} {m : Step} (h : q.ApartFrom fs)
    (hshapes : m.entries.map Entry.shape = fs.pending.map PendingEntry.shape)
    (hnumber : q.manifest.physicalStep ≠ m.physicalStep) : Apart q (fs.replayArgs m) where
  number := hnumber
  paths := fun path hpath => h.paths path (names_replayArgs hshapes hpath)
  links := by
    refine h.links.imp_left fun hnone e he => ?_
    obtain ⟨i, hi⟩ := List.mem_iff_getElem?.mp he
    have hget := congrArg (·[i]?) hshapes
    simp only [List.getElem?_map] at hget
    have hi : m.entries[i]? = some e := hi
    rw [hi, Option.map_some] at hget
    obtain ⟨pe, hpe, hshape⟩ := Option.map_eq_some_iff.mp hget.symm
    rw [← show pe.kind = e.kind from congrArg Shape.kind hshape]
    exact hnone pe (List.mem_of_getElem? hpe)

theorem tablesAgree_settled {n : Nat} {o o' : Outcome Replay} (h : Outcome.Rel (Replay.Beside Core.TablesAgree) o o')
    (unlinkFails : Bool) : (settledCore n unlinkFails o).TablesAgree (settledCore n unlinkFails o') := by
  cases h with
  | ok hs => exact hs.core
  | fail hs => exact hs.core.undone n unlinkFails

-- a step that cannot even be encoded
def ReplayArgs.nothing (n : Nat) : ReplayArgs := ⟨⟨n, [], 0, [], 0⟩, fun _ => .bytes [], fun _ => false, false⟩

theorem apart_nothing {q : SpillEntry} {n : Nat} (h : q.manifest.physicalStep ≠ n) : Apart q (.nothing n) where
  number := h
  paths := by
    rintro path ⟨i, e, he, -⟩
    cases he
  links := .inl fun e he => by cases he

/-- A step replayed with `queue` still queued, and replayed in its turn: the same outcome, and the
queue catches up with the same tables. -/
theorem replayManifest_past {answers : Nat → ReplayEnv} (env : ReplayEnv) (args : ReplayArgs) (unlinkFails : Bool)
    {queue : List SpillEntry} {a b last : Replay} (hcatch : catchUp answers queue a = .ok last)
    (hagree : last.core.TablesAgree b.core) (hwired : a.wired = []) (hwired' : b.wired = [])
    (hfresh : a.core.Fresh args.manifest.physicalStep) (hapart : ∀ q ∈ queue, Apart q args) :
    Outcome.Rel (fun s s' => s'.wired = s.wired) (replayManifest env args a) (replayManifest env args b)
      ∧ ∃ last', catchUp answers queue
          ⟨settledCore args.manifest.physicalStep unlinkFails (replayManifest env args a), [], []⟩ = .ok last'
        ∧ last'.core.TablesAgree (settledCore args.manifest.physicalStep unlinkFails (replayManifest env args b)) := by
  obtain ⟨hout, last', hcatch', hsettled⟩ := catchUp_past env args unlinkFails hcatch hwired hfresh hapart [] b.lookups
  have hbeside : Replay.Beside Core.TablesAgree ⟨last.core, [], b.lookups⟩ b := ⟨hagree, hwired'⟩
  have hturn := beside_replayManifest (congruence_tablesAgree args.manifest.physicalStep) hbeside env rfl
    (fun _ _ => trivial)
  refine ⟨hout.comp hturn fun _ _ _ h h' => h'.wired.trans h, last', hcatch', ?_⟩
  exact hsettled.symm.trans (tablesAgree_settled hturn unlinkFails)

theorem replayStep_past {answers : Nat → ReplayEnv} (build : BuildEnv) (env : ReplayEnv) (unlinkFails : Bool)
    {queue : List SpillEntry} {a b last : Replay} (hcatch : catchUp answers queue a = .ok last)
    (hagree : last.core.TablesAgree b.core) (hwired : a.wired = []) (hwired' : b.wired = [])
    (hcommon : b.core.common = a.core.common) (hfresh : a.core.Fresh a.core.physicalStep)
    (hnumber : ∀ q ∈ queue, q.manifest.physicalStep ≠ a.core.physicalStep)
    (hapart : ∀ q ∈ queue, q.ApartFrom a.core) :
    Outcome.Rel (fun s s' => s'.wired = s.wired) (replayStep build env a) (replayStep build env b)
      ∧ ∃ last', catchUp answers queue
          ⟨settledCore a.core.physicalStep unlinkFails (replayStep build env a), [], []⟩ = .ok last'
        ∧ last'.core.TablesAgree (settledCore a.core.physicalStep unlinkFails (replayStep build env b)) := by
  obtain ⟨hres, -⟩ := buildManifest_common build a.core
  obtain ⟨hres', -⟩ := buildManifest_common build b.core
  rw [hcommon] at hres'
  unfold replayStep
  cases hbuild : buildManifest build a.core with
  | mk fs res =>
    cases hbuild' : buildManifest build b.core with
    | mk fs' res' =>
      rw [hbuild] at hres
      rw [hbuild'] at hres'
      obtain rfl : res' = res := hres'.symm.trans hres
      obtain ⟨cache, hfs, hm⟩ := buildManifest_eq hbuild
      obtain ⟨cache', hfs', -⟩ := buildManifest_eq hbuild'
      have hstart : a.core.TablesAgree fs := by
        rw [hfs]
        exact ⟨rfl, rfl, rfl, rfl, fun _ => rfl⟩
      have hstart' : b.core.TablesAgree fs' := by
        rw [hfs']
        exact ⟨rfl, rfl, rfl, rfl, fun _ => rfl⟩
      have hfresh' : fs.Fresh a.core.physicalStep := by
        rw [hfs]
        exact hfresh
      obtain ⟨last₁, hcatch₁, hagree₁⟩ := catchUp_agree hcatch { a with core := fs } hstart rfl
      have hagree₂ : last₁.core.TablesAgree fs' := hagree₁.symm.trans (hagree.trans hstart')
      cases res' with
      | none =>
        -- nothing was done
        obtain ⟨-, hpast⟩ := replayManifest_past { ReplayEnv.quiet with startFails := true }
          (.nothing a.core.physicalStep) unlinkFails (b := { b with core := fs' }) hcatch₁ hagree₂ hwired hwired' hfresh'
          (fun q hq => apart_nothing (hnumber q hq))
        exact ⟨.fail (hwired'.trans hwired.symm), hpast⟩
      | some m =>
        have hargs : fs'.replayArgs m = fs.replayArgs m := by
          unfold Core.replayArgs
          rw [hfs, hfs']
          simp only [Core.common_pending hcommon, Core.common_config hcommon]
        obtain ⟨hm, -⟩ := hm m rfl
        have hshapes : m.entries.map Entry.shape = fs.pending.map PendingEntry.shape := by
          have := shapes_buildManifest (by rw [hbuild] : (buildManifest build a.core).2 = some m)
          rw [hfs]
          exact this
        simp only [hargs]
        rw [← hm] at hfresh' ⊢
        refine replayManifest_past env (fs.replayArgs m) unlinkFails (b := { b with core := fs' }) hcatch₁ hagree₂
          hwired hwired' hfresh' (fun q hq => apart_replayArgs ⟨?_, ?_⟩ hshapes ?_)
        · rw [hfs]
          exact (hapart q hq).paths
        · rw [hfs]
          exact (hapart q hq).links
        · rw [hm]
          exact hnumber q hq

theorem common_replayStep (build : BuildEnv) (env : ReplayEnv) (st : Replay) :
    (replayStep build env st).state.core.common
      = { st.core.common with writeTypeCache := (buildManifest build st.core.common).1.writeTypeCache } := by
  rw [(buildManifest_common build st.core).2]
  unfold replayStep
  cases hbuild : buildManifest build st.core with
  | mk fs res =>
    obtain ⟨cache, rfl, -⟩ := buildManifest_eq hbuild
    cases res with
    | none => rfl
    | some m => exact Core.common_of_frame (frame_replayManifest env _ _)

/-! ## The two writers side by side -/

/-- What the queued steps still have to do is all that the spilling writer is behind. -/
structure CaughtUp (answers : Nat → ReplayEnv) (s : Twin) : Prop where
  wrappers : s.immediate.wrappers = s.spilling.wrappers
  common : s.immediate.core.common = s.spilling.core.common
  policy : s.immediate.core.queuePolicy = none
  orderly : s.spilling.core.Orderly
  caught : ∃ last, catchUp answers s.spilling.core.pendingSpill ⟨s.spilling.core, [], []⟩ = .ok last
    ∧ last.core.TablesAgree s.immediate.core

theorem caughtUp_init (answers : Nat → ReplayEnv) (config : Config) : CaughtUp answers (.init config) where
  wrappers := rfl
  common := rfl
  policy := rfl
  orderly := orderly_run config []
  caught := ⟨_, rfl, .refl _⟩

/-- Events that leave the tables and the queue. -/
theorem CaughtUp.keep {answers : Nat → ReplayEnv} {s : Twin} (h : CaughtUp answers s) {w r : Writer}
    (hwrappers : r.wrappers = w.wrappers) (hcommon : r.core.common = w.core.common)
    (hpolicy : r.core.queuePolicy = none) (horderly : w.core.Orderly)
    (hw : s.spilling.core.TablesAgree w.core) (hqueue : w.core.pendingSpill = s.spilling.core.pendingSpill)
    (hr : s.immediate.core.TablesAgree r.core) : CaughtUp answers ⟨w, r⟩ where
  wrappers := hwrappers
  common := hcommon
  policy := hpolicy
  orderly := horderly
  caught := by
    obtain ⟨last, hcatch, hagree⟩ := h.caught
    obtain ⟨last', hcatch', hagree'⟩ := catchUp_agree hcatch ⟨w.core, [], []⟩ hw rfl
    rw [hqueue]
    exact ⟨last', hcatch', hagree'.symm.trans (hagree.trans hr)⟩

theorem CaughtUp.capture {answers : Nat → ReplayEnv} {s : Twin} (h : CaughtUp answers s) {ev : Event}
    (hcap : ev.capture) : CaughtUp answers ⟨(s.spilling.apply ev).state, (s.immediate.apply ev).state⟩ := by
  have hover : s.immediate.core = s.spilling.core.over s.immediate.core := by
    unfold Core.over
    rw [← Core.common_pending h.common, ← show s.immediate.core.pendingBytes = s.spilling.core.pendingBytes from by
      have := congrArg Core.pendingBytes h.common
      exact this]
  have hstate : s.immediate.core.stepState = s.spilling.core.stepState := by
    have := congrArg Core.stepState h.common
    exact this
  have hstart : s.spilling.CaptureAlike (fun _ => False) s.immediate.core s.immediate :=
    ⟨hover, fun k _ => congrFun h.wrappers k, hstate, Core.common_config h.common⟩
  have halike := captureAlike_apply hstart hcap (fun _ _ hf => hf)
  obtain ⟨p, b, hcore⟩ := (captured_apply s.spilling hcap).core
  refine h.keep (funext fun k => halike.wrappers k (fun hf => hf)) ?_ ?_ (orderly_apply h.orderly ev) ?_ ?_ ?_
  · rw [halike.core, hcore]
    exact congrArg (fun c : Core => { c with pending := p, pendingBytes := b }) h.common
  · rw [halike.core]
    exact h.policy
  · rw [hcore]
    exact ⟨rfl, rfl, rfl, rfl, fun _ => rfl⟩
  · rw [hcore]
  · rw [halike.core]
    exact ⟨rfl, rfl, rfl, rfl, fun _ => rfl⟩

/-- The links noted by the queued steps are not those this step links again. -/
theorem links_catchUp {answers : Nat → ReplayEnv} {queue : List SpillEntry} {fs : Core} {last : Replay}
    (hcatch : catchUp answers queue ⟨fs, [], []⟩ = .ok last) (hsettled : ∀ q ∈ queue, q.LinksSettled fs) :
    last.core.links.filter (fun link => fs.creates link.2.target)
      = fs.links.filter fun link => fs.creates link.2.target := by
  let Noted := fun (path : Path) (hard : Bool) (target : Path) => ∃ q ∈ queue, ∃ (i : Nat) (e : Entry),
    q.manifest.entries[i]? = some e ∧ e.kind = .link ∧ e.path = path ∧ q.args.payload i = .link hard target
  let P := fun links : Table Path LinkRec =>
    links.filter (fun link => fs.creates link.2.target) = fs.links.filter (fun link => fs.creates link.2.target)
      ∧ ∀ path hard target, Noted path hard target → ∀ link, links.find? path = some link →
        fs.creates link.target = false
  have hstart : P fs.links := by
    refine ⟨rfl, ?_⟩
    rintro path hard target ⟨q, hq, i, e, he, hkind, rfl, hpayload⟩
    exact (hsettled q hq i e hard target he hkind hpayload).2
  have hset : ∀ q ∈ queue, ∀ (i : Nat) (e : Entry) (hard : Bool) (target : Path), q.manifest.entries[i]? = some e →
      e.kind = .link → q.args.payload i = .link hard target → ∀ links, P links →
        P (links.set e.path ⟨target, hard⟩) := by
    intro q hq i e hard target he hkind hpayload links hlinks
    have hnew : fs.creates target = false := (hsettled q hq i e hard target he hkind hpayload).1
    refine ⟨?_, fun path hard' target' hnoted link hlink => ?_⟩
    · rw [Table.filter_set links hnew (hlinks.2 e.path hard target ⟨q, hq, i, e, he, hkind, rfl, hpayload⟩)]
      exact hlinks.1
    · rw [Table.find?_set] at hlink
      split at hlink
      · cases hlink
        exact hnew
      · exact hlinks.2 path hard' target' hnoted link hlink
  have hrun : P (catchUp answers queue ⟨fs, [], []⟩).state.core.links :=
    Outcome.state_runAll (P := fun st : Replay => P st.core.links)
      (fun q hq st hst => links_rule (answers q.physicalStep) q.args (hset q hq) st hst) hstart
  rw [hcatch] at hrun
  exact hrun.1

/-- The steps both writers end are the same. -/
theorem CaughtUp.folded {answers : Nat → ReplayEnv} {s : Twin} (h : CaughtUp answers s) {env : EndEnv}
    (hlinked : ∀ q ∈ s.spilling.core.pendingSpill, q.LinksSettled s.spilling.core) :
    (s.immediate.core.folded env).common = (s.spilling.core.folded env).common := by
  obtain ⟨last, hcatch, hagree⟩ := h.caught
  have hbytes : s.immediate.core.pendingBytes = s.spilling.core.pendingBytes := by
    have := congrArg Core.pendingBytes h.common
    exact this
  have hattrs : s.immediate.core.groupAttrs = s.spilling.core.groupAttrs := by
    have := congrArg Core.groupAttrs h.common
    exact this
  have hover : s.immediate.core = s.spilling.core.over s.immediate.core := by
    unfold Core.over
    rw [← Core.common_pending h.common, ← hbytes]
  obtain ⟨hpending, hbytes'⟩ := folded_over env hover (Core.common_config h.common) hattrs (by
    rw [hagree.links]
    exact links_catchUp hcatch hlinked)
  obtain ⟨p, b, hfold⟩ := folded_eq s.spilling.core env
  obtain ⟨p', b', hfold'⟩ := folded_eq s.immediate.core env
  rw [hfold, hfold'] at hpending hbytes'
  simp only at hpending hbytes'
  rw [hfold, hfold', hpending, hbytes']
  exact congrArg (fun c : Core => { c with
    pending := p, pendingBytes := b, groupAttrs := [], stepState := .committing }) h.common

theorem applyQueuePolicy_unset (env : EndEnv) {st : Replay} (h : st.core.queuePolicy = none) :
    applyQueuePolicy env st = replayStep env.build env.replay st := by
  unfold applyQueuePolicy
  rw [h, ite_self]

/-- Ending the step, once its replay or its spill has been dealt with. -/
theorem CaughtUp.finish {answers : Nat → ReplayEnv} {w r : Writer} {env : EndEnv} {oa ob : Outcome Replay}
    (hin : w.core.stepState = .inStep) (hin' : r.core.stepState = .inStep)
    (ha : applyQueuePolicy env ⟨w.core.folded env, [], w.lookups⟩ = oa)
    (hb : applyQueuePolicy env ⟨r.core.folded env, [], r.lookups⟩ = ob)
    (hout : Outcome.Rel (fun s s' => s'.wired = s.wired) oa ob)
    (hwrappers : r.wrappers = w.wrappers) (hpending : (r.core.folded env).pending = (w.core.folded env).pending)
    (hcommon : ob.state.core.common = oa.state.core.common) (hpolicy : ob.state.core.queuePolicy = none)
    (horderly : w.core.Orderly)
    (hcaught : ∃ last, catchUp answers oa.state.core.pendingSpill
        ⟨settledCore oa.state.core.physicalStep env.unlinkFails oa, [], []⟩ = .ok last
      ∧ last.core.TablesAgree (settledCore oa.state.core.physicalStep env.unlinkFails ob)) :
    CaughtUp answers ⟨(endStep env w).state, (endStep env r).state⟩ := by
  have horderly' : (endStep env w).state.core.Orderly := orderly_endStep horderly
  obtain ⟨last, hcatch, hagree⟩ := hcaught
  unfold endStep at horderly' ⊢
  rw [if_neg (not_not.mpr hin)] at horderly' ⊢
  rw [if_neg (not_not.mpr hin')]
  simp only [ha, hb, hpending] at horderly' ⊢
  cases hout with
  | @ok sa sb hwired =>
    have hnumber : sb.core.physicalStep = sa.core.physicalStep := Core.common_physicalStep hcommon
    refine ⟨?_, ?_, hpolicy, horderly', ?_⟩
    · simp only [Outcome.state_ok, hwired, hwrappers]
    · exact congrArg (fun c : Core => { c with
        pending := [], pendingBytes := 0, logicalIds := [], physicalStep := c.physicalStep + 1, stepState := .notInStep })
        hcommon
    · obtain ⟨last', hcatch', hagree'⟩ := catchUp_agree hcatch
        ⟨{ sa.core.discardPending with physicalStep := sa.core.physicalStep + 1, stepState := .notInStep }, [], []⟩
        ⟨rfl, rfl, rfl, rfl, fun _ => rfl⟩ rfl
      exact ⟨last', hcatch', hagree'.symm.trans (hagree.trans ⟨rfl, rfl, rfl, rfl, fun _ => rfl⟩)⟩
  | @fail sa sb hwired =>
    have hnumber : sb.core.physicalStep = sa.core.physicalStep := Core.common_physicalStep hcommon
    refine ⟨?_, ?_, hpolicy, horderly', ?_⟩
    · simp only [Outcome.state_fail, hwired, hwrappers]
    · exact congrArg (fun c : Core => { c with
        pending := [], pendingBytes := 0, logicalIds := [], stepState := .notInStep }) hcommon
    · obtain ⟨last', hcatch', hagree'⟩ := catchUp_agree hcatch
        ⟨sa.core.discardPending.dropStep env.unlinkFails, [], []⟩ ⟨rfl, rfl, rfl, rfl, fun _ => rfl⟩ rfl
      refine ⟨last', hcatch', hagree'.symm.trans (hagree.trans ?_)⟩
      show (sb.core.undone sa.core.physicalStep env.unlinkFails).TablesAgree _
      rw [← hnumber]
      exact ⟨rfl, rfl, rfl, rfl, fun _ => rfl⟩

/-- The state after the drain. -/
theorem CaughtUp.afterDrain {answers : Nat → ReplayEnv} {s : Twin} (h : CaughtUp answers s) {env : EndEnv}
    (hdrain : ∀ (k : Nat) (q : SpillEntry), s.spilling.core.pendingSpill[k]? = some q →
      env.drain k = ⟨false, answers q.physicalStep⟩) :
    (s.spilling.afterDrain env).wired = []
      ∧ (∃ last, catchUp answers (s.spilling.afterDrain env).core.pendingSpill (s.spilling.afterDrain env) = .ok last
        ∧ last.core.TablesAgree (s.immediate.core.folded env))
      ∧ (s.spilling.afterDrain env).core.Fresh s.spilling.core.physicalStep
      ∧ ∀ q ∈ (s.spilling.afterDrain env).core.pendingSpill,
          q.manifest.physicalStep ≠ s.spilling.core.physicalStep := by
  obtain ⟨last, hcatch, hagree⟩ := h.caught
  obtain ⟨hwired, last', hcatch', hagree'⟩ := afterDrain_catchUp hdrain hcatch
  obtain ⟨p, b, hfold⟩ := folded_eq s.spilling.core env
  have hbelow : Below s.spilling.core.physicalStep (s.spilling.afterDrain env).core.pathIndex
      ∧ ∀ q ∈ (s.spilling.afterDrain env).core.pendingSpill, q.manifest.physicalStep < s.spilling.core.physicalStep := by
    unfold Writer.afterDrain drained
    rw [hfold]
    split
    · unfold drainFirst
      split
      · exact below_drainEntries h.orderly.queued h.orderly.indexed
      · exact ⟨h.orderly.indexed, h.orderly.queued⟩
    · exact ⟨h.orderly.indexed, h.orderly.queued⟩
  refine ⟨hwired, ⟨last', hcatch', hagree'.symm.trans (hagree.trans (tablesAgree_folded _ env))⟩, ?_, ?_⟩
  · exact fun path hmem => Nat.lt_irrefl _ (hbelow.1 path _ hmem)
  · exact fun q hq => Nat.ne_of_lt (hbelow.2 q hq)

theorem queuePolicy_replayStep (build : BuildEnv) (env : ReplayEnv) (st : Replay) :
    (replayStep build env st).state.core.queuePolicy = st.core.queuePolicy := by
  have hframe := congrArg Core.queuePolicy (policyFrame_replayStep build env st)
  exact hframe

theorem physicalStep_replayStep (build : BuildEnv) (env : ReplayEnv) (st : Replay) :
    (replayStep build env st).state.core.physicalStep = st.core.physicalStep := by
  have hframe := congrArg Core.physicalStep (policyFrame_replayStep build env st)
  exact hframe

/-- A step replayed at once. -/
theorem CaughtUp.replays {answers : Nat → ReplayEnv} {s : Twin} (h : CaughtUp answers s) {env : EndEnv}
    (hin : s.spilling.core.stepState = .inStep) (hok : EndDeferred answers s env)
    (hfate : (s.spilling.core.folded env).fate env.lag = .replay) :
    CaughtUp answers ⟨(endStep env s.spilling).state, (endStep env s.immediate).state⟩ := by
  have hcommon : (s.immediate.core.folded env).common = (s.spilling.core.folded env).common := h.folded hok.linked
  obtain ⟨hwired, ⟨last, hcatch, hagree⟩, hfresh, hnumber⟩ := h.afterDrain hok.drains
  have hdrained : (s.spilling.afterDrain env).core.common = (s.spilling.core.folded env).common :=
    Core.common_of_drainFrame (s.spilling.afterDrain_frame env)
  have hin' : s.immediate.core.stepState = .inStep := by
    have := congrArg Core.stepState h.common
    exact Eq.trans this hin
  have ha : applyQueuePolicy env ⟨s.spilling.core.folded env, [], s.spilling.lookups⟩
      = replayStep env.build env.replay (s.spilling.afterDrain env) := by
    rw [applyQueuePolicy_eq]
    simp only [hfate]
    rfl
  have hb : applyQueuePolicy env ⟨s.immediate.core.folded env, [], s.immediate.lookups⟩
      = replayStep env.build env.replay ⟨s.immediate.core.folded env, [], s.immediate.lookups⟩ :=
    applyQueuePolicy_unset env ((Core.queuePolicy_folded _ env).trans h.policy)
  have hleft : s.spilling.left env = (s.spilling.afterDrain env).core.pendingSpill := if_pos hin
  have hpending : (s.spilling.afterDrain env).core.pending = (s.spilling.core.folded env).pending :=
    Core.common_pending hdrained
  have hstep := s.spilling.afterDrain_physicalStep env
  rw [← hstep] at hfresh hnumber
  obtain ⟨hout, hcaught⟩ := replayStep_past env.build env.replay env.unlinkFails hcatch hagree hwired
    (b := ⟨s.immediate.core.folded env, [], s.immediate.lookups⟩) rfl (hcommon.trans hdrained.symm) hfresh hnumber
    (fun q hq => by
      obtain ⟨hpaths, hlinks⟩ := hok.inTurn hfate q (by rw [hleft]; exact hq)
      refine ⟨?_, ?_⟩
      · unfold Core.Names
        rw [hpending]
        exact hpaths
      · rw [hpending]
        exact hlinks)
  refine CaughtUp.finish hin hin' ha hb hout h.wrappers (Core.common_pending hcommon) ?_ ?_ h.orderly ?_
  · rw [common_replayStep, common_replayStep, hdrained]
    simp only [hcommon]
  · rw [queuePolicy_replayStep]
    exact (Core.queuePolicy_folded _ env).trans h.policy
  · rw [pendingSpill_replayStep, physicalStep_replayStep]
    exact hcaught

/-- A spill that does not fail queues the step as it is encoded. -/
theorem spillStep_quiet (fs : Core) : ∃ m cache, buildManifest .quiet fs = ({ fs with writeTypeCache := cache }, some m)
    ∧ spillStep .quiet fs = .ok { fs with
        file := fs.file.ensure fs.physicalStep, writeTypeCache := cache
        pendingSpill := fs.pendingSpill ++ [⟨fs.physicalStep, m, fs.pending.map (·.payload)⟩] } := by
  have hsome := buildEntries_quiet_isSome 0 0 fs.pending fs.writeTypeCache
  unfold spillStep discardStep buildManifest SpillEnv.quiet
  simp only [Bool.false_eq_true, if_false, Outcome.bind_ok]
  generalize buildEntries .quiet 0 0 fs.pending fs.writeTypeCache = r at hsome ⊢
  obtain ⟨cache, _ | pair⟩ := r
  · cases hsome
  · exact ⟨_, cache, rfl, rfl⟩

theorem hasOpenPlaceholder_of_spill {fs : Core} {lag : Option Nat} (h : fs.fate lag = .spill) :
    fs.hasOpenPlaceholder = false := by
  unfold Core.fate at h
  split at h
  · cases h
  · split at h
    · rename_i hpressure
      unfold Core.underPressure at hpressure
      split at hpressure
      · cases hpressure
      · rw [Bool.and_eq_true] at hpressure
        simpa using hpressure.2
    · cases h

/-- A replay that goes through. -/
theorem replayStep_eq_ok {build : BuildEnv} {env : ReplayEnv} {st st' : Replay}
    (h : replayStep build env st = .ok st') : ∃ m cache,
      buildManifest .quiet st.core = ({ st.core with writeTypeCache := cache }, some m)
        ∧ replayManifest env (Core.replayArgs { st.core with writeTypeCache := cache } m)
          { st with core := { st.core with writeTypeCache := cache } } = .ok st' := by
  unfold replayStep at h
  cases hbuild : buildManifest build st.core with
  | mk fs res =>
    rw [hbuild] at h
    obtain ⟨cache, hfs, -⟩ := buildManifest_eq hbuild
    cases res with
    | none => cases h
    | some m =>
      subst hfs
      exact ⟨m, cache, buildManifest_quiet hbuild, h⟩

/-- The queue with the spilled step at its end catches up with the immediate replay of that step. -/
theorem catchUp_spilled {answers : Nat → ReplayEnv} {a b last sb : Replay} {build : BuildEnv} {fs fs' : Core} {m : Step}
    (hcatch : catchUp answers a.core.pendingSpill a = .ok last) (hagree : last.core.TablesAgree b.core)
    (hwired : a.wired = []) (hwired' : b.wired = []) (hbuild : buildManifest build a.core = (fs', some m))
    (hopen : a.core.hasOpenPlaceholder = false)
    (hreplay : replayManifest (answers a.core.physicalStep) (a.core.replayArgs m) b = .ok sb)
    (hfs : a.core.TablesAgree fs) :
    ∃ last', catchUp answers (a.core.pendingSpill
        ++ [⟨a.core.physicalStep, m, a.core.pending.map (·.payload)⟩]) ⟨fs, [], []⟩ = .ok last'
      ∧ last'.core.TablesAgree sb.core := by
  obtain ⟨last₁, hcatch₁, hagree₁⟩ := catchUp_agree hcatch ⟨fs, [], []⟩ hfs hwired.symm
  have hwired₁ := wired_catchUp answers a.core.pendingSpill ⟨fs, [], []⟩
  rw [hcatch₁] at hwired₁
  have hbeside : b.Beside Core.TablesAgree last₁ := ⟨(hagree₁.symm.trans hagree).symm, hwired₁.trans hwired'.symm⟩
  have hturn := beside_replayManifest (congruence_tablesAgree (a.core.replayArgs m).manifest.physicalStep) hbeside
    (answers a.core.physicalStep) rfl (fun _ _ => trivial)
  rw [hreplay, ← replayManifest_queued _ hbuild hopen a.core.physicalStep] at hturn
  rw [catchUp, Outcome.runAll_append]
  show ∃ last', (catchUp answers a.core.pendingSpill ⟨fs, [], []⟩).bind _ = .ok last' ∧ _
  rw [hcatch₁, Outcome.bind_ok, Outcome.runAll_cons]
  generalize replayManifest (answers a.core.physicalStep) _ last₁ = o at hturn ⊢
  cases hturn with
  | @ok _ z hz => exact ⟨z, rfl, hz.core.symm⟩

/-- A step that is spilled. -/
theorem CaughtUp.spills {answers : Nat → ReplayEnv} {s : Twin} (h : CaughtUp answers s) {env : EndEnv}
    (hin : s.spilling.core.stepState = .inStep) (hok : EndDeferred answers s env)
    (hfate : (s.spilling.core.folded env).fate env.lag = .spill) :
    CaughtUp answers ⟨(endStep env s.spilling).state, (endStep env s.immediate).state⟩ := by
  obtain ⟨hspill, hanswers, himmediate⟩ := hok.spills hfate
  have hcommon : (s.immediate.core.folded env).common = (s.spilling.core.folded env).common := h.folded hok.linked
  obtain ⟨hwired, ⟨last, hcatch, hagree⟩, -, -⟩ := h.afterDrain hok.drains
  have hdrained : (s.spilling.afterDrain env).core.common = (s.spilling.core.folded env).common :=
    Core.common_of_drainFrame (s.spilling.afterDrain_frame env)
  have hin' : s.immediate.core.stepState = .inStep := by
    have := congrArg Core.stepState h.common
    exact Eq.trans this hin
  have hopen : (s.spilling.afterDrain env).core.hasOpenPlaceholder = false := by
    have := hasOpenPlaceholder_of_spill hfate
    unfold Core.hasOpenPlaceholder at this ⊢
    rw [Core.common_pending hdrained]
    exact this
  have hnumber := s.spilling.afterDrain_physicalStep env
  have ha : applyQueuePolicy env ⟨s.spilling.core.folded env, [], s.spilling.lookups⟩
      = spilled env (s.spilling.afterDrain env) := by
    rw [applyQueuePolicy_eq]
    simp only [hfate]
    rfl
  have hb : applyQueuePolicy env ⟨s.immediate.core.folded env, [], s.immediate.lookups⟩
      = replayStep env.build env.replay ⟨s.immediate.core.folded env, [], s.immediate.lookups⟩ :=
    applyQueuePolicy_unset env ((Core.queuePolicy_folded _ env).trans h.policy)
  -- the immediate replay goes through
  obtain ⟨sb, hsb⟩ : ∃ sb, replayStep env.build env.replay
      ⟨s.immediate.core.folded env, [], s.immediate.lookups⟩ = .ok sb := by
    unfold endStep at himmediate
    rw [if_neg (not_not.mpr hin')] at himmediate
    simp only [hb] at himmediate
    cases hreplay : replayStep env.build env.replay ⟨s.immediate.core.folded env, [], s.immediate.lookups⟩ with
    | ok sb => exact ⟨sb, rfl⟩
    | fail sb =>
      rw [hreplay] at himmediate
      cases himmediate
  rw [hsb] at hb
  obtain ⟨m', cache', hbuild', hreplay⟩ := replayStep_eq_ok hsb
  generalize s.spilling.afterDrain env = a at hwired hcatch hdrained hopen hnumber ha
  obtain ⟨m, cache, hbuild, hspilled⟩ := spillStep_quiet a.core
  have hspill' : spilled env a = .ok { a with core := { a.core with
      file := a.core.file.ensure a.core.physicalStep, writeTypeCache := cache
      pendingSpill := a.core.pendingSpill ++ [⟨a.core.physicalStep, m, a.core.pending.map (·.payload)⟩] } } := by
    unfold spilled
    rw [hspill, hspilled]
  rw [hspill'] at ha
  -- both encoders made the same manifest
  have hac : (s.immediate.core.folded env).common = a.core.common := hcommon.trans hdrained.symm
  obtain ⟨hres, hcache⟩ := buildManifest_common .quiet a.core
  obtain ⟨hres', hcache'⟩ := buildManifest_common .quiet (s.immediate.core.folded env)
  rw [hac] at hres' hcache'
  obtain rfl : m' = m := by
    rw [hbuild] at hres
    rw [hbuild'] at hres'
    exact Option.some.inj (hres'.symm.trans hres)
  obtain rfl : cache' = cache := by
    rw [hbuild] at hcache
    rw [hbuild'] at hcache'
    exact hcache'.symm.trans hcache
  have hargs : Core.replayArgs { s.immediate.core.folded env with writeTypeCache := cache' } m' = a.core.replayArgs m' := by
    unfold Core.replayArgs
    simp only [Core.common_pending hac, Core.common_config hac]
  rw [hargs, hanswers, ← hnumber] at hreplay
  have hstart : last.core.TablesAgree { s.immediate.core.folded env with writeTypeCache := cache' } :=
    hagree.trans ⟨rfl, rfl, rfl, rfl, fun _ => rfl⟩
  have hcommonb : Core.common { s.immediate.core.folded env with writeTypeCache := cache' }
      = Core.common { a.core with writeTypeCache := cache' } :=
    congrArg (fun c : Core => { c with writeTypeCache := cache' }) hac
  have hpolicyb : Core.queuePolicy { s.immediate.core.folded env with writeTypeCache := cache' } = none :=
    (Core.queuePolicy_folded _ env).trans h.policy
  generalize ({ s.immediate.core.folded env with writeTypeCache := cache' } : Core) = fsb
    at hreplay hstart hcommonb hpolicyb
  have hframe := frame_replayManifest (answers a.core.physicalStep) (a.core.replayArgs m')
    ⟨fsb, [], s.immediate.lookups⟩
  have hwiredb := wired_replayManifest (answers a.core.physicalStep) (a.core.replayArgs m') (owned_replayArgs hopen m')
    ⟨fsb, [], s.immediate.lookups⟩
  rw [hreplay] at hframe hwiredb
  refine CaughtUp.finish hin hin' ha hb (.ok ?_) h.wrappers (Core.common_pending hcommon) ?_ ?_ h.orderly ?_
  · exact Eq.trans hwiredb hwired.symm
  · exact (Core.common_of_frame hframe).trans hcommonb
  · have hkept := congrArg Core.queuePolicy hframe
    exact Eq.trans hkept hpolicyb
  · refine catchUp_spilled hcatch hstart hwired rfl hbuild hopen hreplay ⟨rfl, rfl, rfl, rfl, fun k => ?_⟩
    exact StepFile.ops_ensure _ _ k

theorem CaughtUp.endStep {answers : Nat → ReplayEnv} {s : Twin} (h : CaughtUp answers s) {env : EndEnv}
    (hok : s.spilling.core.stepState = .inStep → EndDeferred answers s env) :
    CaughtUp answers ⟨(endStep env s.spilling).state, (endStep env s.immediate).state⟩ := by
  by_cases hin : s.spilling.core.stepState = .inStep
  · cases hfate : (s.spilling.core.folded env).fate env.lag with
    | replay => exact h.replays hin (hok hin) hfate
    | drop => exact absurd hfate (hok hin).kept
    | spill => exact h.spills hin (hok hin) hfate
  · have hin' : s.immediate.core.stepState ≠ .inStep := by
      have hstate := congrArg Core.stepState h.common
      exact fun heq => hin (Eq.trans (Eq.symm hstate) heq)
    unfold VolStream.endStep
    rw [if_pos hin, if_pos hin']
    exact h

theorem CaughtUp.apply {answers : Nat → ReplayEnv} {s : Twin} (h : CaughtUp answers s) (ev : Event)
    (hok : Deferred answers s ev) : CaughtUp answers (s.apply ev) := by
  have hstate : s.immediate.core.stepState = s.spilling.core.stepState := by
    have := congrArg Core.stepState h.common
    exact this
  have horderly := orderly_apply h.orderly ev
  cases hcap : ev.capture with
  | true =>
    have hcaptured := h.capture hcap
    cases ev with
    | setQueuePolicy policy reserve => cases hcap
    | _ => exact hcaptured
  | false =>
    cases ev with
    | endStep env => exact h.endStep hok
    | setQueuePolicy policy reserve =>
      exact h.keep h.wrappers h.common h.policy horderly ⟨rfl, rfl, rfl, rfl, fun _ => rfl⟩ rfl (.refl _)
    | beginStep ids wall =>
      show CaughtUp answers ⟨(beginWriterStep s.spilling ids wall).state, (beginWriterStep s.immediate ids wall).state⟩
      have horderly : (beginWriterStep s.spilling ids wall).state.core.Orderly := horderly
      unfold beginWriterStep at horderly ⊢
      rw [hstate]
      split at horderly
      · rename_i hout
        rw [if_pos hout, if_pos hout]
        exact h
      · rename_i hout
        rw [if_neg hout, if_neg hout]
        refine h.keep h.wrappers ?_ h.policy horderly ⟨rfl, rfl, rfl, rfl, fun _ => rfl⟩ rfl
          ⟨rfl, rfl, rfl, rfl, fun _ => rfl⟩
        exact congrArg (fun c : Core => { c with logicalIds := ids, wallTimeNs := wall, stepState := .inStep }) h.common
    | noteGroupAttr path =>
      have hattrs : s.immediate.core.groupAttrs = s.spilling.core.groupAttrs := by
        have := congrArg Core.groupAttrs h.common
        exact this
      show CaughtUp answers ⟨noteGroupAttr s.spilling path, noteGroupAttr s.immediate path⟩
      have horderly : (noteGroupAttr s.spilling path).core.Orderly := horderly
      unfold noteGroupAttr at horderly ⊢
      rw [hstate, hattrs]
      split at horderly
      · rename_i hout
        rw [if_pos hout, if_pos hout]
        exact h
      · rename_i hout
        rw [if_neg hout, if_neg hout]
        refine h.keep h.wrappers ?_ h.policy horderly ⟨rfl, rfl, rfl, rfl, fun _ => rfl⟩ rfl
          ⟨rfl, rfl, rfl, rfl, fun _ => rfl⟩
        exact congrArg (fun c : Core => { c with groupAttrs := s.spilling.core.groupAttrs ++ [path] }) h.common
    | fileClose =>
      show CaughtUp answers ⟨fileClose s.spilling, fileClose s.immediate⟩
      have horderly : (fileClose s.spilling).core.Orderly := horderly
      unfold fileClose at horderly ⊢
      rw [hstate]
      split at horderly
      · rename_i hout
        rw [if_pos hout, if_pos hout]
        refine h.keep h.wrappers ?_ h.policy horderly ⟨rfl, rfl, rfl, rfl, fun _ => rfl⟩ rfl
          ⟨rfl, rfl, rfl, rfl, fun _ => rfl⟩
        exact congrArg (fun c : Core => { c with
          pending := [], pendingBytes := 0, logicalIds := [], stepState := .notInStep }) h.common
      · rename_i hout
        rw [if_neg hout, if_neg hout]
        exact h
    | datasetCreate => cases hcap
    | openLive => cases hcap
    | datasetWrite => cases hcap
    | setExtent => cases hcap
    | attrCreate => cases hcap
    | attrWrite => cases hcap
    | linkCreate => cases hcap
    | closeHandle => cases hcap

/-- In a run in which no step is dropped, none is replayed past a queued step that names one of its
paths, and none rewrites the target of a queued link, a file closed with nothing queued holds what
immediate replays write. -/
theorem spilled_complete (answers : Nat → ReplayEnv) (config : Config) (events : List Event)
    (h : Runs.Meets Twin.apply (Deferred answers) (.init config) events)
    (hempty : (Twin.after config events).spilling.core.pendingSpill = []) :
    (Twin.after config (events ++ [.fileClose])).NothingLost := by
  have hinv : CaughtUp answers (Twin.after config events) :=
    Runs.run_inv (fun s ev hs hok => hs.apply ev hok) (caughtUp_init answers config) h
  have hclosed := CaughtUp.apply hinv .fileClose trivial
  have hqueue : ((Twin.after config events).apply .fileClose).spilling.core.pendingSpill = [] := by
    show (fileClose (Twin.after config events).spilling).core.pendingSpill = []
    unfold fileClose
    split
    · exact hempty
    · exact hempty
  obtain ⟨last, hcatch, hagree⟩ := hclosed.caught
  have hafter : Twin.after config (events ++ [.fileClose]) = (Twin.after config events).apply .fileClose :=
    Runs.run_append _ _ _
  rw [hafter]
  intro n _
  have hcatch : catchUp answers ((Twin.after config events).apply .fileClose).spilling.core.pendingSpill _ = .ok last := hcatch
  rw [hqueue] at hcatch
  cases hcatch
  exact (hagree.ops n).symm

/-! ## Closing with a step queued -/

/-- The calls of one `H5Fend_step` all succeed. -/
def EndEnv.Succeeds (env : EndEnv) : Prop :=
  env.spill = .quiet ∧ (∀ k, env.drain k = ⟨false, .quiet⟩) ∧ env.build = .quiet ∧ env.replay = .quiet

/-- Step 1 is spilled and the file is closed. -/
def abandonedRun : List Event :=
  [.setQueuePolicy .spill 0,
    .beginStep [] 0, createByte 0 ['a'], .closeHandle 0, .endStep .lagging,
    .beginStep [] 1, createByte 1 ['a'], .closeHandle 1, .endStep .lagging]

theorem abandonedRun_lost :
    ¬ ∀ config events, (∀ env, .endStep env ∈ events → EndEnv.Succeeds env) →
      (Twin.after config (events ++ [.fileClose])).NothingLost := by
  intro h
  have hsucceeds : EndEnv.Succeeds .lagging := ⟨rfl, fun _ => rfl, rfl, rfl⟩
  have hlost := h .staging abandonedRun (fun env henv => by
    simp only [abandonedRun, createByte, List.mem_cons, reduceCtorEq, Event.endStep.injEq, List.not_mem_nil, or_false,
      false_or, or_self] at henv
    rw [henv]
    exact hsucceeds) 1 (by decide)
  exact absurd hlost (by decide)

-- a third step drains the queue
def drainedRun : List Event := abandonedRun ++ [.beginStep [] 2, createByte 2 ['a'], .endStep .quiet]

theorem drainedRun_complete :
    (Twin.after .staging drainedRun).spilling.core.pendingSpill = []
      ∧ (Twin.after .staging (drainedRun ++ [.fileClose])).NothingLost := by
  refine ⟨by decide, spilled_complete (fun _ => .quiet) .staging drainedRun ?_ (by decide)⟩
  have hunlinked : ∀ {fs : Core} {queue : List SpillEntry},
      (queue.all fun q => q.manifest.entries.all fun e => decide (e.kind ≠ .link)) = true →
        ∀ q ∈ queue, q.LinksSettled fs := by
    intro fs queue hqueue q hq i e hard target he hkind
    have hentries := List.all_eq_true.mp (List.all_eq_true.mp hqueue q hq) e (List.mem_of_getElem? he)
    exact absurd hkind (of_decide_eq_true hentries)
  have hnone : ∀ {fs : Core} {queue : List SpillEntry}, queue = [] → ∀ q ∈ queue, q.ApartFrom fs := by
    intro fs queue hqueue q hq
    rw [hqueue] at hq
    cases hq
  refine ⟨trivial, trivial, trivial, trivial, ?_, trivial, trivial, trivial, ?_, trivial, trivial, ?_, trivial⟩
  · exact fun _ => ⟨fun _ _ _ => rfl, fun hfate => absurd hfate (by decide), by decide, hunlinked (by decide),
      fun _ => hnone (by decide)⟩
  · exact fun _ => ⟨fun _ _ _ => rfl, fun _ => ⟨rfl, rfl, by decide⟩, by decide, hunlinked (by decide),
      fun _ => hnone (by decide)⟩
  · exact fun _ => ⟨fun _ _ _ => rfl, fun hfate => absurd hfate (by decide), by decide, hunlinked (by decide),
      fun _ => hnone (by decide)⟩

end VolStream
