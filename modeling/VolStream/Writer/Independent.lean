import VolStream.Writer.FailedStep

/-!
# Steps replayed out of turn

A step can be replayed while older ones are still queued. If it names no path that a queued step
names, the order does not matter: each replay reads and writes the tables at its own paths, and works
in its own group. That makes the replay of a queued step, later, do what it would have done before.
-/

namespace VolStream

/-! ## The tables of two writers -/

/-- The same tables, and the same calls made on every group. -/
structure Core.TablesAgree (c c' : Core) : Prop where
  config : c'.config = c.config
  index : c'.pathIndex = c.pathIndex
  types : c'.replayTypeCache = c.replayTypeCache
  links : c'.links = c.links
  ops : ∀ k, c'.file.ops k = c.file.ops k

theorem Core.TablesAgree.refl (c : Core) : c.TablesAgree c := ⟨rfl, rfl, rfl, rfl, fun _ => rfl⟩

theorem Core.TablesAgree.symm {c c' : Core} (h : c.TablesAgree c') : c'.TablesAgree c :=
  ⟨h.config.symm, h.index.symm, h.types.symm, h.links.symm, fun k => (h.ops k).symm⟩

theorem Core.TablesAgree.trans {a b c : Core} (hab : a.TablesAgree b) (hbc : b.TablesAgree c) : a.TablesAgree c :=
  ⟨hbc.config.trans hab.config, hbc.index.trans hab.index, hbc.types.trans hab.types,
    hbc.links.trans hab.links, fun k => (hbc.ops k).trans (hab.ops k)⟩

theorem congruence_tablesAgree (n : Nat) : ReplayCongruence (fun _ => True) n Core.TablesAgree where
  config := fun h => h.config
  index := fun h _ _ => by rw [h.index]
  types := fun h _ => by rw [h.types]
  indexed := fun _ h _ => ⟨h.config, by rw [h.index], h.types, h.links, h.ops⟩
  typed := fun _ h _ => ⟨h.config, h.index, by rw [h.types], h.links, h.ops⟩
  noted := fun _ _ h => ⟨h.config, h.index, h.types, by rw [h.links], h.ops⟩
  logged := fun op h => ⟨h.config, h.index, h.types, h.links, fun k => by
    rw [StepFile.ops_append, StepFile.ops_append, h.ops]⟩
  ensured := fun h => ⟨h.config, h.index, h.types, h.links, fun k => by
    rw [StepFile.ops_ensure, StepFile.ops_ensure, h.ops]⟩

/-- What `Core.dropStep` does to the tables. -/
def Core.undone (fs : Core) (n : Nat) (unlinkFails : Bool) : Core :=
  { fs with
    file := if unlinkFails then fs.file else fs.file.unlink n
    pathIndex := pathIndexDropStep fs.pathIndex n }

theorem Core.TablesAgree.undone {c c' : Core} (h : c.TablesAgree c') (n : Nat) (unlinkFails : Bool) :
    (c.undone n unlinkFails).TablesAgree (c'.undone n unlinkFails) := by
  refine ⟨h.config, ?_, h.types, h.links, fun k => ?_⟩
  · show pathIndexDropStep c'.pathIndex n = pathIndexDropStep c.pathIndex n
    rw [h.index]
  · show StepFile.ops (if unlinkFails then c'.file else c'.file.unlink n) k
      = StepFile.ops (if unlinkFails then c.file else c.file.unlink n) k
    split
    · exact h.ops k
    · rw [StepFile.ops_unlink, StepFile.ops_unlink, h.ops]

/-! ## The same work from two states -/

/-- From `a` to `b` and from `a'` to `b'` the same is done: to the tables at the paths in `N`, to the
links and to the group of step `n`. Nothing is done elsewhere. -/
structure Core.SameJob (N : Path → Prop) (n : Nat) (a b a' b' : Core) : Prop where
  config : b'.config = b.config ∧ b.config = a.config
  index : ∀ path, N path → b'.pathIndex path = b.pathIndex path
  indexKept : ∀ path, ¬ N path → b.pathIndex path = a.pathIndex path ∧ b'.pathIndex path = a'.pathIndex path
  types : ∀ path, N path → b'.replayTypeCache path = b.replayTypeCache path
  typesKept : ∀ path, ¬ N path →
    b.replayTypeCache path = a.replayTypeCache path ∧ b'.replayTypeCache path = a'.replayTypeCache path
  links : ∃ f : Table Path LinkRec → Table Path LinkRec, b.links = f a.links ∧ b'.links = f a'.links
  ops : ∃ f : List FileOp → List FileOp, ∀ k,
    b.file.ops k = (if n = k then f (a.file.ops k) else a.file.ops k)
      ∧ b'.file.ops k = (if n = k then f (a'.file.ops k) else a'.file.ops k)

theorem Core.SameJob.start {N : Path → Prop} {n : Nat} {a a' : Core} (hconfig : a'.config = a.config)
    (hindex : ∀ path, N path → a'.pathIndex path = a.pathIndex path)
    (htypes : ∀ path, N path → a'.replayTypeCache path = a.replayTypeCache path) : Core.SameJob N n a a a' a' where
  config := ⟨hconfig, rfl⟩
  index := hindex
  indexKept := fun _ _ => ⟨rfl, rfl⟩
  types := htypes
  typesKept := fun _ _ => ⟨rfl, rfl⟩
  links := ⟨id, rfl, rfl⟩
  ops := ⟨id, fun k => by
    constructor
    · split <;> rfl
    · split <;> rfl⟩

theorem indexEntry_congr {idx idx' : PathIndex} {path : Path} (h : idx' path = idx path) (n : Nat) (kind : Kind)
    (at_ : Path) : indexEntry idx' n kind at_ path = indexEntry idx n kind at_ path := by
  unfold indexEntry pathIndexMarkLink pathIndexAdd
  by_cases hpath : path = at_
  · subst hpath
    cases kind <;> simp [Kind.indexed, h]
  · cases kind <;> simp [Kind.indexed, Function.update_of_ne hpath, h]

theorem indexEntry_of_ne {idx : PathIndex} {path at_ : Path} (h : path ≠ at_) (n : Nat) (kind : Kind) :
    indexEntry idx n kind at_ path = idx path := by
  unfold indexEntry pathIndexMarkLink pathIndexAdd
  cases kind <;> simp [Kind.indexed, Function.update_of_ne h]

theorem typeCacheUpsert_congr {r r' : TypeCache} {path : Path} (h : r' path = r path) (at_ : Path) (t : Datatype) :
    typeCacheUpsert r' at_ t path = typeCacheUpsert r at_ t path := by
  unfold typeCacheUpsert
  by_cases hpath : path = at_
  · subst hpath
    simp
  · simp [Function.update_of_ne hpath, h]

theorem pathIndexResolve_congr {idx idx' : PathIndex} {path : Path} (h : idx' path = idx path) (k : Nat) :
    pathIndexResolve idx' path k = pathIndexResolve idx path k := by
  unfold pathIndexResolve
  rw [h]

theorem congruence_sameJob (N : Path → Prop) (n : Nat) (a a' : Core) :
    ReplayCongruence N n (fun b b' => Core.SameJob N n a b a' b') where
  config := fun h => h.config.1
  index := fun h hpath => pathIndexResolve_congr (h.index _ hpath)
  types := fun h hpath => h.types _ hpath
  indexed := fun kind h hat =>
    { h with
      index := fun path hpath => indexEntry_congr (h.index path hpath) n kind _
      indexKept := fun path hpath => by
        have hne : path ≠ _ := fun heq => hpath (heq ▸ hat)
        simp only [indexEntry_of_ne hne]
        exact h.indexKept path hpath }
  typed := fun t h hat =>
    { h with
      types := fun path hpath => typeCacheUpsert_congr (h.types path hpath) _ t
      typesKept := fun path hpath => by
        have hne : path ≠ _ := fun heq => hpath (heq ▸ hat)
        simp only [typeCacheUpsert, Function.update_of_ne hne]
        exact h.typesKept path hpath }
  noted := fun path link h => by
    obtain ⟨f, hb, hb'⟩ := h.links
    refine { h with links := ⟨fun l => (f l).set path link, ?_, ?_⟩ }
    · rw [hb]
    · rw [hb']
  logged := fun op h => by
    obtain ⟨f, hops⟩ := h.ops
    refine { h with ops := ⟨fun l => f l ++ [op], fun k => ?_⟩ }
    simp only [StepFile.ops_append, hops k]
    by_cases hk : n = k
    · simp only [if_pos hk, and_self]
    · simp only [if_neg hk, and_self]
  ensured := fun h => by
    obtain ⟨f, hops⟩ := h.ops
    refine { h with ops := ⟨f, fun k => ?_⟩ }
    simp only [StepFile.ops_ensure]
    exact hops k

/-- The step appears nowhere in the index. -/
def Core.Fresh (fs : Core) (n : Nat) : Prop := ∀ path, n ∉ (fs.pathIndex path).steps

theorem dropTail_of_notMem {n : Nat} {l : List Nat} (h : n ∉ l) : dropTail n l = l := by
  have hdrop := dropTail_append_replicate h 0
  rwa [List.replicate_zero, List.append_nil] at hdrop

/-- Undoing a failed step is part of the same work. -/
theorem Core.SameJob.undone {N : Path → Prop} {n : Nat} {a b a' b' : Core} (h : Core.SameJob N n a b a' b')
    (ha : a.Fresh n) (ha' : a'.Fresh n) (unlinkFails : Bool) :
    Core.SameJob N n a (b.undone n unlinkFails) a' (b'.undone n unlinkFails) := by
  obtain ⟨f, hops⟩ := h.ops
  have hdrop : ∀ {c c' : Core} {path : Path}, c'.pathIndex path = c.pathIndex path → c.Fresh n →
      pathIndexDropStep c'.pathIndex n path = c.pathIndex path := by
    intro c c' path heq hfresh
    unfold pathIndexDropStep
    rw [heq, dropTail_of_notMem (hfresh path)]
  refine
    { h with
      index := fun path hpath => ?_
      indexKept := fun path hpath => ⟨hdrop (h.indexKept path hpath).1 ha, hdrop (h.indexKept path hpath).2 ha'⟩
      ops := ⟨fun l => if unlinkFails then f l else [], fun k => ?_⟩ }
  · show pathIndexDropStep b'.pathIndex n path = pathIndexDropStep b.pathIndex n path
    unfold pathIndexDropStep
    rw [h.index path hpath]
  · show StepFile.ops (if unlinkFails then b.file else b.file.unlink n) k = _
      ∧ StepFile.ops (if unlinkFails then b'.file else b'.file.unlink n) k = _
    cases unlinkFails with
    | true => exact hops k
    | false =>
      simp only [Bool.false_eq_true, if_false, StepFile.ops_unlink, hops k]
      by_cases hk : n = k
      · simp only [if_pos hk, and_self]
      · simp only [if_neg hk, and_self]

/-- Two jobs at different paths and in different groups can be done in either order. -/
theorem Core.SameJob.commute {N M : Path → Prop} {n m : Nat} {a aq y x z : Core}
    (hq : Core.SameJob M m a aq y z) (hn : Core.SameJob N n a y aq x) (hapart : ∀ path, N path → ¬ M path)
    (hne : m ≠ n)
    (hlinks : (y.links = a.links ∧ x.links = aq.links) ∨ (aq.links = a.links ∧ z.links = y.links)) :
    x.TablesAgree z where
  config := by rw [hq.config.1, hq.config.2, hn.config.1, hn.config.2]
  index := by
    funext path
    by_cases hpath : N path
    · rw [(hq.indexKept path (hapart path hpath)).2, hn.index path hpath]
    · rw [(hn.indexKept path hpath).2]
      by_cases hpath' : M path
      · exact hq.index path hpath'
      · rw [(hq.indexKept path hpath').2, (hq.indexKept path hpath').1, (hn.indexKept path hpath).1]
  types := by
    funext path
    by_cases hpath : N path
    · rw [(hq.typesKept path (hapart path hpath)).2, hn.types path hpath]
    · rw [(hn.typesKept path hpath).2]
      by_cases hpath' : M path
      · exact hq.types path hpath'
      · rw [(hq.typesKept path hpath').2, (hq.typesKept path hpath').1, (hn.typesKept path hpath).1]
  links := by
    obtain ⟨f, haq, hz⟩ := hq.links
    obtain ⟨g, hy, hx⟩ := hn.links
    rcases hlinks with ⟨hya, hxaq⟩ | ⟨haqa, hzy⟩
    · rw [hz, hya, ← haq, hxaq]
    · rw [hzy, hy, hx, haqa]
  ops := by
    intro k
    obtain ⟨f, hf⟩ := hq.ops
    obtain ⟨g, hg⟩ := hn.ops
    rw [(hf k).2, (hg k).1, (hg k).2, (hf k).1]
    by_cases hm : m = k
    · rw [if_pos hm, if_pos hm, if_neg (fun hk => hne (hm.trans hk.symm)), if_neg (fun hk => hne (hm.trans hk.symm))]
    · rw [if_neg hm, if_neg hm]

/-! ## What a replay leaves alone -/

/-- What holds of the links and is kept by noting each link of the step holds after its replay. -/
theorem links_rule {P : Table Path LinkRec → Prop} (env : ReplayEnv) (args : ReplayArgs)
    (hset : ∀ (i : Nat) (e : Entry) (hard : Bool) (target : Path), args.manifest.entries[i]? = some e →
      e.kind = .link → args.payload i = .link hard target → ∀ links, P links → P (links.set e.path ⟨target, hard⟩))
    (st : Replay) (h : P st.core.links) : P (replayManifest env args st).state.core.links := by
  have hentry : ∀ ie ∈ replayOrder args.manifest.entries, ∀ s : Replay, P s.core.links →
      P (replayEntry env args ie s).state.core.links := fun ie hie s hs =>
    links_entry_rule env args
      (fun hard target => hset ie.1 ie.2 hard target (getElem?_of_mem_replayOrder hie)) s hs
  unfold replayManifest
  split
  · exact h
  · have hrun := Outcome.state_runAll (P := fun s : Replay => P s.core.links) hentry h
    refine Outcome.state_bind (P := fun s : Replay => P s.core.links) hrun (fun s hs => ?_)
    rw [hs] at hrun
    obtain ⟨-, ops, -, hcarry⟩ := applied_carryForwardResized env args.manifest s
    rw [persist_eq]
    split
    · rw [Outcome.state_fail, hcarry]
      exact hrun
    · rw [Outcome.state_ok, hcarry]
      exact hrun

/-- A step without links leaves the links. -/
theorem links_replayManifest (env : ReplayEnv) (args : ReplayArgs)
    (h : ∀ e ∈ args.manifest.entries, e.kind ≠ .link) (st : Replay) :
    (replayManifest env args st).state.core.links = st.core.links := by
  refine links_rule (P := fun links => links = st.core.links) env args ?_ st rfl
  intro i e hard target he hkind
  exact absurd hkind (h e (List.mem_of_getElem? he))

theorem wired_createAttr (env : ReplayEnv) (n i : Nat) (e : Entry) (t : Datatype) (parent : Path) (st : Replay) :
    (createAttr env n i e t parent st).state.wired = st.wired := by
  unfold createAttr
  simp only
  split
  · rfl
  · split
    · split
      · rfl
      · split <;> rfl
    · split
      · split
        · rfl
        · split <;> rfl
      · split
        · split
          · rfl
          · split <;> rfl
        · rfl

/-- Without placeholders nothing is wired. -/
theorem wired_applyEntry (env : ReplayEnv) {args : ReplayArgs} (h : ∀ i, args.owned i = false) (i : Nat) (e : Entry)
    (t : Datatype) (st : Replay) : (applyEntry env args i e t st).state.wired = st.wired := by
  have hwire : ∀ s : Replay, s.wire i (args.owned i) = s := by
    intro s
    rw [h i]
    rfl
  unfold applyEntry
  simp only [hwire]
  split
  · split <;> rfl
  · split
    · rfl
    · split
      · rfl
      · split <;> rfl
  · split
    · rfl
    · rename_i parent _
      have hattr := wired_createAttr env args.manifest.physicalStep i e t parent st
      refine Outcome.state_bind (P := fun s : Replay => s.wired = st.wired) hattr (fun s hs => ?_)
      rw [hs, Outcome.state_ok] at hattr
      split
      · exact hattr
      · split
        · exact hattr
        · split <;> exact hattr
  · show (replayLink env args.manifest.physicalStep i e (args.payload i) st).wired = st.wired
    unfold replayLink
    split
    · rfl
    · split
      · rfl
      · simp only
        split <;> rfl
  · rfl

theorem wired_replayEntry (env : ReplayEnv) {args : ReplayArgs} (h : ∀ i, args.owned i = false) (ie : Nat × Entry)
    (st : Replay) : (replayEntry env args ie st).state.wired = st.wired := by
  have hresolved : (st.resolved args.manifest.physicalStep ie.2).wired = st.wired := by
    simp only [Replay.resolved, Replay.recorded_wired, Replay.indexed_wired, Replay.looked_wired]
  unfold replayEntry
  rcases resolveEntry_cases env args ie.1 ie.2 st with ⟨hr, -⟩ | ⟨hr, -⟩ | ⟨hr, -⟩ | ⟨hr, -⟩ | hr <;> rw [hr]
  · rfl
  · exact Replay.looked_wired st ie.2
  · exact Replay.looked_wired st ie.2
  · exact hresolved
  · rw [Outcome.bind_ok]
    split
    · exact hresolved
    · exact (wired_applyEntry env h ie.1 ie.2 _ _).trans hresolved

theorem wired_carryForwardResized (env : ReplayEnv) (m : Step) (st : Replay) :
    (carryForwardResized env m st).wired = st.wired := by
  unfold carryForwardResized
  refine List.foldlRecOn (motive := fun s : Replay => s.wired = st.wired) _ _ rfl ?_
  intro s hs ie _
  refine Eq.trans ?_ hs
  unfold carryForwardOne
  split
  · rfl
  · split
    · split <;> rfl
    · rfl

theorem wired_replayManifest (env : ReplayEnv) (args : ReplayArgs) (h : ∀ i, args.owned i = false) (st : Replay) :
    (replayManifest env args st).state.wired = st.wired := by
  unfold replayManifest
  split
  · rfl
  · have hrun := Outcome.state_runAll (P := fun s : Replay => s.wired = st.wired)
      (l := replayOrder args.manifest.entries) (fun ie _ s hs => (wired_replayEntry env h ie s).trans hs) (s := st) rfl
    refine Outcome.state_bind (P := fun s : Replay => s.wired = st.wired) hrun (fun s hs => ?_)
    rw [hs] at hrun
    have hcarry := (wired_carryForwardResized env args.manifest s).trans hrun
    rw [persist_eq]
    split
    · exact hcarry
    · exact hcarry

/-! ## Catching up -/

/-- Replaying queued steps in turn, each with the answers its replay gets. -/
def catchUp (answers : Nat → ReplayEnv) (queue : List SpillEntry) (st : Replay) : Outcome Replay :=
  Outcome.runAll (fun q => replayManifest (answers q.physicalStep) q.args) queue st

theorem catchUp_tablesAgree {answers : Nat → ReplayEnv} {queue : List SpillEntry} {st st' : Replay}
    (h : st.Beside Core.TablesAgree st') :
    Outcome.Rel (Replay.Beside Core.TablesAgree) (catchUp answers queue st) (catchUp answers queue st') := by
  refine Outcome.Rel.runAll (fun q _ s s' hs => ?_) h
  exact beside_replayManifest (congruence_tablesAgree q.args.manifest.physicalStep) hs _ rfl fun _ _ => trivial

/-- The queued step and the step being replayed name different paths, and at most one of them has
links. -/
structure Apart (q : SpillEntry) (args : ReplayArgs) : Prop where
  number : q.manifest.physicalStep ≠ args.manifest.physicalStep
  paths : ∀ path, args.Names path → ¬ q.args.Names path
  links : (∀ e ∈ args.manifest.entries, e.kind ≠ .link) ∨ ∀ e ∈ q.manifest.entries, e.kind ≠ .link

/-- The tables after a replay: what a failed one did is undone. -/
def settledCore (n : Nat) (unlinkFails : Bool) : Outcome Replay → Core
  | .ok st => st.core
  | .fail st => st.core.undone n unlinkFails

/-- Replaying a step from two states that agree on the paths it names is the same job. -/
theorem sameJob_replayManifest (env : ReplayEnv) (args : ReplayArgs) (st st' : Replay)
    (hwired : st'.wired = st.wired) (hconfig : st'.core.config = st.core.config)
    (hindex : ∀ path, args.Names path → st'.core.pathIndex path = st.core.pathIndex path)
    (htypes : ∀ path, args.Names path → st'.core.replayTypeCache path = st.core.replayTypeCache path) :
    Outcome.Rel
      (Replay.Beside fun b b' => Core.SameJob args.Names args.manifest.physicalStep st.core b st'.core b')
      (replayManifest env args st) (replayManifest env args st') :=
  beside_replayManifest (congruence_sameJob args.Names args.manifest.physicalStep st.core st'.core)
    ⟨.start hconfig hindex htypes, hwired⟩ env rfl fun _ h => h

theorem Core.Fresh.replayManifest {n : Nat} {st : Replay} (h : st.core.Fresh n) (env : ReplayEnv) (args : ReplayArgs)
    (hne : args.manifest.physicalStep ≠ n) : (replayManifest env args st).state.core.Fresh n := by
  intro path hmem
  obtain ⟨c, hc⟩ := appended_replayManifest env args st path
  rw [hc, List.mem_append, List.mem_replicate] at hmem
  rcases hmem with hmem | ⟨-, heq⟩
  · exact h path hmem
  · exact hne heq.symm

theorem sameJob_settled {N : Path → Prop} {n : Nat} {a a' : Core} {o o' : Outcome Replay}
    (h : Outcome.Rel (Replay.Beside fun b b' => Core.SameJob N n a b a' b') o o') (ha : a.Fresh n)
    (ha' : a'.Fresh n) (unlinkFails : Bool) :
    Core.SameJob N n a (settledCore n unlinkFails o) a' (settledCore n unlinkFails o') := by
  cases h with
  | ok hs => exact hs.core
  | fail hs => exact hs.core.undone ha ha' unlinkFails

theorem links_settledCore (n : Nat) (unlinkFails : Bool) (o : Outcome Replay) :
    (settledCore n unlinkFails o).links = o.state.core.links := by
  cases o with
  | ok s => rfl
  | fail s => rfl

/-- One queued step and the step replayed before it, in the other order. -/
theorem replay_past {answers : Nat → ReplayEnv} (env : ReplayEnv) {args : ReplayArgs} (unlinkFails : Bool)
    {q : SpillEntry} {st stq : Replay} (hwired : st.wired = []) (hfresh : st.core.Fresh args.manifest.physicalStep)
    (hapart : Apart q args) (hq : replayManifest (answers q.physicalStep) q.args st = .ok stq) (l : List TypeLookup) :
    Outcome.Rel (fun s s' => s'.wired = s.wired) (replayManifest env args st) (replayManifest env args ⟨stq.core, [], l⟩)
      ∧ ∃ z, replayManifest (answers q.physicalStep) q.args
        ⟨settledCore args.manifest.physicalStep unlinkFails (replayManifest env args st), [], l⟩ = .ok z
      ∧ z.wired = []
      ∧ (settledCore args.manifest.physicalStep unlinkFails
          (replayManifest env args ⟨stq.core, [], l⟩)).TablesAgree z.core := by
  have hself := sameJob_replayManifest (answers q.physicalStep) q.args st st rfl rfl
    (fun _ _ => rfl) (fun _ _ => rfl)
  rw [hq] at hself
  cases hself with
  | ok hkept =>
    have hkept := hkept.core
    have hfreshq : stq.core.Fresh args.manifest.physicalStep := by
      have := hfresh.replayManifest (answers q.physicalStep) q.args hapart.number
      rwa [hq] at this
    have hjob := sameJob_replayManifest env args st ⟨stq.core, [], l⟩ hwired.symm hkept.config.2
      (fun path hpath => (hkept.indexKept path (hapart.paths path hpath)).1)
      (fun path hpath => (hkept.typesKept path (hapart.paths path hpath)).1)
    have hn := sameJob_settled hjob hfresh hfreshq unlinkFails
    refine ⟨hjob.mono fun _ _ h => h.wired, ?_⟩
    generalize hy : settledCore args.manifest.physicalStep unlinkFails (replayManifest env args st) = y at hn ⊢
    generalize hx : settledCore args.manifest.physicalStep unlinkFails
      (replayManifest env args ⟨stq.core, [], l⟩) = x at hn ⊢
    have hout : ∀ path, q.args.Names path → ¬ args.Names path := fun path hpath hn => hapart.paths path hn hpath
    have hjobq := sameJob_replayManifest (answers q.physicalStep) q.args st ⟨y, [], l⟩
      hwired.symm hn.config.2 (fun path hpath => (hn.indexKept path (hout path hpath)).1)
      (fun path hpath => (hn.typesKept path (hout path hpath)).1)
    have hwiredz := wired_replayManifest (answers q.physicalStep) q.args (fun _ => rfl) ⟨y, [], l⟩
    have hlinksz := fun hnone => links_replayManifest (answers q.physicalStep) q.args hnone ⟨y, [], l⟩
    have hlinksq := fun hnone => links_replayManifest (answers q.physicalStep) q.args hnone st
    rw [hq] at hjobq hlinksq
    generalize replayManifest (answers q.physicalStep) q.args ⟨y, [], l⟩ = o at hjobq hwiredz hlinksz ⊢
    cases hjobq with
    | @ok _ z hz =>
      refine ⟨z, rfl, hwiredz, hz.core.commute hn hapart.paths hapart.number ?_⟩
      rcases hapart.links with hnone | hnone
      · left
        rw [← hy, ← hx, links_settledCore, links_settledCore, links_replayManifest env args hnone,
          links_replayManifest env args hnone]
        exact ⟨rfl, rfl⟩
      · exact .inr ⟨hlinksq hnone, hlinksz hnone⟩

theorem settledCore_sameWork {st st' : Replay} (h : st.SameWork st') (env : ReplayEnv) (args : ReplayArgs) (n : Nat)
    (unlinkFails : Bool) : settledCore n unlinkFails (replayManifest env args st')
      = settledCore n unlinkFails (replayManifest env args st) := by
  have hwork := sameWork_replayManifest h env args
  generalize replayManifest env args st = o at hwork ⊢
  generalize replayManifest env args st' = o' at hwork ⊢
  cases hwork with
  | ok hs => exact hs.core
  | fail hs => exact congrArg (Core.undone · n unlinkFails) hs.core

/-- A step replayed while others are queued leaves them to be replayed as before, and the tables end
up as if it had waited for its turn. -/
theorem catchUp_past {answers : Nat → ReplayEnv} (env : ReplayEnv) (args : ReplayArgs) (unlinkFails : Bool)
    {queue : List SpillEntry} {st st₁ : Replay} (hcatch : catchUp answers queue st = .ok st₁)
    (hwired : st.wired = []) (hfresh : st.core.Fresh args.manifest.physicalStep) (hqueue : ∀ q ∈ queue, Apart q args)
    (l l' : List TypeLookup) :
    Outcome.Rel (fun s s' => s'.wired = s.wired) (replayManifest env args st) (replayManifest env args ⟨st₁.core, [], l'⟩)
      ∧ ∃ st₂, catchUp answers queue
        ⟨settledCore args.manifest.physicalStep unlinkFails (replayManifest env args st), [], l⟩ = .ok st₂
      ∧ (settledCore args.manifest.physicalStep unlinkFails
          (replayManifest env args ⟨st₁.core, [], l'⟩)).TablesAgree st₂.core := by
  induction queue generalizing st l with
  | nil =>
    cases hcatch
    have hsame : st₁.SameWork ⟨st₁.core, [], l'⟩ := ⟨rfl, hwired.symm⟩
    refine ⟨(sameWork_replayManifest hsame env args).mono fun _ _ h => h.wired, _, rfl, ?_⟩
    rw [settledCore_sameWork hsame]
    exact .refl _
  | cons q queue ih =>
    rw [catchUp, Outcome.runAll_cons, Outcome.bind_eq_ok_iff] at hcatch
    obtain ⟨stq, hq, hcatch⟩ := hcatch
    have hapart := hqueue q List.mem_cons_self
    obtain ⟨hout, z, hz, hwiredz, hagree⟩ := replay_past env unlinkFails hwired hfresh hapart hq l
    have hwiredq : stq.wired = [] := by
      have hkept := wired_replayManifest (answers q.physicalStep) q.args (fun _ => rfl) st
      rw [hq] at hkept
      exact hkept.trans hwired
    have hfreshq : stq.core.Fresh args.manifest.physicalStep := by
      have hkept := hfresh.replayManifest (answers q.physicalStep) q.args hapart.number
      rwa [hq] at hkept
    have hsame : stq.SameWork ⟨stq.core, [], l⟩ := ⟨rfl, hwiredq.symm⟩
    obtain ⟨hout₂, st₂, hcatch₂, hagree₂⟩ := ih hcatch hwiredq hfreshq
      (fun q' hq' => hqueue q' (List.mem_cons_of_mem _ hq')) l
    rw [← settledCore_sameWork hsame] at hcatch₂
    have hout₁ := (sameWork_replayManifest hsame env args).mono fun _ _ h => h.wired.symm
    refine ⟨hout.comp (hout₁.flip.comp hout₂ fun _ _ _ h h' => h'.trans h) fun _ _ _ h h' => h'.trans h, ?_⟩
    -- the rest of the queue cannot tell the two orders apart
    have hbeside : Replay.Beside Core.TablesAgree ⟨settledCore args.manifest.physicalStep unlinkFails
        (replayManifest env args ⟨stq.core, [], l⟩), [], l⟩ z := ⟨hagree, hwiredz⟩
    have hrest : Outcome.Rel (Replay.Beside Core.TablesAgree) _ (catchUp answers queue z) :=
      catchUp_tablesAgree hbeside
    rw [hcatch₂] at hrest
    rw [catchUp, Outcome.runAll_cons, hz, Outcome.bind_ok]
    show ∃ st₂, catchUp answers queue z = .ok st₂ ∧ _
    generalize catchUp answers queue z = o at hrest ⊢
    cases hrest with
    | @ok _ st₃ h₃ => exact ⟨st₃, rfl, hagree₂.trans h₃.core⟩

end VolStream
