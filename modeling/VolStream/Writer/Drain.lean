import VolStream.Writer.Made
import VolStream.Writer.Independent

/-!
# Draining spilled steps, again and again

`H5VL__stream_drain_spill` replays queued steps from the front until one lies outside the window or fails.
That one stays queued for a later call to retry, which replays it from the start, into a group and an index
that keep what the failed attempt left there. An attempt that fails before it has made anything can be made
again. One that has created a dataset cannot: HDF5 refuses the name.
-/

namespace VolStream

/-! ## One call -/

/-- One round of the loop: read the region, replay it. -/
def drainOne (env : DrainEnv) (q : SpillEntry) (st : Replay) : Outcome Replay :=
  if env.readFails then .fail st else replayManifest env.replay q.args st

/-- Queued steps drained one after the other, each in the window. -/
inductive Drains (env : Nat → DrainEnv) (limit : Nat) : Nat → List SpillEntry → Replay → Replay → Prop where
  | nil (k : Nat) (st : Replay) : Drains env limit k [] st st
  | cons {k : Nat} {q : SpillEntry} {qs : List SpillEntry} {st mid st' : Replay} (hwindow : q.physicalStep ≤ limit)
      (hdone : drainOne (env k) q st = .ok mid) (hrest : Drains env limit (k + 1) qs mid st') :
      Drains env limit k (q :: qs) st st'

/-- Where the loop stops: at the end of the queue, at a step outside the window, or at one that fails. -/
def StopsAt (env : DrainEnv) (limit : Nat) (left : List SpillEntry) (st st' : Replay) : Prop :=
  match left with
  | [] => st' = st
  | q :: _ => (limit < q.physicalStep ∧ st' = st) ∨ (q.physicalStep ≤ limit ∧ drainOne env q st = .fail st')

theorem drainEntries_cons (env : Nat → DrainEnv) (limit k : Nat) (q : SpillEntry) (qs : List SpillEntry) (st : Replay) :
    drainEntries env limit k (q :: qs) st =
      if limit < q.physicalStep then (q :: qs, st)
      else match drainOne (env k) q st with
        | .fail st' => (q :: qs, st')
        | .ok st' => drainEntries env limit (k + 1) qs st' := by
  rw [drainEntries, drainOne]
  split
  · rfl
  · cases (env k).readFails with
    | true => rfl
    | false => rfl

/-- The loop drains a prefix of the queue and stops at the rest. -/
theorem drainEntries_spec (env : Nat → DrainEnv) (limit k : Nat) (queue : List SpillEntry) (st : Replay) :
    ∃ done mid, queue = done ++ (drainEntries env limit k queue st).1 ∧ Drains env limit k done st mid ∧
      StopsAt (env (k + done.length)) limit (drainEntries env limit k queue st).1 mid
        (drainEntries env limit k queue st).2 := by
  induction queue generalizing k st with
  | nil => exact ⟨[], st, rfl, .nil k st, rfl⟩
  | cons q qs ih =>
    rw [drainEntries_cons]
    by_cases hout : limit < q.physicalStep
    · rw [if_pos hout]
      exact ⟨[], st, rfl, .nil k st, .inl ⟨hout, rfl⟩⟩
    · rw [if_neg hout]
      cases hone : drainOne (env k) q st with
      | fail st' => exact ⟨[], st, rfl, .nil k st, .inr ⟨Nat.not_lt.mp hout, hone⟩⟩
      | ok mid =>
        obtain ⟨done, last, hqueue, hdrains, hstop⟩ := ih (k + 1) mid
        refine ⟨q :: done, last, congrArg (q :: ·) hqueue, .cons (Nat.not_lt.mp hout) hone hdrains, ?_⟩
        rw [List.length_cons, show k + (done.length + 1) = k + 1 + done.length by omega]
        exact hstop

/-- Steps that can be drained are. -/
theorem drainEntries_of_drains {env : Nat → DrainEnv} {limit k : Nat} {done : List SpillEntry} {st mid : Replay}
    (h : Drains env limit k done st mid) (left : List SpillEntry) :
    drainEntries env limit k (done ++ left) st = drainEntries env limit (k + done.length) left mid := by
  induction h with
  | nil k st => rfl
  | @cons k q qs st mid st' hwindow hdone hrest ih =>
    rw [List.cons_append, drainEntries_cons, if_neg (by omega), hdone]
    simp only
    rw [ih, List.length_cons, show k + (qs.length + 1) = k + 1 + qs.length by omega]

theorem left_suffix_drainEntries (env : Nat → DrainEnv) (limit k : Nat) (queue : List SpillEntry) (st : Replay) :
    (drainEntries env limit k queue st).1 <:+ queue := by
  obtain ⟨done, mid, hqueue, -⟩ := drainEntries_spec env limit k queue st
  exact ⟨done, hqueue.symm⟩

/-- No longer prefix of the queue can be drained. -/
theorem drains_longest {env : Nat → DrainEnv} {limit k : Nat} {queue done done' left' : List SpillEntry}
    {st mid' : Replay} (hqueue : queue = done ++ (drainEntries env limit k queue st).1) (hqueue' : queue = done' ++ left')
    (h : Drains env limit k done' st mid') : done'.length ≤ done.length := by
  have hleft := (left_suffix_drainEntries env limit (k + done'.length) left' mid').length_le
  rw [← drainEntries_of_drains h, ← hqueue'] at hleft
  have hlen := congrArg List.length hqueue
  have hlen' := congrArg List.length hqueue'
  rw [List.length_append] at hlen hlen'
  omega

/-! ## An attempt that makes nothing -/

/-- The replay fails before anything is made in the step's group: at its start, at its first entry, or, for a
step without entries, at its group. -/
def nothingMade (env : ReplayEnv) (args : ReplayArgs) (fs : Core) : Bool :=
  env.startFails || match replayOrder args.manifest.entries with
    | [] => env.stepGroupFails
    | ie :: _ =>
        unresolved env args fs.replayTypeCache ie || match entryType fs.replayTypeCache ie.2 with
          | none => true
          | some _ =>
              match ie.2.kind with
              | .dsetCreate => env.fails ie.1 .ensureParent || env.fails ie.1 .create
              | .attr =>
                  match attrParent ie.2.path with
                  | none => true
                  | some parent =>
                      env.fails ie.1 .attrProbe && env.fails ie.1 .ensureAttrGroup &&
                        ((earlierCopy fs.pathIndex args.manifest.physicalStep parent).isNone ||
                          env.fails ie.1 .aliasCreate)
              | _ => false

/-- The attempt fails at the read, or makes nothing. -/
def failsAtOnce (env : DrainEnv) (q : SpillEntry) (fs : Core) : Bool :=
  env.readFails || nothingMade env.replay q.args fs

/-- The index once the first entry of the replay is in it. -/
def SpillEntry.indexFirst (q : SpillEntry) (idx : PathIndex) : PathIndex :=
  match replayOrder q.manifest.entries with
  | [] => idx
  | ie :: _ => indexEntry idx q.manifest.physicalStep ie.2.kind ie.2.path

theorem entryType_recorded (r : TypeCache) (e : Entry) : entryType (recordedTypes r e) e = entryType r e := by
  unfold entryType recordedTypes
  cases ht : e.typeEnc with
  | sent t => rfl
  | omitted t => cases e.kind <;> rfl

theorem recordedTypes_of_not_write {e : Entry} (h : e.kind ≠ .dsetWrite) (r : TypeCache) : recordedTypes r e = r := by
  unfold recordedTypes
  cases hk : e.kind with
  | dsetWrite => exact absurd hk h
  | _ => rfl

/-- `st'` is `st` but for an index that may hold the first entry, and for lookups. -/
structure SpillEntry.Indexed (q : SpillEntry) (st st' : Replay) : Prop where
  core : st'.core = st.core ∨ st'.core = { st.core with pathIndex := q.indexFirst st.core.pathIndex }
  wired : st'.wired = st.wired

theorem indexed_resolveEntry {q : SpillEntry} {ie : Nat × Entry} {rest : List (Nat × Entry)}
    (horder : replayOrder q.manifest.entries = ie :: rest) {env : ReplayEnv} {st st' : Replay}
    (h : resolveEntry env q.args ie.1 ie.2 st = .fail st') : q.Indexed st st' := by
  have hfirst : q.indexFirst st.core.pathIndex =
      indexEntry st.core.pathIndex q.manifest.physicalStep ie.2.kind ie.2.path := by rw [SpillEntry.indexFirst, horder]
  rcases resolveEntry_cases env q.args ie.1 ie.2 st with
    ⟨hr, -⟩ | ⟨hr, -⟩ | ⟨hr, -⟩ | ⟨hr, hk, -⟩ | hr <;> rw [hr] at h <;> cases h
  · exact ⟨.inl rfl, rfl⟩
  · exact ⟨.inl (st.looked_core ie.2), st.looked_wired ie.2⟩
  · refine ⟨.inr ?_, st.looked_wired ie.2⟩
    rw [Replay.indexed, Replay.looked_core, hfirst]
    rfl
  · refine ⟨.inr ?_, st.looked_wired ie.2⟩
    rw [resolved_core, recordedTypes_of_not_write hk, hfirst]
    rfl

theorem indexed_resolved {q : SpillEntry} {ie : Nat × Entry} {rest : List (Nat × Entry)}
    (horder : replayOrder q.manifest.entries = ie :: rest) {st : Replay}
    (hkept : recordedTypes st.core.replayTypeCache ie.2 = st.core.replayTypeCache) :
    q.Indexed st (st.resolved q.manifest.physicalStep ie.2) := by
  refine ⟨.inr ?_, st.looked_wired ie.2⟩
  rw [resolved_core, hkept, SpillEntry.indexFirst, horder]

theorem resolveEntry_eq_ok {env : ReplayEnv} {args : ReplayArgs} {ie : Nat × Entry} {st : Replay}
    (h : unresolved env args st.core.replayTypeCache ie = false) :
    resolveEntry env args ie.1 ie.2 st = .ok (st.resolved args.manifest.physicalStep ie.2) := by
  have hok := isOk_resolveEntry env args ie st
  rw [h] at hok
  rcases resolveEntry_cases env args ie.1 ie.2 st with ⟨hr, -⟩ | ⟨hr, -⟩ | ⟨hr, -⟩ | ⟨hr, -⟩ | hr
  · rw [hr] at hok; cases hok
  · rw [hr] at hok; cases hok
  · rw [hr] at hok; cases hok
  · rw [hr] at hok; cases hok
  · exact hr

theorem createAttr_makes_nothing {env : ReplayEnv} {n i : Nat} {e : Entry} {t : Datatype} {parent : Path} {st : Replay}
    (h : (env.fails i .attrProbe = true ∧ env.fails i .ensureAttrGroup = true) ∧
      ((earlierCopy st.core.pathIndex n parent).isNone = true ∨ env.fails i .aliasCreate = true)) :
    createAttr env n i e t parent st = .fail st := by
  obtain ⟨⟨hprobe, hgroup⟩, hcopy⟩ := h
  unfold createAttr
  unfold earlierCopy at hcopy
  simp only [hprobe, hgroup, Bool.not_true, Bool.false_eq_true, if_false, if_true]
  cases hfound : (if n = 0 then none else pathIndexResolve st.core.pathIndex parent (n - 1)) with
  | none => rfl
  | some r =>
    rw [hfound] at hcopy
    rw [hcopy.resolve_left Bool.false_ne_true]
    rfl

/-- The first entry fails and its object is not made. -/
theorem indexed_replayEntry {env : ReplayEnv} {q : SpillEntry} {ie : Nat × Entry} {rest : List (Nat × Entry)}
    (horder : replayOrder q.manifest.entries = ie :: rest) {st : Replay} (hstart : env.startFails = false)
    (h : nothingMade env q.args st.core = true) :
    ∃ st', replayEntry env q.args ie st = .fail st' ∧ q.Indexed st st' := by
  unfold nothingMade at h
  rw [hstart, Bool.false_or, show q.args.manifest = q.manifest from rfl, horder] at h
  simp only [Bool.or_eq_true] at h
  unfold replayEntry
  cases hunresolved : unresolved env q.args st.core.replayTypeCache ie with
  | true =>
    have hok := isOk_resolveEntry env q.args ie st
    rw [hunresolved] at hok
    cases hres : resolveEntry env q.args ie.1 ie.2 st with
    | ok s => rw [hres] at hok; cases hok
    | fail s => exact ⟨s, rfl, indexed_resolveEntry horder hres⟩
  | false =>
    replace h := h.resolve_left (by rw [hunresolved]; exact Bool.false_ne_true)
    rw [resolveEntry_eq_ok hunresolved, Outcome.bind_ok, resolved_core]
    simp only [entryType_recorded]
    cases htype : entryType st.core.replayTypeCache ie.2 with
    | none =>
      refine ⟨_, rfl, indexed_resolved horder ?_⟩
      unfold entryType at htype
      cases hfield : ie.2.typeEnc with
      | sent t => rw [hfield] at htype; cases htype
      | omitted t =>
        rw [recordedTypes, hfield]
        cases ie.2.kind <;> rfl
    | some t =>
      rw [htype] at h
      simp only at h ⊢
      cases hk : ie.2.kind with
      | dsetCreate =>
        rw [hk] at h
        refine ⟨_, ?_, indexed_resolved horder (recordedTypes_of_not_write (by rw [hk]; decide) _)⟩
        simp only [applyEntry, hk, h, if_true]
        rfl
      | attr =>
        rw [hk] at h
        refine ⟨_, ?_, indexed_resolved horder (recordedTypes_of_not_write (by rw [hk]; decide) _)⟩
        simp only [applyEntry, hk]
        cases hparent : attrParent ie.2.path with
        | none => rfl
        | some parent =>
          rw [hparent] at h
          simp only [Bool.and_eq_true, Bool.or_eq_true] at h
          have hcopy : earlierCopy (st.resolved q.manifest.physicalStep ie.2).core.pathIndex q.manifest.physicalStep parent
              = earlierCopy st.core.pathIndex q.manifest.physicalStep parent := by
            rw [resolved_core]
            exact earlierCopy_appended (appended_indexEntry _ _ _ _) parent
          have hfail := createAttr_makes_nothing (e := ie.2) (t := t) (hcopy ▸ h)
          simp only
          rw [show q.args.manifest.physicalStep = q.manifest.physicalStep from rfl, hfail]
          rfl
      | dsetWrite => rw [hk] at h; cases h
      | link => rw [hk] at h; cases h
      | group => rw [hk] at h; cases h

/-- An attempt that makes nothing leaves the state as it is, but for the index. -/
theorem indexed_of_nothingMade {env : ReplayEnv} {q : SpillEntry} {st : Replay}
    (h : nothingMade env q.args st.core = true) :
    ∃ st', replayManifest env q.args st = .fail st' ∧ q.Indexed st st' := by
  unfold replayManifest
  cases hstart : env.startFails with
  | true => exact ⟨st, rfl, .inl rfl, rfl⟩
  | false =>
    show ∃ st', (Outcome.runAll (replayEntry env q.args) (replayOrder q.manifest.entries) st).bind _ = .fail st' ∧ _
    cases horder : replayOrder q.manifest.entries with
    | nil =>
      have hentries : q.manifest.entries = [] := by
        cases hent : q.manifest.entries with
        | nil => rfl
        | cons e es =>
          have hmem : ((0, e) : Nat × Entry) ∈ replayOrder q.manifest.entries :=
            mem_replayOrder_iff.mpr (by rw [hent]; rfl)
          rw [horder] at hmem
          cases hmem
      unfold nothingMade at h
      rw [hstart, Bool.false_or, show q.args.manifest = q.manifest from rfl, horder] at h
      refine ⟨st, ?_, .inl rfl, rfl⟩
      rw [Outcome.runAll_nil, Outcome.bind_ok, persist_eq, if_pos h]
      show Outcome.fail (carryForwardResized env q.manifest st) = _
      rw [carryForwardResized, hentries]
      rfl
    | cons ie rest =>
      obtain ⟨st', hfail, hindexed⟩ := indexed_replayEntry horder hstart h
      refine ⟨st', ?_, hindexed⟩
      rw [Outcome.runAll_cons, hfail]
      rfl

/-! ## Trying again -/

theorem pathIndexResolve_indexEntry (idx : PathIndex) (n : Nat) (kind : Kind) (at_ path : Path) (k : Nat) :
    pathIndexResolve (indexEntry idx n kind at_) path k =
      if (kind.indexed ∧ at_ = path) ∧ n ≤ k then some n else pathIndexResolve idx path k := by
  unfold pathIndexResolve
  rw [steps_indexEntry]
  by_cases hat : kind.indexed ∧ at_ = path
  · rw [if_pos hat, List.reverse_append, List.reverse_singleton, List.singleton_append, List.find?_cons]
    by_cases hk : n ≤ k
    · rw [if_pos ⟨hat, hk⟩, decide_eq_true hk]
    · rw [if_neg fun h => hk h.2, decide_eq_false hk]
  · rw [if_neg hat, if_neg fun h => hat h.1]

/-- What a replay of step `n` reads is the same in both. -/
structure Core.Resumes (n : Nat) (c c' : Core) : Prop where
  config : c'.config = c.config
  index : ∀ path k, pathIndexResolve c'.pathIndex path k = pathIndexResolve c.pathIndex path k
  types : c'.replayTypeCache = c.replayTypeCache
  ops : c'.file.ops n = c.file.ops n

theorem congruence_resumes (n : Nat) : ReplayCongruence (fun _ => True) n (Core.Resumes n) where
  config := fun h => h.config
  index := fun h _ k => h.index _ k
  types := fun h _ => by rw [h.types]
  indexed := fun kind h _ =>
    { h with index := fun path k => by simp only [pathIndexResolve_indexEntry, h.index] }
  typed := fun t h _ => { h with types := by simp only [h.types] }
  noted := fun _ _ h => ⟨h.config, h.index, h.types, h.ops⟩
  logged := fun op h => { h with ops := by simp only [StepFile.ops_append, h.ops] }
  ensured := fun h => { h with ops := by simp only [StepFile.ops_ensure, h.ops] }

/-- The same once the first entry is indexed: what attempts that make nothing leave. -/
structure SpillEntry.Retryable (q : SpillEntry) (st st' : Replay) : Prop where
  config : st'.core.config = st.core.config
  index : ∀ path k, pathIndexResolve (q.indexFirst st'.core.pathIndex) path k =
    pathIndexResolve (q.indexFirst st.core.pathIndex) path k
  types : st'.core.replayTypeCache = st.core.replayTypeCache
  ops : st'.core.file.ops q.manifest.physicalStep = st.core.file.ops q.manifest.physicalStep
  wired : st'.wired = st.wired

theorem SpillEntry.Retryable.refl (q : SpillEntry) (st : Replay) : q.Retryable st st :=
  ⟨rfl, fun _ _ => rfl, rfl, rfl, rfl⟩

theorem SpillEntry.Retryable.resumes {q : SpillEntry} {st s s' : Replay} (h : q.Retryable st s)
    (hcore : s.core.Resumes q.manifest.physicalStep s'.core) (hwired : s'.wired = s.wired) : q.Retryable st s' where
  config := hcore.config.trans h.config
  index := fun path k => by
    rw [← h.index path k]
    unfold SpillEntry.indexFirst
    split
    · exact hcore.index path k
    · simp only [pathIndexResolve_indexEntry, hcore.index]
  types := hcore.types.trans h.types
  ops := hcore.ops.trans h.ops
  wired := hwired.trans h.wired

/-- Indexing the first entry twice resolves as indexing it once. -/
theorem indexFirst_twice (q : SpillEntry) (idx : PathIndex) (path : Path) (k : Nat) :
    pathIndexResolve (q.indexFirst (q.indexFirst idx)) path k = pathIndexResolve (q.indexFirst idx) path k := by
  unfold SpillEntry.indexFirst
  split
  · rfl
  · rw [pathIndexResolve_indexEntry, pathIndexResolve_indexEntry]
    split
    · rfl
    · rfl

theorem SpillEntry.Retryable.indexed {q : SpillEntry} {st s s' : Replay} (h : q.Retryable st s) (hs : q.Indexed s s') :
    q.Retryable st s' := by
  obtain ⟨hcore, hwired⟩ := hs
  rcases hcore with hcore | hcore
  · exact ⟨hcore ▸ h.config, hcore ▸ h.index, hcore ▸ h.types, hcore ▸ h.ops, hwired.trans h.wired⟩
  · refine ⟨hcore ▸ h.config, fun path k => ?_, hcore ▸ h.types, hcore ▸ h.ops, hwired.trans h.wired⟩
    rw [hcore]
    show pathIndexResolve (q.indexFirst (q.indexFirst s.core.pathIndex)) path k = _
    rw [indexFirst_twice, h.index]

/-- From the attempt on: attempts that fail at once, and whatever leaves alone what the step's replay reads. -/
inductive Waits (q : SpillEntry) (st : Replay) : Replay → Prop where
  | refl : Waits q st st
  | idle {s s' : Replay} (h : Waits q st s) (hcore : s.core.Resumes q.manifest.physicalStep s'.core)
      (hwired : s'.wired = s.wired) : Waits q st s'
  | failed {s s' : Replay} {env : DrainEnv} (h : Waits q st s) (hfails : failsAtOnce env q s.core = true)
      (hattempt : drainOne env q s = .fail s') : Waits q st s'

theorem indexed_of_failsAtOnce {env : DrainEnv} {q : SpillEntry} {st st' : Replay}
    (hfails : failsAtOnce env q st.core = true) (h : drainOne env q st = .fail st') : q.Indexed st st' := by
  unfold drainOne at h
  unfold failsAtOnce at hfails
  cases hread : env.readFails with
  | true =>
    rw [hread] at h
    cases h
    exact ⟨.inl rfl, rfl⟩
  | false =>
    rw [hread, Bool.false_or] at hfails
    rw [hread] at h
    obtain ⟨s, hs, hindexed⟩ := indexed_of_nothingMade hfails
    rw [show replayManifest env.replay q.args st = .fail st' from h] at hs
    cases hs
    exact hindexed

theorem retryable_of_waits {q : SpillEntry} {st s : Replay} (h : Waits q st s) : q.Retryable st s := by
  induction h with
  | refl => exact .refl q st
  | idle _ hcore hwired ih => exact ih.resumes hcore hwired
  | failed _ hfails hattempt ih => exact ih.indexed (indexed_of_failsAtOnce hfails hattempt)

/-- The first entry brings the two together. -/
theorem beside_first {q : SpillEntry} {ie : Nat × Entry} {rest : List (Nat × Entry)}
    (horder : replayOrder q.manifest.entries = ie :: rest) {env : ReplayEnv} {st s a : Replay} (h : q.Retryable st s)
    (hok : replayEntry env q.args ie st = .ok a) :
    ∃ b, replayEntry env q.args ie s = .ok b ∧ a.Beside (Core.Resumes q.manifest.physicalStep) b := by
  have hfirst : ∀ idx, q.indexFirst idx = indexEntry idx q.manifest.physicalStep ie.2.kind ie.2.path := by
    intro idx
    rw [SpillEntry.indexFirst, horder]
  have hresolved : unresolved env q.args st.core.replayTypeCache ie = false := by
    have hres := isOk_resolveEntry env q.args ie st
    have hentry : (replayEntry env q.args ie st).isOk = true := by rw [hok]; rfl
    rw [replayEntry, Outcome.isOk_bind, Bool.and_eq_true] at hentry
    rw [hentry.1] at hres
    simpa using hres.symm
  have hbeside : (st.resolved q.manifest.physicalStep ie.2).Beside (Core.Resumes q.manifest.physicalStep)
      (s.resolved q.manifest.physicalStep ie.2) := by
    refine ⟨?_, ?_⟩
    · rw [resolved_core, resolved_core]
      refine ⟨h.config, fun path k => ?_, by simp only [h.types], h.ops⟩
      have hindex := h.index path k
      rw [hfirst, hfirst] at hindex
      exact hindex
    · show (s.looked ie.2).wired = (st.looked ie.2).wired
      rw [Replay.looked_wired, Replay.looked_wired, h.wired]
  unfold replayEntry at hok ⊢
  rw [resolveEntry_eq_ok hresolved, Outcome.bind_ok] at hok
  rw [resolveEntry_eq_ok (h.types ▸ hresolved), Outcome.bind_ok]
  have htypes : (s.resolved q.args.manifest.physicalStep ie.2).core.replayTypeCache =
      (st.resolved q.args.manifest.physicalStep ie.2).core.replayTypeCache := hbeside.core.types
  rw [htypes]
  cases htype : entryType (st.resolved q.args.manifest.physicalStep ie.2).core.replayTypeCache ie.2 with
  | none =>
    rw [htype] at hok
    cases hok
  | some t =>
    rw [htype] at hok
    simp only at hok ⊢
    rw [show q.args.manifest.physicalStep = q.manifest.physicalStep from rfl] at hok ⊢
    have hrel : Outcome.Rel _ (applyEntry env q.args ie.1 ie.2 t _) (applyEntry env q.args ie.1 ie.2 t _) :=
      beside_applyEntry (congruence_resumes q.manifest.physicalStep) hbeside env rfl ie.1 (fun _ _ => trivial) t
    rw [hok] at hrel
    cases happly : applyEntry env q.args ie.1 ie.2 t (s.resolved q.manifest.physicalStep ie.2) with
    | fail b => rw [happly] at hrel; cases hrel
    | ok b =>
      rw [happly] at hrel
      exact ⟨b, rfl, hrel.state⟩

/-- Where the step could have been replayed at once, it is completed now, with the same content. -/
theorem replayManifest_again {q : SpillEntry} {env : ReplayEnv} {st s st' : Replay} (h : q.Retryable st s)
    (hok : replayManifest env q.args st = .ok st') :
    ∃ s', replayManifest env q.args s = .ok s' ∧
      s'.core.file.ops q.manifest.physicalStep = st'.core.file.ops q.manifest.physicalStep := by
  have hcongr := congruence_resumes q.manifest.physicalStep
  suffices hrel : Outcome.Rel (Replay.Beside (Core.Resumes q.manifest.physicalStep))
      (replayManifest env q.args st) (replayManifest env q.args s) by
    rw [hok] at hrel
    cases hres : replayManifest env q.args s with
    | fail s' => rw [hres] at hrel; cases hrel
    | ok s' =>
      rw [hres] at hrel
      exact ⟨s', rfl, hrel.state.core.ops⟩
  cases horder : replayOrder q.manifest.entries with
  | nil =>
    have hcore : st.core.Resumes q.manifest.physicalStep s.core := by
      refine ⟨h.config, fun path k => ?_, h.types, h.ops⟩
      have hindex := h.index path k
      simp only [SpillEntry.indexFirst, horder] at hindex
      exact hindex
    exact beside_replayManifest hcongr ⟨hcore, h.wired⟩ env rfl fun _ _ => trivial
  | cons ie rest =>
    unfold replayManifest at hok ⊢
    cases hstart : env.startFails with
    | true =>
      rw [hstart] at hok
      cases hok
    | false =>
      rw [hstart] at hok
      simp only [Bool.false_eq_true, if_false, show q.args.manifest = q.manifest from rfl, horder,
        Outcome.runAll_cons] at hok ⊢
      cases hentry : replayEntry env q.args ie st with
      | fail a =>
        rw [hentry] at hok
        cases hok
      | ok a =>
        obtain ⟨b, hb, hbeside⟩ := beside_first horder h hentry
        rw [hb, Outcome.bind_ok, Outcome.bind_ok]
        refine (Outcome.Rel.runAll (fun ie' _ x y hxy => beside_replayEntry hcongr hxy env rfl ie' fun _ _ => trivial)
          hbeside).bind fun x y hxy => ?_
        exact beside_persist hcongr (beside_carryForwardResized hcongr hxy env rfl fun _ _ => trivial) env rfl

/-! ## What cannot be tried again -/

/-- A dataset or an attribute of the step is in its group. -/
def SpillEntry.Taken (q : SpillEntry) (file : StepFile) : Prop :=
  ∃ e ∈ q.manifest.entries,
    (e.kind = .dsetCreate ∧ file.objectAt q.manifest.physicalStep e.path ≠ none) ∨
      (e.kind = .attr ∧ ∃ t space dcpl, .attrCreate e.path t space dcpl ∈ file.ops q.manifest.physicalStep)

/-- The answers of an HDF5 library that creates no name twice: what is in the step's group is refused. -/
structure RespectsNames (env : ReplayEnv) (q : SpillEntry) (file : StepFile) : Prop where
  datasets : ∀ (i : Nat) (e : Entry), q.manifest.entries[i]? = some e → e.kind = .dsetCreate →
    file.objectAt q.manifest.physicalStep e.path ≠ none → env.fails i .create = true
  attributes : ∀ (i : Nat) (e : Entry), q.manifest.entries[i]? = some e → e.kind = .attr →
    (∃ t space dcpl, .attrCreate e.path t space dcpl ∈ file.ops q.manifest.physicalStep) →
      env.fails i .attrProbe = true ∧ env.fails i .attrOnAlias = true ∧ env.fails i .attrCreate = true

theorem isOk_taken {env : ReplayEnv} {q : SpillEntry} {file : StepFile} (hnames : RespectsNames env q file)
    {i : Nat} {e : Entry} (hget : q.manifest.entries[i]? = some e)
    (htaken : (e.kind = .dsetCreate ∧ file.objectAt q.manifest.physicalStep e.path ≠ none) ∨
      (e.kind = .attr ∧ ∃ t space dcpl, .attrCreate e.path t space dcpl ∈ file.ops q.manifest.physicalStep))
    (s : Replay) : (replayEntry env q.args (i, e) s).isOk = false := by
  cases hok : replayEntry env q.args (i, e) s with
  | fail s' => rfl
  | ok s' =>
    obtain ⟨t, ht⟩ := replayEntry_eq_ok hok
    have hstops := isOk_applyEntry env q.args (i, e) t (s.resolved q.args.manifest.physicalStep e)
    rw [ht] at hstops
    rcases htaken with ⟨hk, hthere⟩ | ⟨hk, hthere⟩
    · have hcreate := hnames.datasets i e hget hk hthere
      simp [objectStops, hk, hcreate] at hstops
    · obtain ⟨hprobe, halias, hattr⟩ := hnames.attributes i e hget hk hthere
      cases hparent : attrParent e.path with
      | none => simp [objectStops, hk, hparent] at hstops
      | some parent => simp [objectStops, hk, hparent, attrStops, hprobe, halias, hattr] at hstops

/-- A step whose group holds one of its datasets or attributes is not completed. -/
theorem isOk_drainOne_taken {env : DrainEnv} {q : SpillEntry} {st : Replay} (htaken : q.Taken st.core.file)
    (hnames : RespectsNames env.replay q st.core.file) : (drainOne env q st).isOk = false := by
  obtain ⟨e, he, hwhy⟩ := htaken
  obtain ⟨i, hget⟩ := List.getElem?_of_mem he
  unfold drainOne
  split
  · rfl
  · cases hok : replayManifest env.replay q.args st with
    | fail s => rfl
    | ok s =>
      unfold replayManifest at hok
      split at hok
      · cases hok
      · obtain ⟨s', hloop, -⟩ := Outcome.bind_eq_ok_iff.mp hok
        obtain ⟨x, hx⟩ := Outcome.isOk_of_runAll hloop (a := (i, e)) (mem_replayOrder_iff.mpr hget)
        rw [isOk_taken hnames hget hwhy x] at hx
        cases hx

/-- What is at a path of the step's group stays there while the step is closed. -/
theorem objectAt_persist {env : ReplayEnv} {m : Step} {s : Replay} {path : Path} {op : FileOp}
    (h : s.core.file.objectAt m.physicalStep path = some op) :
    (persist env m (carryForwardResized env m s)).state.core.file.objectAt m.physicalStep path = some op := by
  obtain ⟨-, ops, -, hcarry⟩ := applied_carryForwardResized env m s
  have hkept : (carryForwardResized env m s).core.file.objectAt m.physicalStep path = some op := by
    rw [hcarry]
    exact StepFile.objectAt_appendAll _ _ _ h
  rw [persist_eq]
  split
  · exact hkept
  · refine StepFile.objectAt_appendAll _ _ _ ?_
    rw [StepFile.objectAt_congr (StepFile.ops_ensure _ _ _)]
    exact hkept

theorem objectAt_append_self (file : StepFile) (n : Nat) {op : FileOp} {path : Path} (hname : op.name = some path) :
    ∃ op', (file.append n op).objectAt n path = some op' := by
  unfold StepFile.objectAt
  rw [StepFile.ops_append, if_pos rfl, List.find?_append]
  cases (file.ops n).find? fun op => decide (op.name = some path) with
  | some op' => exact ⟨op', rfl⟩
  | none => exact ⟨op, by simp [hname]⟩

/-- The first dataset is made when nothing stands in its way. -/
theorem made_first {env : ReplayEnv} {q : SpillEntry} {ie : Nat × Entry} {rest : List (Nat × Entry)}
    (horder : replayOrder q.manifest.entries = ie :: rest) (hk : ie.2.kind = .dsetCreate) {st : Replay}
    (h : nothingMade env q.args st.core = false) :
    env.startFails = false ∧ ∃ a op, replayEntry env q.args ie st = .ok a ∧
      a.core.file.objectAt q.manifest.physicalStep ie.2.path = some op := by
  unfold nothingMade at h
  rw [show q.args.manifest = q.manifest from rfl, horder] at h
  simp only [hk, Bool.or_eq_false_iff] at h
  obtain ⟨hstart, hresolved, htype⟩ := h
  refine ⟨hstart, ?_⟩
  cases hfound : entryType st.core.replayTypeCache ie.2 with
  | none =>
    rw [hfound] at htype
    cases htype
  | some t =>
    rw [hfound] at htype
    simp only [Bool.or_eq_false_iff] at htype
    have hok : (replayEntry env q.args ie st).isOk = true := by
      unfold replayEntry
      rw [resolveEntry_eq_ok hresolved, Outcome.bind_ok, resolved_core]
      simp only [entryType_recorded, hfound]
      rw [isOk_applyEntry]
      simp [objectStops, hk, htype.1, htype.2]
    cases hres : replayEntry env q.args ie st with
    | fail a =>
      rw [hres] at hok
      cases hok
    | ok a =>
      obtain ⟨t', hfile⟩ := made_dataset hres hk
      have hname : (FileOp.datasetCreate ie.2.path t' ie.2.space ie.2.dcpl).name = some ie.2.path := rfl
      obtain ⟨op, hop⟩ := objectAt_append_self st.core.file q.manifest.physicalStep hname
      exact ⟨a, op, rfl, by rw [hfile]; exact hop⟩

/-- Once the first dataset of the step is made, its name is taken. -/
theorem taken_of_made {env : DrainEnv} {q : SpillEntry} {ie : Nat × Entry} {rest : List (Nat × Entry)}
    (horder : replayOrder q.manifest.entries = ie :: rest) (hk : ie.2.kind = .dsetCreate) {st st' : Replay}
    (hmade : failsAtOnce env q st.core = false) (h : drainOne env q st = .fail st') : q.Taken st'.core.file := by
  rw [failsAtOnce, Bool.or_eq_false_iff] at hmade
  obtain ⟨hstart, a, op, hentry, hop⟩ := made_first horder hk hmade.2
  have hmem : ie ∈ replayOrder q.manifest.entries := by
    rw [horder]
    exact List.mem_cons_self
  refine ⟨ie.2, mem_replayOrder hmem, .inl ⟨hk, ?_⟩⟩
  have hthere : (drainOne env q st).state.core.file.objectAt q.manifest.physicalStep ie.2.path = some op := by
    unfold drainOne replayManifest
    simp only [hmade.1, hstart, Bool.false_eq_true, if_false, show q.args.manifest = q.manifest from rfl, horder,
      Outcome.runAll_cons, hentry, Outcome.bind_ok]
    refine Outcome.state_bind (P := fun s : Replay => s.core.file.objectAt q.manifest.physicalStep ie.2.path = some op)
      ?_ ?_
    · exact Outcome.state_runAll
        (P := fun s : Replay => s.core.file.objectAt q.manifest.physicalStep ie.2.path = some op)
        (fun ie' _ s hs => objectAt_replayEntry env.replay q.args ie' hs) hop
    · intro s hs
      have hloop := Outcome.state_runAll
        (P := fun s : Replay => s.core.file.objectAt q.manifest.physicalStep ie.2.path = some op) (l := rest)
        (fun ie' _ s hs => objectAt_replayEntry env.replay q.args ie' hs) hop
      rw [hs] at hloop
      exact objectAt_persist hloop
  rw [h] at hthere
  rw [show st'.core.file.objectAt q.manifest.physicalStep ie.2.path = some op from hthere]
  exact Option.some_ne_none op

/-! ## The queue -/

/-- A later call that finds the step in front of the queue and in the window completes it, with the content an
immediate replay would have given it, and goes on with the rest. -/
def Completes (q : SpillEntry) (st s : Replay) : Prop :=
  ∀ (env : Nat → DrainEnv) (limit : Nat) (qs : List SpillEntry) (now : Replay), q.physicalStep ≤ limit →
    (env 0).readFails = false → replayManifest (env 0).replay q.args st = .ok now →
      ∃ s', drainEntries env limit 0 (q :: qs) s = drainEntries env limit 1 qs s' ∧
        s'.core.file.ops q.manifest.physicalStep = now.core.file.ops q.manifest.physicalStep

/-- Every later call that finds the step in front of the queue, with what is in its group, leaves it there. -/
def NeverCompletes (q : SpillEntry) (st : Replay) : Prop :=
  ∀ (env : Nat → DrainEnv) (limit : Nat) (qs : List SpillEntry) (s : Replay),
    s.core.file.ops q.manifest.physicalStep = st.core.file.ops q.manifest.physicalStep →
    RespectsNames (env 0).replay q s.core.file → (drainEntries env limit 0 (q :: qs) s).1 = q :: qs

theorem completes_of_waits {q : SpillEntry} {st s : Replay} (h : Waits q st s) : Completes q st s := by
  intro env limit qs now hwindow hread hok
  obtain ⟨s', hs', hops⟩ := replayManifest_again (retryable_of_waits h) hok
  refine ⟨s', ?_, hops⟩
  rw [drainEntries_cons, if_neg (by omega), drainOne, if_neg (by rw [hread]; exact Bool.false_ne_true), hs']

theorem Taken.congr {q : SpillEntry} {file file' : StepFile} (h : q.Taken file)
    (hops : file'.ops q.manifest.physicalStep = file.ops q.manifest.physicalStep) : q.Taken file' := by
  obtain ⟨e, he, hwhy⟩ := h
  refine ⟨e, he, ?_⟩
  rw [StepFile.objectAt_congr hops, hops]
  exact hwhy

theorem neverCompletes_of_taken {q : SpillEntry} {st : Replay} (h : q.Taken st.core.file) : NeverCompletes q st := by
  intro env limit qs s hops hnames
  have hfails : (drainOne (env 0) q s).isOk = false := isOk_drainOne_taken (Taken.congr h hops) hnames
  rw [drainEntries_cons]
  split
  · rfl
  · cases hres : drainOne (env 0) q s with
    | ok s' =>
      rw [hres] at hfails
      cases hfails
    | fail s' => rfl

theorem Waits.trans {q : SpillEntry} {a b c : Replay} (hab : Waits q a b) (hbc : Waits q b c) : Waits q a c := by
  induction hbc with
  | refl => exact hab
  | idle _ hcore hwired ih => exact ih.idle hcore hwired
  | failed _ hfails hattempt ih => exact ih.failed hfails hattempt

-- step 1 creates and writes `/a` and is spilled
def spilledByte : Replay :=
  let w := (Writer.init ⟨true, true, false, 0⟩).run
    [.setQueuePolicy .spill 0, .beginStep [] 0, .endStep .quiet, .beginStep [] 1, createByte 0 ['a'], writeByte 0,
      .closeHandle 0, .endStep { EndEnv.quiet with lag := some 0 }]
  ⟨w.core, [], w.lookups⟩

-- `H5Dwrite` fails
def writeFails : Nat → DrainEnv :=
  fun _ => ⟨false, { ReplayEnv.quiet with fails := fun i c => i = 1 ∧ c = .write }⟩

end VolStream
