import VolStream.Writer.Alike
import VolStream.Writer.Reached
import VolStream.Writer.StepGroups

/-!
# Failed steps

`H5Fend_step` takes back two things when it fails: the group `/step/<n>` and the step's index
entries. It does not take back the group attributes it folded, the types it recorded in the two
caches, or the links it noted. A failed step that had none of these to leave behind is invisible:
the writer goes on as if the step had never been opened.
-/

namespace VolStream

/-! ## Types -/

/-- The encoder gets to record a type its cache does not hold. -/
def encodesNewType (env : BuildEnv) (w : TypeCache) : Nat → List PendingEntry → Bool
  | _, [] => false
  | i, pe :: ps =>
      !env.encodeFails i && if sendsNewType w pe then !env.upsertFails i
        else !env.growFails i && encodesNewType env w (i + 1) ps

theorem encode_of_not_new {w : TypeCache} {pe : PendingEntry} (h : sendsNewType w pe = false) :
    recordType w pe = w ∧ ¬ (pe.kind = .dsetWrite ∧ (encodeType w pe).field.isSome) := by
  simp only [sendsNewType, ne_eq, decide_eq_false_iff_not, not_and, not_not] at h
  unfold recordType encodeType
  refine ⟨if_neg (fun hnew => hnew.2 (h hnew.1)), ?_⟩
  rintro ⟨hk, hsome⟩
  rw [if_pos ⟨hk, h hk⟩] at hsome
  cases hsome

theorem buildEntries_of_no_new {env : BuildEnv} {w : TypeCache} {pending : List PendingEntry} {i : Nat}
    (h : encodesNewType env w i pending = false) (off : Nat) :
    (buildEntries env i off pending w).1 = w
      ∧ ∀ pair, (buildEntries env i off pending w).2 = some pair → ∀ e ∈ pair.1, sendsType e = false := by
  induction pending generalizing i off with
  | nil =>
    refine ⟨rfl, fun pair hpair => ?_⟩
    cases hpair
    exact List.forall_mem_nil _
  | cons pe pending ih =>
    unfold buildEntries
    unfold encodesNewType at h
    cases hencode : env.encodeFails i with
    | true => exact ⟨rfl, fun pair hpair => by cases hpair⟩
    | false =>
      cases hnew : sendsNewType w pe with
      | true =>
        have hupsert : env.upsertFails i = true := by simpa [hencode, hnew] using h
        rw [hupsert]
        exact ⟨rfl, fun pair hpair => by cases hpair⟩
      | false =>
        obtain ⟨hrecord, hsent⟩ := encode_of_not_new hnew
        cases hgrow : env.growFails i with
        | true => exact ⟨hrecord, fun pair hpair => by cases hpair⟩
        | false =>
          have hrest : encodesNewType env w (i + 1) pending = false := by
            simpa [hencode, hnew, hgrow] using h
          obtain ⟨hcache, hentries⟩ := ih hrest (off + pe.payload.len)
          simp only [Bool.false_eq_true, if_false, Bool.false_and, hrecord]
          generalize buildEntries env (i + 1) (off + pe.payload.len) pending w = res at hcache hentries ⊢
          obtain ⟨w', res⟩ := res
          cases res with
          | none => exact ⟨hcache, fun pair hpair => by cases hpair⟩
          | some pair =>
            refine ⟨hcache, fun pair' hpair' => ?_⟩
            cases hpair'
            refine List.forall_mem_cons.mpr ⟨?_, hentries pair rfl⟩
            cases hsends : sendsType _ with
            | false => rfl
            | true =>
              simp only [sendsType, Bool.and_eq_true, decide_eq_true_eq] at hsends
              exact absurd hsends hsent

theorem buildManifest_of_no_new {env : BuildEnv} {fs : Core}
    (h : encodesNewType env fs.writeTypeCache 0 fs.pending = false) :
    (buildManifest env fs).1 = fs
      ∧ ∀ m, (buildManifest env fs).2 = some m →
          m.physicalStep = fs.physicalStep ∧ ∀ e ∈ m.entries, sendsType e = false := by
  obtain ⟨hcache, hentries⟩ := buildEntries_of_no_new h 0
  unfold buildManifest
  generalize buildEntries env 0 0 fs.pending fs.writeTypeCache = res at hcache hentries ⊢
  obtain ⟨w, res⟩ := res
  simp only at hcache
  cases res with
  | none =>
    refine ⟨?_, fun m hm => by cases hm⟩
    rw [hcache]
  | some pair =>
    refine ⟨?_, fun m hm => ?_⟩
    · simp only [hcache]
    · rw [Option.ite_none_left_eq_some, Option.some.injEq] at hm
      obtain ⟨-, rfl⟩ := hm
      exact ⟨rfl, hentries pair rfl⟩

theorem recordedTypes_of_not_sends {e : Entry} (h : sendsType e = false) (r : TypeCache) :
    recordedTypes r e = r := by
  unfold recordedTypes
  unfold sendsType at h
  cases hk : e.kind <;> cases ht : e.typeEnc <;> simp_all [TypeEnc.field]

/-! ## Links -/

/-- A link the connector knows: its path is marked as one, and where it is made and noted the
record is the one already held. -/
def knownLink (env : ReplayEnv) (args : ReplayArgs) (fs : Core) (ie : Nat × Entry) : Bool :=
  (fs.pathIndex ie.2.path).isLink && match args.payload ie.1 with
    | .bytes _ => true
    | .link hard target => decide (target = []) || env.fails ie.1 .linkCreate || env.fails ie.1 .linkNote
        || decide (fs.links.find? ie.2.path = some ⟨target, hard⟩)

theorem notedLinks_of_known {env : ReplayEnv} {args : ReplayArgs} {fs : Core} {ie : Nat × Entry}
    (h : ie.2.kind = .link → knownLink env args fs ie) : notedLinks env args ie fs = fs.links := by
  by_cases hk : ie.2.kind = .link
  · have hknown := h hk
    unfold knownLink at hknown
    unfold notedLinks
    rw [hk]
    cases hpayload : args.payload ie.1 with
    | bytes b => rfl
    | link hard target =>
      rw [hpayload] at hknown
      simp only [Bool.and_eq_true, Bool.or_eq_true, decide_eq_true_eq, or_assoc] at hknown
      rcases hknown.2 with hskip | hskip | hskip | hheld
      · exact if_pos (.inl hskip)
      · exact if_pos (.inr (.inl hskip))
      · exact if_pos (.inr (.inr hskip))
      · simp only [Table.set_of_find? hheld, ite_self]
  · exact notedLinks_of_not_link hk

theorem isLink_indexEntry (idx : PathIndex) (n : Nat) (kind : Kind) (path path' : Path) :
    (indexEntry idx n kind path path').isLink
      = ((idx path').isLink || decide (kind = .link ∧ path = path')) := by
  unfold indexEntry pathIndexMarkLink pathIndexAdd
  by_cases hpath : path = path'
  · subst hpath
    cases kind <;> simp [Kind.indexed]
  · have hne : path' ≠ path := Ne.symm hpath
    cases kind <;> simp [Kind.indexed, Function.update_of_ne hne, hpath]

/-! ## What a traceless replay leaves

`/step/<n>` and index entries of step `n`, both of which the failing `H5Fend_step` takes back. -/

theorem StepFile.unlink_appendAll (file : StepFile) (n : Nat) (ops : List FileOp) :
    (file.appendAll n ops).unlink n = file.unlink n := by
  induction ops generalizing file with
  | nil => rfl
  | cons op ops ih => exact (ih (file.append n op)).trans (Table.filter_set file (by simp) fun _ _ => by simp)

theorem StepFile.unlink_ensure (file : StepFile) (n : Nat) : (file.ensure n).unlink n = file.unlink n := by
  unfold StepFile.ensure
  split
  · exact Table.filter_set file (by simp) fun _ _ => by simp
  · rfl

/-- `fs'` differs from `fs` by the group of step `n` and its index entries. -/
structure Core.Tried (n : Nat) (fs fs' : Core) : Prop where
  core : fs' = { fs with pathIndex := fs'.pathIndex, file := fs'.file }
  index : Appended n fs.pathIndex fs'.pathIndex
  isLink : ∀ path, (fs'.pathIndex path).isLink = (fs.pathIndex path).isLink
  file : fs'.file.unlink n = fs.file.unlink n

theorem Core.Tried.refl (n : Nat) (fs : Core) : fs.Tried n fs := ⟨rfl, .refl n _, fun _ => rfl, rfl⟩

theorem Core.Tried.withFile {n : Nat} {fs fs' : Core} (h : fs.Tried n fs') {file : StepFile}
    (hfile : file.unlink n = fs'.file.unlink n) : fs.Tried n { fs' with file := file } := by
  refine ⟨?_, h.index, h.isLink, hfile.trans h.file⟩
  rw [h.core]

theorem tried_replayEntry {env : ReplayEnv} {args : ReplayArgs} {fs : Core} {ie : Nat × Entry} {st : Replay}
    (h : fs.Tried args.manifest.physicalStep st.core) (hsends : sendsType ie.2 = false)
    (hknown : ie.2.kind = .link → (args.outOfBounds ie.2 || env.fails ie.1 .indexAdd) = false →
      knownLink env args fs ie) :
    fs.Tried args.manifest.physicalStep (replayEntry env args ie st).state.core := by
  by_cases hskip : ie.2.kind = .link ∧ (args.outOfBounds ie.2 || env.fails ie.1 .indexAdd) = true
  · obtain ⟨st', hst', hcore⟩ := replayEntry_unindexed (by rw [hskip.1]; rfl) hskip.2 st
    rw [hst', Outcome.state_fail, hcore]
    exact h
  · have hlink : ie.2.kind = .link → knownLink env args fs ie := by
      intro hk
      exact hknown hk (by simpa [hk] using hskip)
    have hmark : ie.2.kind = .link → (fs.pathIndex ie.2.path).isLink = true := by
      intro hk
      have hheld := hlink hk
      rw [knownLink, Bool.and_eq_true] at hheld
      exact hheld.1
    rcases replayEntry_core env args ie st with ⟨hcore, -⟩ | ⟨r, ops, links, -, hr, hlinks, hcore⟩
    · rw [hcore]
      exact h
    · have hr' : r = st.core.replayTypeCache := by
        rw [recordedTypes_of_not_sends hsends, or_self] at hr
        exact hr
      have hlinks' : links = st.core.links := by
        have hnoted : notedLinks env args ie st.core = st.core.links := by
          have hfs := notedLinks_of_known hlink
          have hsame : st.core.links = fs.links := by rw [h.core]
          unfold notedLinks at hfs ⊢
          rw [hsame]
          exact hfs
        rw [hnoted, or_self] at hlinks
        exact hlinks
      rw [hcore, hr', hlinks']
      refine ⟨?_, h.index.trans (appended_indexEntry _ _ _ _), fun path => ?_, ?_⟩
      · rw [h.core]
      · simp only [isLink_indexEntry, h.isLink]
        by_cases hpath : ie.2.kind = .link ∧ ie.2.path = path
        · rw [← hpath.2, hmark hpath.1, Bool.true_or]
        · rw [decide_eq_false hpath, Bool.or_false]
      · exact (StepFile.unlink_appendAll _ _ _).trans h.file

theorem tried_loop {env : ReplayEnv} {args : ReplayArgs} {fs : Core} {l : List (Nat × Entry)} {st : Replay}
    (h : fs.Tried args.manifest.physicalStep st.core) (hsends : ∀ ie ∈ l, sendsType ie.2 = false)
    (hknown : ∀ ie ∈ reached env args fs.pathIndex fs.replayTypeCache l, ie.2.kind = .link →
      (args.outOfBounds ie.2 || env.fails ie.1 .indexAdd) = false → knownLink env args fs ie) :
    fs.Tried args.manifest.physicalStep (Outcome.runAll (replayEntry env args) l st).state.core := by
  induction l generalizing st with
  | nil => exact h
  | cons ie l ih =>
    have hhead := hsends ie List.mem_cons_self
    have hentry := tried_replayEntry h hhead (hknown ie List.mem_cons_self)
    have hok : (replayEntry env args ie st).isOk = _ := isOk_replayEntry h.index
    rw [Outcome.runAll_cons]
    cases hrun : replayEntry env args ie st with
    | fail st' =>
      rw [hrun] at hentry
      exact hentry
    | ok st' =>
      rw [hrun] at hentry hok
      refine ih hentry (fun ie' hie' => hsends ie' (List.mem_cons_of_mem _ hie')) (fun ie' hie' => ?_)
      refine hknown ie' (List.mem_cons_of_mem _ ?_)
      -- the entry did not stop the replay, so what follows is reached
      have hgo : entryStops env args fs.pathIndex fs.replayTypeCache ie = false := by
        rw [show st.core.replayTypeCache = fs.replayTypeCache by rw [h.core], Outcome.isOk_ok] at hok
        simpa using hok.symm
      rw [hgo, recordedTypes_of_not_sends hhead]
      exact hie'

/-- Every link entry that the replay gets to index is known. -/
def LinksKnown (env : ReplayEnv) (args : ReplayArgs) (fs : Core) : Prop :=
  env.startFails = false →
    ∀ ie ∈ reached env args fs.pathIndex fs.replayTypeCache (replayOrder args.manifest.entries),
      ie.2.kind = .link → (args.outOfBounds ie.2 || env.fails ie.1 .indexAdd) = false →
        knownLink env args fs ie

theorem tried_replayManifest {env : ReplayEnv} {args : ReplayArgs} {fs : Core} {st : Replay}
    (h : fs.Tried args.manifest.physicalStep st.core)
    (hsends : ∀ e ∈ args.manifest.entries, sendsType e = false) (hknown : LinksKnown env args fs) :
    fs.Tried args.manifest.physicalStep (replayManifest env args st).state.core := by
  unfold replayManifest
  split
  · exact h
  · rename_i hstart
    have hsends' : ∀ ie ∈ replayOrder args.manifest.entries, sendsType ie.2 = false := by
      intro ie hie
      exact hsends ie.2 (mem_replayOrder hie)
    have hloop := tried_loop h hsends' (hknown (by simpa using hstart))
    refine Outcome.state_bind (P := fun s : Replay => fs.Tried args.manifest.physicalStep s.core) hloop
      (fun st' hst' => ?_)
    rw [hst', Outcome.state_ok] at hloop
    obtain ⟨-, ops, -, hcarry⟩ := applied_carryForwardResized env args.manifest st'
    have hcarried := hloop.withFile (StepFile.unlink_appendAll st'.core.file _ ops)
    rw [persist_eq]
    split
    · rw [Outcome.state_fail, hcarry]
      exact hcarried
    · rw [Outcome.state_ok]
      simp only [hcarry]
      exact hcarried.withFile ((StepFile.unlink_appendAll _ _ _).trans (StepFile.unlink_ensure _ _))

theorem mem_of_reached {env : ReplayEnv} {args : ReplayArgs} {idx : PathIndex} {r : TypeCache}
    {l : List (Nat × Entry)} {ie : Nat × Entry} (h : ie ∈ reached env args idx r l) : ie ∈ l := by
  induction l generalizing r with
  | nil => exact h
  | cons ie' l ih =>
    rcases List.mem_cons.mp h with rfl | h
    · exact List.mem_cons_self
    · split at h
      · cases h
      · exact List.mem_cons_of_mem _ (ih h)

/-! ## The failing commit -/

/-- What an immediate replay has to meet to leave no trace if it fails. -/
structure ReplayTraceless (build : BuildEnv) (env : ReplayEnv) (fs : Core) : Prop where
  types : encodesNewType build fs.writeTypeCache 0 fs.pending = false
  links : ∀ m, (buildManifest build fs).2 = some m → LinksKnown env (fs.replayArgs m) fs

theorem ReplayTraceless.withFile {build : BuildEnv} {env : ReplayEnv} {fs : Core}
    (h : ReplayTraceless build env fs) (file : StepFile) :
    ReplayTraceless build env { fs with file := file } := by
  refine ⟨h.types, fun m hm => ?_⟩
  rw [buildManifest_file] at hm
  exact h.links m hm

theorem tried_replayStep {build : BuildEnv} {env : ReplayEnv} {st : Replay}
    (h : ReplayTraceless build env st.core) :
    st.core.Tried st.core.physicalStep (replayStep build env st).state.core := by
  obtain ⟨hcore, hmanifest⟩ := buildManifest_of_no_new h.types
  have hlinks := h.links
  unfold replayStep
  generalize buildManifest build st.core = res at hcore hmanifest hlinks ⊢
  obtain ⟨fs, res⟩ := res
  simp only at hcore
  subst hcore
  cases res with
  | none => exact .refl _ _
  | some m =>
    obtain ⟨hnumber, hsends⟩ := hmanifest m rfl
    have htried := tried_replayManifest (.refl _ st.core)
      (show ∀ e ∈ (st.core.replayArgs m).manifest.entries, _ from hsends) (hlinks m rfl)
    rw [show (st.core.replayArgs m).manifest.physicalStep = st.core.physicalStep from hnumber] at htried
    exact htried

/-- What a failing spill may do before it falls back. -/
def SpillTraceless (env : SpillEnv) (fs : Core) : Prop :=
  env.placeholderFails = false → env.bakeDown = false →
    encodesNewType env.build fs.writeTypeCache 0 fs.pending = false

theorem spillStep_of_traceless {env : SpillEnv} {fs fs' : Core} (h : SpillTraceless env fs)
    (hfail : spillStep env fs = .fail fs') :
    ∃ file, fs' = { fs with file := file } ∧ file.unlink fs.physicalStep = fs.file.unlink fs.physicalStep := by
  unfold spillStep discardStep at hfail
  split at hfail
  · cases hfail
    exact ⟨fs.file, rfl, rfl⟩
  · rename_i hplaceholder
    rw [Outcome.bind_ok] at hfail
    have hensure := StepFile.unlink_ensure fs.file fs.physicalStep
    split at hfail
    · cases hfail
      exact ⟨_, rfl, hensure⟩
    · rename_i hbake
      have htypes : encodesNewType env.build { fs with file := fs.file.ensure fs.physicalStep }.writeTypeCache 0
          { fs with file := fs.file.ensure fs.physicalStep }.pending = false :=
        h (by simpa using hplaceholder) (by simpa using hbake)
      have hcore := (buildManifest_of_no_new htypes).1
      cases hbuild : buildManifest env.build { fs with file := fs.file.ensure fs.physicalStep } with
      | mk fs₁ res =>
        rw [hbuild] at hfail hcore
        simp only at hcore
        cases res with
        | none =>
          cases hfail
          exact ⟨_, hcore, hensure⟩
        | some m =>
          simp only at hfail
          split at hfail
          · cases hfail
            exact ⟨_, hcore, hensure⟩
          · cases hfail

/-- The queue hands no older step to this commit. -/
def drainsNothing (env : EndEnv) (fs : Core) : Bool :=
  fs.activePolicy.isNone || !fs.config.haveBake || match fs.pendingSpill with
    | [] => true
    | q :: _ =>
        decide ((env.lagDrain.getD fs.physicalStep + fs.reserveSlots) % 2 ^ 64 < q.physicalStep)
          || (env.drain 0).readFails || (env.drain 0).replay.startFails

theorem drained_of_drainsNothing {env : EndEnv} {st : Replay} (h : drainsNothing env st.core) :
    drained env st = st := by
  unfold drained drainFirst
  split
  · rename_i hactive
    split
    · rename_i hbake
      rw [Bool.and_eq_true] at hbake
      unfold drainsNothing at h
      rw [← Option.not_isSome, hactive, hbake.1] at h
      unfold drainSpill
      cases hqueue : st.core.pendingSpill with
      | nil =>
        simp only [drainEntries]
        rw [← hqueue]
      | cons q queue =>
        rw [hqueue] at h
        simp only [Bool.not_true, Bool.false_or, Bool.or_eq_true, decide_eq_true_eq] at h
        have hstop : drainEntries env.drain
            ((env.lagDrain.getD st.core.physicalStep + st.core.reserveSlots) % 2 ^ 64) 0 (q :: queue) st
              = (q :: queue, st) := by
          unfold drainEntries
          split
          · rfl
          · rename_i hlimit
            split
            · rfl
            · rename_i hread
              have hstart : (env.drain 0).replay.startFails = true := by
                rcases h with (h | h) | h
                · exact absurd h hlimit
                · exact absurd h hread
                · exact h
              rw [replayManifest, if_pos hstart]
        simp only [hstop]
        rw [← hqueue]
    · rfl
  · rfl

/-- What the commit of a step has to meet to leave no trace if it fails. -/
def CommitTraceless (env : EndEnv) (fs : Core) : Prop :=
  match fs.fate env.lag with
  | .replay => ReplayTraceless env.build env.replay fs
  | .drop => True
  | .spill => SpillTraceless env.spill fs ∧ ReplayTraceless env.build env.replay fs

theorem tried_applyQueuePolicy {env : EndEnv} {st st' : Replay} (hdrain : drainsNothing env st.core)
    (h : CommitTraceless env st.core) (hfail : applyQueuePolicy env st = .fail st') :
    st.core.Tried st.core.physicalStep st'.core := by
  rw [applyQueuePolicy_eq, drained_of_drainsNothing hdrain] at hfail
  unfold CommitTraceless at h
  cases hfate : st.core.fate env.lag with
  | replay =>
    rw [hfate] at h hfail
    have htried := tried_replayStep h
    simp only at hfail
    rw [hfail] at htried
    exact htried
  | drop =>
    rw [hfate] at hfail
    simp only [dropped, discardStep] at hfail
    cases hdiscard : env.discardFails with
    | true =>
      rw [hdiscard] at hfail
      cases hfail
      exact .refl _ _
    | false =>
      rw [hdiscard] at hfail
      cases hfail
  | spill =>
    rw [hfate] at h hfail
    simp only [spilled] at hfail
    cases hspill : spillStep env.spill st.core with
    | ok fs =>
      rw [hspill] at hfail
      cases hfail
    | fail fs =>
      rw [hspill] at hfail
      obtain ⟨file, rfl, hfile⟩ := spillStep_of_traceless h.1 hspill
      have htried := tried_replayStep (show ReplayTraceless env.build env.replay
        { st with core := { st.core with file := file } }.core from h.2.withFile file)
      simp only at hfail
      rw [hfail] at htried
      refine ⟨?_, htried.index, htried.isLink, htried.file.trans hfile⟩
      have hcore := htried.core
      simp only [Outcome.state_fail] at hcore
      rw [hcore]

/-! ## Every reachable state -/

-- every step the index lists comes before `n`
def Below (n : Nat) (idx : PathIndex) : Prop := ∀ path, ∀ k ∈ (idx path).steps, k < n

theorem Below.appended {m n : Nat} {idx idx' : PathIndex} (h : Below n idx) (happ : Appended m idx idx')
    (hm : m < n) : Below n idx' := by
  intro path k hk
  obtain ⟨c, hc⟩ := happ path
  rw [hc, List.mem_append, List.mem_replicate] at hk
  rcases hk with hk | ⟨-, rfl⟩
  · exact h path k hk
  · exact hm

/-- Dropping the failed step's entries gives back the index it started from. -/
theorem Below.dropped {n : Nat} {idx idx' : PathIndex} (h : Below n idx) (happ : Appended n idx idx')
    (path : Path) : (pathIndexDropStep idx' n path).steps = (idx path).steps := by
  obtain ⟨c, hc⟩ := happ path
  show dropTail n (idx' path).steps = _
  rw [hc]
  exact dropTail_append_replicate (fun hmem => Nat.lt_irrefl n (h path n hmem)) c

theorem appended_replayManifest (env : ReplayEnv) (args : ReplayArgs) (st : Replay) :
    Appended args.manifest.physicalStep st.core.pathIndex (replayManifest env args st).state.core.pathIndex :=
  fun path => (steps_replayManifest env args st path).imp fun _ h => h.1

theorem below_drainEntries {env : Nat → DrainEnv} {limit k n : Nat} {queue : List SpillEntry} {st : Replay}
    (hqueue : ∀ q ∈ queue, q.manifest.physicalStep < n) (h : Below n st.core.pathIndex) :
    Below n (drainEntries env limit k queue st).2.core.pathIndex
      ∧ ∀ q ∈ (drainEntries env limit k queue st).1, q.manifest.physicalStep < n := by
  induction queue generalizing k st with
  | nil => exact ⟨h, hqueue⟩
  | cons q queue ih =>
    unfold drainEntries
    split
    · exact ⟨h, hqueue⟩
    · split
      · exact ⟨h, hqueue⟩
      · have hbelow := h.appended (appended_replayManifest (env k).replay q.args st)
          (hqueue q List.mem_cons_self)
        cases hreplay : replayManifest (env k).replay q.args st with
        | fail st' =>
          rw [hreplay] at hbelow
          exact ⟨hbelow, hqueue⟩
        | ok st' =>
          rw [hreplay] at hbelow
          exact ih (fun q' hq' => hqueue q' (List.mem_cons_of_mem _ hq')) hbelow

theorem appended_replayStep (build : BuildEnv) (env : ReplayEnv) (st : Replay) :
    Appended st.core.physicalStep st.core.pathIndex (replayStep build env st).state.core.pathIndex := by
  unfold replayStep
  cases hbuild : buildManifest build st.core with
  | mk fs res =>
    obtain ⟨w, rfl, hm⟩ := buildManifest_eq hbuild
    cases res with
    | none => exact .refl _ _
    | some m =>
      have happ := appended_replayManifest env (Core.replayArgs { st.core with writeTypeCache := w } m)
        { st with core := { st.core with writeTypeCache := w } }
      rw [show (Core.replayArgs { st.core with writeTypeCache := w } m).manifest.physicalStep
        = st.core.physicalStep from (hm m rfl).1] at happ
      exact happ

/-- What holds of the commit state in every run: between steps nothing is pending, and the index
and the queue hold earlier steps only. -/
structure Core.Orderly (fs : Core) : Prop where
  idle : fs.stepState = .notInStep → fs.pending = [] ∧ fs.pendingBytes = 0 ∧ fs.logicalIds = []
  indexed : Below fs.physicalStep fs.pathIndex
  queued : ∀ q ∈ fs.pendingSpill, q.manifest.physicalStep < fs.physicalStep

/-- A commit appends the step to an index of earlier steps, and queues at most the step itself. -/
theorem below_applyQueuePolicy (env : EndEnv) (st : Replay)
    (hindexed : Below st.core.physicalStep st.core.pathIndex)
    (hqueued : ∀ q ∈ st.core.pendingSpill, q.manifest.physicalStep < st.core.physicalStep) :
    (∃ idx, Below st.core.physicalStep idx
        ∧ Appended st.core.physicalStep idx (applyQueuePolicy env st).state.core.pathIndex)
      ∧ (∀ q ∈ (applyQueuePolicy env st).state.core.pendingSpill,
          q.manifest.physicalStep < st.core.physicalStep
            ∨ ((applyQueuePolicy env st).isOk ∧ q.manifest.physicalStep = st.core.physicalStep)) := by
  have hdrained : Below st.core.physicalStep (drained env st).core.pathIndex
      ∧ ∀ q ∈ (drained env st).core.pendingSpill, q.manifest.physicalStep < st.core.physicalStep := by
    unfold drained
    split
    · unfold drainFirst
      split
      · exact below_drainEntries hqueued hindexed
      · exact ⟨hindexed, hqueued⟩
    · exact ⟨hindexed, hqueued⟩
  have hnumber : (drained env st).core.physicalStep = st.core.physicalStep := by
    have hframe := congrArg Core.physicalStep (drainFrame_drained env st)
    exact hframe
  obtain ⟨hbelow, hqueue⟩ := hdrained
  rw [applyQueuePolicy_eq]
  generalize drained env st = st₀ at hbelow hqueue hnumber ⊢
  rw [← hnumber] at hbelow hqueue ⊢
  cases st.core.fate env.lag with
  | replay =>
    refine ⟨⟨_, hbelow, appended_replayStep env.build env.replay st₀⟩, fun q hq => .inl ?_⟩
    simp only [pendingSpill_replayStep] at hq
    exact hqueue q hq
  | drop =>
    simp only [dropped, discardStep]
    cases env.discardFails with
    | false => exact ⟨⟨_, hbelow, .refl _ _⟩, fun q hq => .inl (hqueue q hq)⟩
    | true => exact ⟨⟨_, hbelow, .refl _ _⟩, fun q hq => .inl (hqueue q hq)⟩
  | spill =>
    simp only [spilled]
    rcases spillStep_eq env.spill st₀.core with ⟨file, w, m, h, hm, -⟩ | ⟨file, w, h, -⟩
    · rw [h]
      refine ⟨⟨_, hbelow, .refl _ _⟩, fun q hq => ?_⟩
      rcases List.mem_append.mp hq with hq | hq
      · exact .inl (hqueue q hq)
      · rw [List.mem_singleton.mp hq]
        exact .inr ⟨rfl, hm⟩
    · rw [h]
      refine ⟨⟨_, hbelow, appended_replayStep env.build env.replay
        { st₀ with core := { st₀.core with file := file, writeTypeCache := w } }⟩, fun q hq => .inl ?_⟩
      simp only [pendingSpill_replayStep] at hq
      exact hqueue q hq

theorem orderly_endStep {env : EndEnv} {w : Writer} (h : w.core.Orderly) : (endStep env w).state.core.Orderly := by
  unfold endStep
  split
  · exact h
  · obtain ⟨p, b, hfolded⟩ := folded_eq w.core env
    obtain ⟨fs, hfs⟩ : ∃ fs, fs = w.core.folded env := ⟨_, rfl⟩
    have hnumber : fs.physicalStep = w.core.physicalStep := by rw [hfs, hfolded]
    have hindexed : Below fs.physicalStep fs.pathIndex := by
      rw [hfs, hfolded]
      exact h.indexed
    have hqueued : ∀ q ∈ fs.pendingSpill, q.manifest.physicalStep < fs.physicalStep := by
      rw [hfs, hfolded]
      exact h.queued
    obtain ⟨⟨idx, hbelow, happ⟩, hqueue⟩ :=
      below_applyQueuePolicy env ⟨fs, [], w.lookups⟩ hindexed hqueued
    have hstep := congrArg Core.physicalStep (policyFrame_applyQueuePolicy env ⟨fs, [], w.lookups⟩)
    rw [← hfs]
    simp only
    cases hpolicy : applyQueuePolicy env ⟨fs, [], w.lookups⟩ with
    | ok st =>
      rw [hpolicy] at happ hqueue hstep
      have hstep' : st.core.physicalStep = fs.physicalStep := hstep
      refine ⟨fun _ => ⟨rfl, rfl, rfl⟩, ?_, fun q hq => ?_⟩
      · intro path k hk
        show k < st.core.physicalStep + 1
        rw [hstep']
        refine Below.appended ?_ happ (Nat.lt_succ_self _) path k hk
        exact fun path k hk => Nat.lt_succ_of_lt (hbelow path k hk)
      · show q.manifest.physicalStep < st.core.physicalStep + 1
        rw [hstep']
        rcases hqueue q hq with hlt | ⟨-, heq⟩
        · exact Nat.lt_succ_of_lt hlt
        · exact Nat.lt_succ_of_le (Nat.le_of_eq heq)
    | fail st =>
      rw [hpolicy] at happ hqueue hstep
      have hstep' : st.core.physicalStep = fs.physicalStep := hstep
      refine ⟨fun _ => ⟨rfl, rfl, rfl⟩, ?_, fun q hq => ?_⟩
      · intro path k hk
        have hdrop := hbelow.dropped happ path
        rw [← show st.core.physicalStep = fs.physicalStep from hstep'] at hdrop
        show k < st.core.physicalStep
        rw [hstep']
        exact hbelow path k (hdrop ▸ hk)
      · show q.manifest.physicalStep < st.core.physicalStep
        rw [hstep']
        rcases hqueue q hq with hlt | ⟨hok, -⟩
        · exact hlt
        · cases hok

theorem placeholder_of_capture {fs : Core} {o : Wrapper} (h : dsetCapture fs o)
    (hstate : fs.stepState ≠ .inStep) : ∃ idx, o.state = .placeholder idx := by
  unfold dsetCapture at h
  cases ho : o.state with
  | placeholder idx => exact ⟨idx, rfl⟩
  | live =>
    rw [ho] at h
    exact absurd (of_decide_eq_true h) hstate

/-- Outside a step, with nothing pending, captures leave the commit state alone. -/
theorem capture_outside {w : Writer} {ev : Event} (hcap : ev.capture) (hstate : w.core.stepState ≠ .inStep)
    (hpending : w.core.pending = []) : (w.apply ev).state.core = w.core := by
  cases ev with
  | datasetCreate k parent name type space dcpl =>
    rw [Writer.apply, datasetCreate, if_pos (.inl hstate)]
    rfl
  | openLive k path isDataset =>
    rw [Writer.apply]
    split
    · rfl
    · rfl
  | datasetWrite args =>
    simp only [Writer.apply, datasetWrite]
    split
    · rename_i hall
      have hcaptured := List.length_filter_eq_length_iff.mp hall
      -- every dataset is an open placeholder, and none has an entry left
      have hrun := Outcome.state_runAll (l := args) (f := captureWrite)
        (P := fun w' : Writer => w'.core = w.core ∧ w'.wrappers = w.wrappers)
        (fun arg harg w' hw' => by
          obtain ⟨hcore, hwrappers⟩ := hw'
          unfold captureWrite
          rw [hwrappers, hcore]
          have hthis := hcaptured arg harg
          cases ho : w.wrappers arg.handle with
          | none => exact ⟨hcore, hwrappers⟩
          | some o =>
            rw [ho] at hthis
            obtain ⟨idx, hidx⟩ := placeholder_of_capture hthis hstate
            simp only [stepIndex, hidx, hpending, List.getElem?_nil]
            exact ⟨rfl, rfl⟩)
        ⟨rfl, rfl⟩
      exact hrun.1
    · split
      · rfl
      · rfl
  | setExtent k size maxDims under =>
    rw [Writer.apply]
    rcases setExtent_cases w k size maxDims under with
      hsame | ⟨o, idx, ce, space, -, -, hce, -, -⟩ | ⟨hstep, -⟩
    · rw [hsame]
    · rw [hpending] at hce
      cases hce
    · exact absurd hstep hstate
  | attrCreate k parent name type space acpl =>
    rw [Writer.apply, attrCreate, if_pos (.inl hstate)]
    rfl
  | attrWrite k value under =>
    rw [Writer.apply]
    rcases attrWrite_ends w k value under with hsame | ⟨o, fs, idx, -, hcapture, hidx, hend⟩
    · rw [hsame]
    · obtain ⟨idx', hplaceholder⟩ := placeholder_of_capture hcapture hstate
      rw [stepIndex, hplaceholder] at hidx
      cases hidx
      rcases hend with hfound | ⟨e, payload, bytes, he, -⟩
      · rw [hfound]
      · rw [hpending] at he
        cases he
  | linkCreate path target hard =>
    rw [Writer.apply, captureLink, if_pos hstate]
    rfl
  | closeHandle k =>
    rw [Writer.apply, Outcome.state_ok]
    rcases closeHandle_cases w k with hsame | ⟨pending, hclosed, rfl | ⟨idx, pe, hpe, -⟩⟩
    · rw [hsame]
    · rw [hclosed]
    · rw [hpending] at hpe
      cases hpe
  | beginStep ids wall => cases hcap
  | noteGroupAttr path => cases hcap
  | setQueuePolicy policy reserve => cases hcap
  | endStep env => cases hcap
  | fileClose => cases hcap

theorem orderly_apply {w : Writer} (h : w.core.Orderly) (ev : Event) : (w.apply ev).state.core.Orderly := by
  by_cases hcap : ev.capture
  · obtain ⟨pending, bytes, hcore⟩ := (captured_apply w hcap).core
    by_cases hstate : w.core.stepState = .inStep
    · rw [hcore]
      refine ⟨fun hidle => ?_, h.indexed, h.queued⟩
      rw [show _ = StepState.notInStep from hidle] at hstate
      cases hstate
    · by_cases hidle : w.core.stepState = .notInStep
      · rw [capture_outside hcap hstate (h.idle hidle).1]
        exact h
      · rw [hcore]
        exact ⟨fun hnot => absurd hnot hidle, h.indexed, h.queued⟩
  · cases ev with
    | endStep env => exact orderly_endStep h
    | beginStep ids wall =>
      simp only [Writer.apply, beginWriterStep]
      split
      · exact h
      · exact ⟨fun hidle => (by cases hidle), h.indexed, h.queued⟩
    | noteGroupAttr path =>
      simp only [Writer.apply, noteGroupAttr, Outcome.state_ok]
      split
      · exact h
      · exact ⟨h.idle, h.indexed, h.queued⟩
    | setQueuePolicy policy reserve => exact ⟨h.idle, h.indexed, h.queued⟩
    | fileClose =>
      simp only [Writer.apply, fileClose, Outcome.state_ok]
      split
      · exact ⟨fun _ => ⟨rfl, rfl, rfl⟩, h.indexed, h.queued⟩
      · exact h
    | datasetCreate => exact absurd rfl hcap
    | openLive => exact absurd rfl hcap
    | datasetWrite => exact absurd rfl hcap
    | setExtent => exact absurd rfl hcap
    | attrCreate => exact absurd rfl hcap
    | attrWrite => exact absurd rfl hcap
    | linkCreate => exact absurd rfl hcap
    | closeHandle => exact absurd rfl hcap

theorem orderly_run (config : Config) (events : List Event) : ((Writer.init config).run events).core.Orderly := by
  have hinit : (Writer.init config).core.Orderly := by
    refine ⟨fun _ => ⟨rfl, rfl, rfl⟩, fun path k hk => ?_, fun q hq => ?_⟩
    · cases hk
    · cases hq
  generalize Writer.init config = w at hinit ⊢
  induction events generalizing w with
  | nil => exact hinit
  | cons ev events ih => exact ih _ (orderly_apply hinit ev)

/-! ## The failed step -/

/-- What a step that fails has to meet to be invisible, told from the state its `H5Fend_step`
finds: no group attribute waits, `/step/<n>` was not there and can be removed, no older step is
drained, no new type is encoded, and no unknown link gets indexed. -/
structure LeavesNoTrace (env : EndEnv) (fs : Core) : Prop where
  attrs : fs.groupAttrs = []
  group : fs.file.find? fs.physicalStep = none
  unlink : env.unlinkFails = false
  drain : drainsNothing env (fs.folded env)
  commit : CommitTraceless env (fs.folded env)

theorem OwnersIn.folded {T : Handle → Prop} {fs : Core} (h : OwnersIn T fs.pending) (env : EndEnv) :
    OwnersIn T (fs.folded env).pending := by
  have hkeep : ∀ (fs : Core) (e : PendingEntry), e.owner = none → OwnersIn T fs.pending →
      OwnersIn T ((pendingAppend fs e).getD fs).pending := by
    intro fs e he hfs
    cases happend : pendingAppend fs e with
    | none => exact hfs
    | some fs' => exact hfs.append happend (fun k hk => by rw [he] at hk; cases hk)
  have hfold : ∀ {α : Type} (f : Core → α → Core) (l : List α) (fs : Core),
      (∀ (fs : Core) (a : α), OwnersIn T fs.pending → OwnersIn T (f fs a).pending) →
      OwnersIn T fs.pending → OwnersIn T (l.foldl f fs).pending := by
    intro α f l fs hf hfs
    induction l generalizing fs with
    | nil => exact hfs
    | cons a l ih => exact ih _ (hf fs a hfs)
  unfold Core.folded foldLinks foldGroupAttrs
  refine hfold _ _ _ (fun fs link hfs => ?_) (hfold _ _ _ (fun fs path hfs => ?_) h)
  · unfold foldLink
    simp only
    split
    · exact hkeep _ _ rfl hfs
    · exact hfs
  · unfold foldGroupAttr
    split
    · exact hfs
    · split
      · exact hfs
      · split
        · exact hfs
        · exact hkeep _ _ rfl hfs

/-- What a traceless failing `H5Fend_step` leaves of the commit state. -/
theorem endStep_traceless {env : EndEnv} {w w' : Writer} (hopen : w.core.stepState = .inStep)
    (hindexed : Below w.core.physicalStep w.core.pathIndex) (h : LeavesNoTrace env w.core)
    (hfail : endStep env w = .fail w') :
    w'.core = { w.core.discardPending with stepState := .notInStep }
      ∧ ∀ k, (∀ pe ∈ (w.core.folded env).pending, pe.owner ≠ some k) → w'.wrappers k = w.wrappers k := by
  obtain ⟨p, b, hfolded⟩ := folded_eq w.core env
  unfold endStep at hfail
  rw [if_neg (not_not.mpr hopen)] at hfail
  simp only at hfail
  cases hpolicy : applyQueuePolicy env ⟨w.core.folded env, [], w.lookups⟩ with
  | ok st =>
    rw [hpolicy] at hfail
    cases hfail
  | fail st =>
    rw [hpolicy] at hfail
    cases hfail
    have htried := tried_applyQueuePolicy h.drain h.commit hpolicy
    simp only at htried
    refine ⟨?_, fun k hk => if_neg ?_⟩
    · have hnumber : (w.core.folded env).physicalStep = w.core.physicalStep := by rw [hfolded]
      have hindex : pathIndexDropStep st.core.pathIndex w.core.physicalStep = w.core.pathIndex := by
        funext path
        have hidx : (w.core.folded env).pathIndex = w.core.pathIndex := by rw [hfolded]
        have hsteps := hindexed.dropped (by rw [← hidx, ← hnumber]; exact htried.index) path
        have hlink := htried.isLink path
        rw [hidx] at hlink
        show (⟨(pathIndexDropStep st.core.pathIndex w.core.physicalStep path).steps,
          (st.core.pathIndex path).isLink⟩ : PathSteps) = _
        rw [hsteps, hlink]
      have hfile : st.core.file.unlink w.core.physicalStep = w.core.file := by
        have hunlink := htried.file
        rw [hnumber, show (w.core.folded env).file = w.core.file by rw [hfolded]] at hunlink
        rw [hunlink]
        exact Table.filter_of_find?_none h.group
      have hcore := htried.core
      rw [hfolded] at hcore
      have hstep : st.core.physicalStep = w.core.physicalStep := by rw [hcore]
      unfold Core.dropStep Core.discardPending
      simp only [h.unlink, Bool.false_eq_true, if_false, hstep, hindex, hfile]
      rw [hcore, ← h.attrs]
    · rw [List.any_eq_true]
      rintro ⟨i, -, hi⟩
      rw [decide_eq_true_eq, Option.bind_eq_some_iff] at hi
      obtain ⟨pe, hpe, howner⟩ := hi
      exact hk pe (List.mem_of_getElem? hpe) howner

/-- The tables that later steps read. -/
structure Core.SameTables (fs fs' : Core) : Prop where
  pathIndex : fs'.pathIndex = fs.pathIndex
  links : fs'.links = fs.links
  groupAttrs : fs'.groupAttrs = fs.groupAttrs
  writeTypeCache : fs'.writeTypeCache = fs.writeTypeCache
  replayTypeCache : fs'.replayTypeCache = fs.replayTypeCache
  physicalStep : fs'.physicalStep = fs.physicalStep

-- one step: begun, captured into, ended
def stepEvents (ids : List Nat) (wall : Nat) (captures : List Event) (env : EndEnv) : List Event :=
  .beginStep ids wall :: (captures ++ [.endStep env])

/-- A traceless failed step leaves the writer as it found it, but for the handles it touched. -/
theorem alike_failedStep {w : Writer} (hw : w.core.Orderly) (hidle : w.core.stepState = .notInStep)
    {ids : List Nat} {wall : Nat} {captures : List Event} {env : EndEnv}
    (hcap : ∀ ev ∈ captures, ev.capture)
    (hfail : ((w.run (.beginStep ids wall :: captures)).apply (.endStep env)).isOk = false)
    (htrace : LeavesNoTrace env (w.run (.beginStep ids wall :: captures)).core) :
    w.AlikeAt (fun k => ∃ ev ∈ captures, k ∈ ev.touched) wall (w.run (stepEvents ids wall captures env)) := by
  obtain ⟨hpending, hbytes, hids⟩ := hw.idle hidle
  obtain ⟨w₁, hw₁⟩ : ∃ w₁, w₁ = (w.apply (.beginStep ids wall)).state := ⟨_, rfl⟩
  have hbegin : w₁.wrappers = w.wrappers ∧ w₁.core = { w.core with
      logicalIds := ids, wallTimeNs := wall, stepState := .inStep } := by
    rw [hw₁, Writer.apply, beginWriterStep, if_neg (not_not.mpr hidle)]
    exact ⟨rfl, rfl⟩
  rw [Writer.run_cons, ← hw₁] at hfail htrace
  rw [stepEvents, Writer.run_cons, ← hw₁, Writer.run_append, Writer.run_cons, Writer.run_nil]
  have hown₁ : OwnersIn (fun k => ∃ ev ∈ captures, k ∈ ev.touched) w₁.core.pending := by
    rw [hbegin.2]
    simp only [hpending]
    exact List.forall_mem_nil _
  obtain ⟨⟨p, b, hcore⟩, hown, hwrappers⟩ := run_captures hcap (fun ev hev k hk => ⟨ev, hev, hk⟩) hown₁
  rw [hbegin.2] at hcore
  generalize w₁.run captures = w₂ at hcore hown hwrappers hfail htrace ⊢
  rw [Writer.apply] at hfail ⊢
  cases hres : endStep env w₂ with
  | ok w₃ =>
    rw [hres] at hfail
    cases hfail
  | fail w₃ =>
    obtain ⟨hleft, hkept⟩ := endStep_traceless (by rw [hcore]) (by rw [hcore]; exact hw.indexed) htrace hres
    rw [Outcome.state_fail]
    refine ⟨?_, fun k hk => ?_⟩
    · rw [hleft, hcore]
      unfold Core.discardPending Core.clocked
      simp only
      rw [← hpending, ← hbytes, ← hids, ← hidle]
    · rw [hkept k (fun pe hpe howner => hk (hown.folded env pe hpe k howner)), hwrappers k hk, hbegin.1]

/-- A failed step is invisible if it leaves no trace: from every reachable state between steps,
whatever was captured and wherever the commit failed, the tables are as before the step, its
group is gone, and every continuation that uses none of the handles the step touched commits
what it would have committed without the step. -/
theorem failedStep_invisible {config : Config} {history captures later : List Event} {ids : List Nat}
    {wall : Nat} {env : EndEnv}
    (hidle : ((Writer.init config).run history).core.stepState = .notInStep)
    (hcap : ∀ ev ∈ captures, ev.capture)
    (hfail : (((Writer.init config).run (history ++ .beginStep ids wall :: captures)).apply
      (.endStep env)).isOk = false)
    (htrace : LeavesNoTrace env ((Writer.init config).run (history ++ .beginStep ids wall :: captures)).core)
    (hlater : ∀ ev ∈ later, ∀ k ∈ ev.handles, ∀ ev' ∈ captures, k ∉ ev'.touched) :
    let w := (Writer.init config).run history
    let w' := (Writer.init config).run (history ++ stepEvents ids wall captures env)
    w.core.SameTables w'.core ∧ w'.core.file.find? w'.core.physicalStep = none
      ∧ (w'.run later).core.file = (w.run later).core.file := by
  simp only [Writer.run_append] at hfail htrace ⊢
  have hw := orderly_run config history
  generalize (Writer.init config).run history = w at hidle hfail htrace hw ⊢
  have halike := alike_failedStep hw hidle hcap hfail htrace
  refine ⟨?_, ?_, ?_⟩
  · rw [halike.core]
    exact ⟨rfl, rfl, rfl, rfl, rfl, rfl⟩
  · rw [halike.core]
    -- the captures did not touch the file, so the group that was not there still is not
    obtain ⟨⟨p, b, hcore⟩, -, -⟩ := run_captures (T := fun _ => True) (w := (w.apply (.beginStep ids wall)).state)
      hcap (fun _ _ _ _ => trivial) (fun _ _ _ _ => trivial)
    have hgroup := htrace.group
    rw [Writer.run_cons, hcore] at hgroup
    simp only [Writer.apply, beginWriterStep, if_neg (not_not.mpr hidle), Outcome.state_ok] at hgroup
    exact hgroup
  · refine (alike_run ⟨wall, halike, fun hne => absurd hidle hne⟩ (fun ev hev k hk => ?_)).file
    rintro ⟨ev', hev', htouched⟩
    exact hlater ev hev k hk ev' hev' htouched

theorem ReplayTraceless.of_no_link {build : BuildEnv} {env : ReplayEnv} {fs : Core}
    (htypes : encodesNewType build fs.writeTypeCache 0 fs.pending = false)
    (hlinks : ∀ pe ∈ fs.pending, pe.kind ≠ .link) : ReplayTraceless build env fs := by
  refine ⟨htypes, fun m hm _ ie hie hk => ?_⟩
  have hmem : ie.2 ∈ m.entries := mem_replayOrder (mem_of_reached hie)
  have hkey : ie.2.key ∈ fs.pending.map PendingEntry.key := by
    rw [← keys_of_shapes (shapes_buildManifest hm)]
    exact List.mem_map_of_mem hmem
  obtain ⟨pe, hpe, hpekey⟩ := List.mem_map.mp hkey
  exact absurd ((congrArg Prod.fst hpekey).trans hk) (hlinks pe hpe)

/-! ### A waiting group attribute, and a failed step without one -/

-- the answer of a one-byte group attribute
def EndEnv.answering (env : EndEnv) : EndEnv :=
  { env with groupAttr := fun _ => some ⟨nativeUchar, ⟨.scalar, .all⟩, [], [7]⟩ }

def writeStep (h : Handle) (env : EndEnv) : List Event :=
  stepEvents [] 0 [createByte h ['d'], writeByte h, .closeHandle h] env

/-- The attribute noted before the failed step is in the next step's group only if the failed
step is left out. -/
theorem waitingAttr_not_invisible :
    let w := (Writer.init .plain).run [.noteGroupAttr ['g', '@', 'a']]
    let failed := stepEvents [] 0 [createByte 1 ['d']] (EndEnv.createFails 0).answering
    let later := writeStep 2 EndEnv.quiet.answering
    ((w.run (.beginStep [] 0 :: [createByte 1 ['d']])).apply (.endStep (EndEnv.createFails 0).answering)).isOk = false
      ∧ w.core.groupAttrs = [['g', '@', 'a']] ∧ (w.run failed).core.groupAttrs = []
      ∧ ((w.run failed).run later).core.file ≠ (w.run later).core.file := by
  refine ⟨rfl, rfl, rfl, ?_⟩
  decide

/-- A step that rewrites a dataset under its old type and fails to create it is invisible. -/
theorem rewrite_invisible :
    let w := (Writer.init .plain).run (writeStep 1 .quiet)
    let w' := (Writer.init .plain).run (writeStep 1 .quiet ++ writeStep 2 (.createFails 0))
    w.core.SameTables w'.core ∧ w'.core.file.find? w'.core.physicalStep = none
      ∧ (w'.run (writeStep 3 .quiet)).core.file = (w.run (writeStep 3 .quiet)).core.file := by
  refine failedStep_invisible (by decide) (by decide) (by decide) ⟨rfl, by decide, rfl, by decide, ?_⟩ (by decide)
  exact ReplayTraceless.of_no_link (by decide) (by decide)

end VolStream
