import VolStream.Writer.Capture

/-!
# Writers that behave alike

A commit depends on the commit state alone, not on the history of type lookups, and an event
depends on the handles it names, not on the others. So two writers with the same commit state
that agree on some handles keep the same file as long as the application uses only those, and
an event that captures changes no handle but those it touches.
-/

namespace VolStream

/-! ## What replay reads

Replay looks paths up in the index and in its type cache, at the paths its entries name, and reads
nothing else of the commit state but the configuration. So any relation of commit states that agrees
there and is kept by the single changes replay makes is kept by replay. -/

/-- The paths an entry names: its own, the object an attribute is put on, the target of a link. -/
def Entry.Names (payload : Payload) (e : Entry) (path : Path) : Prop :=
  path = e.path ∨ attrParent e.path = some path ∨ ∃ hard, payload = .link hard path

def ReplayArgs.Names (args : ReplayArgs) (path : Path) : Prop :=
  ∃ (i : Nat) (e : Entry), args.manifest.entries[i]? = some e ∧ e.Names (args.payload i) path

/-- A relation that agrees on the paths in `N` and is kept by the changes made in replaying step `n`. -/
structure ReplayCongruence (N : Path → Prop) (n : Nat) (R : Core → Core → Prop) : Prop where
  config : ∀ {c c'}, R c c' → c'.config = c.config
  index : ∀ {c c' path}, R c c' → N path → ∀ k,
    pathIndexResolve c'.pathIndex path k = pathIndexResolve c.pathIndex path k
  types : ∀ {c c' path}, R c c' → N path → c'.replayTypeCache path = c.replayTypeCache path
  indexed : ∀ {c c' path} (kind : Kind), R c c' → N path →
    R { c with pathIndex := indexEntry c.pathIndex n kind path }
      { c' with pathIndex := indexEntry c'.pathIndex n kind path }
  typed : ∀ {c c' path} (t : Datatype), R c c' → N path →
    R { c with replayTypeCache := typeCacheUpsert c.replayTypeCache path t }
      { c' with replayTypeCache := typeCacheUpsert c'.replayTypeCache path t }
  noted : ∀ {c c'} (path : Path) (link : LinkRec), R c c' →
    R { c with links := c.links.set path link } { c' with links := c'.links.set path link }
  logged : ∀ {c c'} (op : FileOp), R c c' →
    R { c with file := c.file.append n op } { c' with file := c'.file.append n op }
  ensured : ∀ {c c'}, R c c' → R { c with file := c.file.ensure n } { c' with file := c'.file.ensure n }

/-- Related commit states, and the same entries wired. -/
structure Replay.Beside (R : Core → Core → Prop) (st st' : Replay) : Prop where
  core : R st.core st'.core
  wired : st'.wired = st.wired

section Congruence

variable {N : Path → Prop} {n : Nat} {R : Core → Core → Prop} (hR : ReplayCongruence N n R) {st st' : Replay}
include hR

theorem Replay.Beside.logOp (h : st.Beside R st') (op : FileOp) : (st.logOp n op).Beside R (st'.logOp n op) :=
  ⟨hR.logged op h.core, h.wired⟩

omit hR in
theorem Replay.Beside.wire (h : st.Beside R st') (i : Nat) (owned : Bool) :
    (st.wire i owned).Beside R (st'.wire i owned) := by
  unfold Replay.wire
  split
  · exact ⟨h.core, by rw [h.wired]⟩
  · exact h

omit hR in
theorem beside_check (h : st.Beside R st') (b : Bool) :
    Outcome.Rel (Replay.Beside R) (Replay.check b st) (Replay.check b st') := by
  cases b with
  | false => exact .ok h
  | true => exact .fail h

theorem beside_lookupOmitted (h : st.Beside R st') {e : Entry} (he : N e.path) :
    Outcome.Rel (Replay.Beside R) (lookupOmitted e st) (lookupOmitted e st') := by
  unfold lookupOmitted
  split
  · simp only [hR.types h.core he]
    split
    · exact .fail ⟨h.core, h.wired⟩
    · exact .ok ⟨h.core, h.wired⟩
  · exact .ok h

theorem beside_indexReplayed (h : st.Beside R st') (env : ReplayEnv) (i : Nat) {e : Entry} (he : N e.path) :
    Outcome.Rel (Replay.Beside R) (indexReplayed env n i e st) (indexReplayed env n i e st') := by
  unfold indexReplayed
  split
  · exact .fail h
  · exact .ok ⟨hR.indexed e.kind h.core he, h.wired⟩

theorem beside_recordSent (h : st.Beside R st') (env : ReplayEnv) (i : Nat) {e : Entry} (he : N e.path) :
    Outcome.Rel (Replay.Beside R) (recordSent env i e st) (recordSent env i e st') := by
  unfold recordSent
  split
  · split
    · exact .fail h
    · exact .ok ⟨hR.typed _ h.core he, h.wired⟩
  · exact .ok h

theorem beside_resolveEntry (h : st.Beside R st') (env : ReplayEnv) {args : ReplayArgs}
    (hn : args.manifest.physicalStep = n) (i : Nat) {e : Entry} (he : N e.path) :
    Outcome.Rel (Replay.Beside R) (resolveEntry env args i e st) (resolveEntry env args i e st') := by
  unfold resolveEntry
  rw [hn]
  exact (beside_check h _).bind fun _ _ h =>
    (beside_lookupOmitted hR h he).bind fun _ _ h =>
    (beside_indexReplayed hR h env i he).bind fun _ _ h =>
    (beside_check h _).bind fun _ _ h =>
    (beside_recordSent hR h env i he).bind fun _ _ h =>
    beside_check h _

theorem beside_createAttr (h : st.Beside R st') (env : ReplayEnv) (i : Nat) (e : Entry) (t : Datatype)
    {parent : Path} (hparent : N parent) :
    Outcome.Rel (Replay.Beside R) (createAttr env n i e t parent st) (createAttr env n i e t parent st') := by
  unfold createAttr
  simp only [hR.index h.core hparent]
  split
  · exact .ok (h.logOp hR _)
  · split
    · split
      · exact .fail h
      · split
        · exact .fail (h.logOp hR _)
        · exact .ok ((h.logOp hR _).logOp hR _)
    · split
      · split
        · exact .fail h
        · split
          · exact .fail (h.logOp hR _)
          · exact .ok ((h.logOp hR _).logOp hR _)
      · split
        · split
          · exact .fail (h.logOp hR _)
          · split
            · exact .fail ((h.logOp hR _).logOp hR _)
            · exact .ok (((h.logOp hR _).logOp hR _).logOp hR _)
        · exact .ok ((h.logOp hR _).logOp hR _)

theorem beside_replayLink (h : st.Beside R st') (env : ReplayEnv) (i : Nat) (e : Entry) {payload : Payload}
    (htarget : ∀ hard target, payload = .link hard target → N target) :
    (replayLink env n i e payload st).Beside R (replayLink env n i e payload st') := by
  unfold replayLink
  split
  · exact h
  · rename_i hard target
    simp only [hR.index h.core (htarget hard target rfl)]
    split
    · exact h
    · split
      · exact h.logOp hR _
      · exact ⟨hR.noted _ _ (h.logOp hR _).core, h.wired⟩

theorem beside_applyEntry (h : st.Beside R st') (env : ReplayEnv) {args : ReplayArgs}
    (hn : args.manifest.physicalStep = n) (i : Nat) {e : Entry} (he : ∀ path, e.Names (args.payload i) path → N path)
    (t : Datatype) :
    Outcome.Rel (Replay.Beside R) (applyEntry env args i e t st) (applyEntry env args i e t st') := by
  unfold applyEntry
  simp only [hn]
  split
  · split
    · exact .fail h
    · exact .ok ((h.logOp hR _).wire _ _)
  · split
    · exact .fail h
    · split
      · exact .fail h
      · split
        · exact .fail h
        · exact .ok (h.logOp hR _)
  · split
    · exact .fail h
    · rename_i parent hparent
      refine (beside_createAttr hR h env i e t (he parent (.inr (.inl hparent)))).bind (fun s s' h => ?_)
      split
      · exact .ok (h.wire _ _)
      · split
        · exact .fail h
        · split
          · exact .fail h
          · exact .ok ((h.logOp hR _).wire _ _)
  · exact .ok (beside_replayLink hR h env i e fun hard target heq => he target (.inr (.inr ⟨hard, heq⟩)))
  · exact .ok h

theorem beside_replayEntry (h : st.Beside R st') (env : ReplayEnv) {args : ReplayArgs}
    (hn : args.manifest.physicalStep = n) (ie : Nat × Entry)
    (hie : ∀ path, ie.2.Names (args.payload ie.1) path → N path) :
    Outcome.Rel (Replay.Beside R) (replayEntry env args ie st) (replayEntry env args ie st') := by
  have hpath : N ie.2.path := hie _ (.inl rfl)
  refine (beside_resolveEntry hR h env hn ie.1 hpath).bind (fun s s' h => ?_)
  have htype : entryType s'.core.replayTypeCache ie.2 = entryType s.core.replayTypeCache ie.2 := by
    unfold entryType
    rw [hR.types h.core hpath]
  simp only [htype]
  split
  · exact .fail h
  · exact beside_applyEntry hR h env hn ie.1 hie _

theorem beside_carryForwardOne (h : st.Beside R st') (env : ReplayEnv) {m : Step} (hn : m.physicalStep = n)
    {ie : Nat × Entry} (hie : N ie.2.path) :
    (carryForwardOne env m st ie).Beside R (carryForwardOne env m st' ie) := by
  unfold carryForwardOne
  simp only [hR.index h.core hie, hn]
  split
  · exact h
  · split
    · split
      · exact h
      · exact h.logOp hR _
    · exact h

theorem beside_carryForwardResized (h : st.Beside R st') (env : ReplayEnv) {m : Step} (hn : m.physicalStep = n)
    (hm : ∀ e ∈ m.entries, N e.path) :
    (carryForwardResized env m st).Beside R (carryForwardResized env m st') := by
  unfold carryForwardResized
  refine List.foldl_rel h fun ie hie s s' hs => ?_
  obtain ⟨⟨e, i⟩, hzip, rfl⟩ := List.mem_map.mp hie
  have he : e ∈ m.entries := List.mem_of_getElem? (List.mem_zipIdx_iff_getElem?.mp hzip)
  exact beside_carryForwardOne hR hs env hn (hm e he)

theorem beside_persist (h : st.Beside R st') (env : ReplayEnv) {m : Step} (hn : m.physicalStep = n) :
    Outcome.Rel (Replay.Beside R) (persist env m st) (persist env m st') := by
  rw [persist_eq, persist_eq, hR.config h.core, hn]
  split
  · exact .fail h
  · refine .ok ⟨?_, h.wired⟩
    have hall : ∀ (ops : List FileOp) {c c' : Core}, R c c' →
        R { c with file := c.file.appendAll n ops } { c' with file := c'.file.appendAll n ops } := by
      intro ops
      induction ops with
      | nil => exact fun h => h
      | cons op ops ih => exact fun h => ih (hR.logged op h)
    exact hall _ (hR.ensured h.core)

/-- Replaying a step whose entries name only paths on which two states agree does the same to both. -/
theorem beside_replayManifest (h : st.Beside R st') (env : ReplayEnv) {args : ReplayArgs}
    (hn : args.manifest.physicalStep = n) (hnames : ∀ path, args.Names path → N path) :
    Outcome.Rel (Replay.Beside R) (replayManifest env args st) (replayManifest env args st') := by
  unfold replayManifest
  split
  · exact .fail h
  · refine (Outcome.Rel.runAll (fun ie hie s s' h => beside_replayEntry hR h env hn ie fun path hpath =>
      hnames path ⟨ie.1, ie.2, getElem?_of_mem_replayOrder hie, hpath⟩) h).bind fun s s' h => ?_
    refine beside_persist hR (beside_carryForwardResized hR h env hn fun e he => ?_) env hn
    obtain ⟨i, hi⟩ := List.mem_iff_getElem?.mp he
    exact hnames _ ⟨i, e, hi, .inl rfl⟩

end Congruence

/-! ## Replay does not read the history -/

/-- The same commit state and the same entries wired. -/
structure Replay.SameWork (st st' : Replay) : Prop where
  core : st'.core = st.core
  wired : st'.wired = st.wired

theorem Replay.SameWork.eta {st st' : Replay} (h : st.SameWork st') :
    st' = { st with lookups := st'.lookups } := by
  obtain ⟨core', wired', lookups'⟩ := st'
  obtain ⟨hcore, hwired⟩ := h
  simp only at hcore hwired
  rw [hcore, hwired]

theorem congruence_eq (n : Nat) : ReplayCongruence (fun _ => True) n (fun c c' => c' = c) where
  config := fun h => by rw [h]
  index := fun h _ _ => by rw [h]
  types := fun h _ => by rw [h]
  indexed := fun _ h _ => by rw [h]
  typed := fun _ h _ => by rw [h]
  noted := fun _ _ h => by rw [h]
  logged := fun _ h => by rw [h]
  ensured := fun h => by rw [h]

theorem sameWork_replayManifest {st st' : Replay} (h : st.SameWork st') (env : ReplayEnv)
    (args : ReplayArgs) :
    Outcome.Rel Replay.SameWork (replayManifest env args st) (replayManifest env args st') := by
  have hrel := beside_replayManifest (congruence_eq args.manifest.physicalStep) ⟨h.core, h.wired⟩ env rfl
    (fun _ _ => trivial)
  generalize replayManifest env args st = o at hrel ⊢
  generalize replayManifest env args st' = o' at hrel ⊢
  cases hrel with
  | ok hs => exact .ok ⟨hs.core, hs.wired⟩
  | fail hs => exact .fail ⟨hs.core, hs.wired⟩

/-! ## Committing -/

theorem sameWork_replayStep {st st' : Replay} (h : st.SameWork st') (build : BuildEnv) (env : ReplayEnv) :
    Outcome.Rel Replay.SameWork (replayStep build env st) (replayStep build env st') := by
  rw [h.eta]
  unfold replayStep
  simp only
  split
  · exact .fail ⟨rfl, rfl⟩
  · exact sameWork_replayManifest (by exact ⟨rfl, rfl⟩) env _

theorem sameWork_drainEntries {st st' : Replay} (h : st.SameWork st') (env : Nat → DrainEnv)
    (limit k : Nat) (queue : List SpillEntry) :
    (drainEntries env limit k queue st').1 = (drainEntries env limit k queue st).1
      ∧ (drainEntries env limit k queue st).2.SameWork (drainEntries env limit k queue st').2 := by
  induction queue generalizing k st st' with
  | nil => exact ⟨rfl, h⟩
  | cons q queue ih =>
    unfold drainEntries
    split
    · exact ⟨rfl, h⟩
    · split
      · exact ⟨rfl, h⟩
      · have hreplay := sameWork_replayManifest h (env k).replay q.args
        generalize replayManifest (env k).replay q.args st = o at hreplay ⊢
        generalize replayManifest (env k).replay q.args st' = o' at hreplay ⊢
        cases hreplay with
        | ok hs => exact ih hs (k + 1)
        | fail hs => exact ⟨rfl, hs⟩

theorem sameWork_drained {st st' : Replay} (h : st.SameWork st') (env : EndEnv) :
    (drained env st).SameWork (drained env st') := by
  unfold drained drainFirst drainSpill
  simp only [h.core]
  split
  · split
    · obtain ⟨hleft, hcore, hwired⟩ := sameWork_drainEntries h env.drain
        ((env.lagDrain.getD st.core.physicalStep + st.core.reserveSlots) % 2 ^ 64) 0 st.core.pendingSpill
      refine ⟨?_, hwired⟩
      simp only [hleft, hcore]
    · exact h
  · exact h

theorem sameWork_applyQueuePolicy {st st' : Replay} (h : st.SameWork st') (env : EndEnv) :
    Outcome.Rel Replay.SameWork (applyQueuePolicy env st) (applyQueuePolicy env st') := by
  rw [applyQueuePolicy_eq, applyQueuePolicy_eq, h.core]
  have hd := sameWork_drained h env
  cases st.core.fate env.lag with
  | replay => exact sameWork_replayStep hd env.build env.replay
  | drop =>
    unfold dropped
    simp only [hd.core]
    split
    · exact .ok ⟨rfl, hd.wired⟩
    · exact .fail ⟨rfl, hd.wired⟩
  | spill =>
    unfold spilled
    simp only [hd.core]
    split
    · exact .ok ⟨rfl, hd.wired⟩
    · exact sameWork_replayStep (by exact ⟨rfl, hd.wired⟩) env.build env.replay

/-! ## Handles -/

/-- The handles an event names. -/
def Event.handles : Event → List Handle
  | .datasetCreate h .. => [h]
  | .openLive h .. => [h]
  | .datasetWrite args => args.map (·.handle)
  | .setExtent h .. => [h]
  | .attrCreate h .. => [h]
  | .attrWrite h .. => [h]
  | .closeHandle h => [h]
  | _ => []

/-- Another commit state with the pending buffer of this one. -/
def Core.over (fs base : Core) : Core := { base with pending := fs.pending, pendingBytes := fs.pendingBytes }

@[simp] theorem Core.over_stepState (fs base : Core) : (fs.over base).stepState = base.stepState := rfl

@[simp] theorem Core.over_pending (fs base : Core) : (fs.over base).pending = fs.pending := rfl

/-- Writers that capture alike: the same pending buffer on another commit state, and the same handles
outside `T`. -/
structure Writer.CaptureAlike (T : Handle → Prop) (base : Core) (w w' : Writer) : Prop where
  core : w'.core = w.core.over base
  wrappers : ∀ h, ¬ T h → w'.wrappers h = w.wrappers h
  stepState : base.stepState = w.core.stepState
  config : base.config = w.core.config

section CaptureAlike

variable {T : Handle → Prop} {base : Core} {w w' : Writer}

theorem Writer.CaptureAlike.withCore (h : w.CaptureAlike T base w') {fs : Core}
    (hfs : w.core.SameButPending fs) :
    Writer.CaptureAlike T base { w with core := fs } { w' with core := fs.over base } := by
  obtain ⟨pending, bytes, rfl⟩ := hfs
  exact ⟨rfl, h.wrappers, h.stepState, h.config⟩

theorem Writer.CaptureAlike.open (h : w.CaptureAlike T base w') (k : Handle) (o : Wrapper) :
    (w.open k o).CaptureAlike T base (w'.open k o) := by
  refine ⟨h.core, fun k' hk' => ?_, h.stepState, h.config⟩
  simp only [Writer.open, Function.update_apply]
  split
  · rfl
  · exact h.wrappers k' hk'

theorem pendingAppend_over {fs base : Core} (hconfig : base.config = fs.config) (e : PendingEntry) :
    pendingAppend (fs.over base) e = (pendingAppend fs e).map (·.over base) := by
  obtain ⟨config⟩ := base
  simp only at hconfig
  subst hconfig
  unfold pendingAppend
  simp only
  rw [apply_ite (Option.map fun fs : Core => fs.over _)]
  rfl

theorem stepIndex_over {fs base : Core} (hconfig : base.config = fs.config) (kind : Kind) (o : Wrapper)
    (under : Option ObjInfo) :
    stepIndex (fs.over base) kind o under = (stepIndex fs kind o under).map fun p => (p.1.over base, p.2) := by
  unfold stepIndex
  split
  · rfl
  · unfold liveIndex
    simp only [Core.over_pending, pendingAppend_over hconfig]
    split
    · rfl
    · split
      · rfl
      · rw [Option.map_map, Option.map_map]
        rfl

theorem captureAlike_captureWrite (h : w.CaptureAlike T base w') (arg : WriteArg) (harg : ¬ T arg.handle) :
    Outcome.Rel (Writer.CaptureAlike T base) (captureWrite arg w) (captureWrite arg w') := by
  unfold captureWrite
  rw [h.wrappers _ harg, h.core]
  split
  · exact .fail h
  · rename_i o _
    rw [stepIndex_over h.config]
    cases hidx : stepIndex w.core .dsetCreate o arg.under with
    | none => exact .fail h
    | some p =>
      obtain ⟨fs, idx⟩ := p
      have hsame := sameButPending_stepIndex hidx
      have hfs := h.withCore hsame
      have hconfig : base.config = fs.config := by
        obtain ⟨pending, bytes, rfl⟩ := hsame
        exact h.config
      simp only [Option.map_some, Core.over_pending]
      split
      · exact .fail hfs
      · split
        · exact .fail hfs
        · split
          · exact .fail hfs
          · rw [pendingAppend_over hconfig]
            cases happend : pendingAppend fs _ with
            | none => exact .fail hfs
            | some fs' => exact .ok (h.withCore (hsame.trans (sameButPending_pendingAppend happend)))

/-- Two writers alike at the handles an event names capture it alike. -/
theorem captureAlike_apply (h : w.CaptureAlike T base w') {ev : Event} (hcap : ev.capture)
    (hev : ∀ k ∈ ev.handles, ¬ T k) :
    (w.apply ev).state.CaptureAlike T base (w'.apply ev).state := by
  have hcore := h.core
  cases ev with
  | datasetCreate k parent name type space dcpl =>
    simp only [Writer.apply, datasetCreate, h.wrappers k (hev k List.mem_cons_self), hcore,
      Core.over_stepState, h.stepState, Core.over_pending, pendingAppend_over h.config]
    split
    · exact h
    · cases happend : pendingAppend w.core _ with
      | none => exact h
      | some fs => exact (h.withCore (sameButPending_pendingAppend happend)).open k _
  | openLive k path isDataset =>
    simp only [Writer.apply, h.wrappers k (hev k List.mem_cons_self)]
    split
    · exact h.open k _
    · exact h
  | datasetWrite args =>
    have hargs : ∀ arg ∈ args, ¬ T arg.handle := fun arg harg => hev _ (List.mem_map_of_mem harg)
    have hcapture : ∀ o, dsetCapture w'.core o = dsetCapture w.core o := by
      intro o
      unfold dsetCapture
      rw [hcore, Core.over_stepState, h.stepState]
    have hcaptured : args.filter (fun arg => ((w'.wrappers arg.handle).map (dsetCapture w'.core)).getD false)
        = args.filter (fun arg => ((w.wrappers arg.handle).map (dsetCapture w.core)).getD false) := by
      refine List.filter_congr (fun arg harg => ?_)
      rw [h.wrappers _ (hargs arg harg), funext hcapture]
    simp only [Writer.apply, datasetWrite, hcaptured]
    split
    · exact (Outcome.Rel.runAll (fun arg harg s t hst =>
        captureAlike_captureWrite hst arg (hargs arg harg)) h).state
    · split
      · exact h
      · exact h
  | setExtent k size maxDims under =>
    have hstate : (w.core.over base).stepState = w.core.stepState := h.stepState
    simp only [Writer.apply, setExtent, h.wrappers k (hev k List.mem_cons_self), hcore, Core.over_pending]
    split
    · exact h
    · split
      · split
        · exact h
        · split
          · exact h
          · exact h.withCore ⟨_, _, rfl⟩
      · rw [hstate]
        split
        · exact h
        · split
          · exact h
          · exact h.open k _
  | attrCreate k parent name type space acpl =>
    simp only [Writer.apply, attrCreate, h.wrappers k (hev k List.mem_cons_self), hcore,
      Core.over_stepState, h.stepState, Core.over_pending, pendingAppend_over h.config]
    split
    · exact h
    · cases happend : pendingAppend w.core _ with
      | none => exact h
      | some fs => exact (h.withCore (sameButPending_pendingAppend happend)).open k _
  | attrWrite k value under =>
    simp only [Writer.apply, attrWrite, h.wrappers k (hev k List.mem_cons_self), hcore, stepIndex_over h.config]
    split
    · exact h
    · rename_i o _
      have hcapture : dsetCapture (w.core.over base) o = dsetCapture w.core o := by
        unfold dsetCapture
        rw [Core.over_stepState, h.stepState]
      rw [hcapture]
      split
      · exact h
      · cases hidx : stepIndex w.core .attr o under with
        | none => exact h
        | some p =>
          obtain ⟨fs, idx⟩ := p
          have hsame := sameButPending_stepIndex hidx
          simp only [Option.map_some, Core.over_pending]
          split
          · exact h.withCore hsame
          · split
            · exact h.withCore hsame
            · split
              · exact h.withCore (hsame.trans ⟨_, _, rfl⟩)
              · exact h.withCore (hsame.trans ⟨_, _, rfl⟩)
  | linkCreate path target hard =>
    simp only [Writer.apply, captureLink, pendingLink, hcore, Core.over_stepState, h.stepState,
      pendingAppend_over h.config]
    split
    · exact h
    · cases happend : pendingAppend w.core _ with
      | none => exact h
      | some fs => exact h.withCore (sameButPending_pendingAppend happend)
  | closeHandle k =>
    simp only [Writer.apply, closeHandle, h.wrappers k (hev k List.mem_cons_self), hcore,
      Core.over_pending, Outcome.state_ok]
    split
    · exact h
    · refine ⟨rfl, fun k' hk' => ?_, h.stepState, h.config⟩
      simp only [Function.update_apply]
      split
      · rfl
      · exact h.wrappers k' hk'
  | beginStep ids wall => cases hcap
  | noteGroupAttr path => cases hcap
  | setQueuePolicy policy reserve => cases hcap
  | endStep env => cases hcap
  | fileClose => cases hcap

end CaptureAlike

-- the commit state with another clock reading
def Core.clocked (fs : Core) (x : Nat) : Core := { fs with wallTimeNs := x }

@[simp] theorem Core.clocked_stepState (fs : Core) (x : Nat) : (fs.clocked x).stepState = fs.stepState := rfl

/-- The same commit state but for the clock reading `x`, and the same handles outside `T`. -/
structure Writer.AlikeAt (T : Handle → Prop) (x : Nat) (w w' : Writer) : Prop where
  core : w'.core = w.core.clocked x
  wrappers : ∀ h, ¬ T h → w'.wrappers h = w.wrappers h

theorem Writer.AlikeAt.withCore {T : Handle → Prop} {x : Nat} {w w' : Writer} (h : w.AlikeAt T x w')
    (fs : Core) : Writer.AlikeAt T x { w with core := fs } { w' with core := fs.clocked x } :=
  ⟨rfl, h.wrappers⟩

/-- Two writers alike at handles an event names are alike after it. -/
theorem alike_apply {T : Handle → Prop} {x : Nat} {w w' : Writer} (h : w.AlikeAt T x w') {ev : Event}
    (hcap : ev.capture) (hev : ∀ k ∈ ev.handles, ¬ T k) :
    (w.apply ev).state.AlikeAt T x (w'.apply ev).state := by
  have hstart : w.CaptureAlike T (w.core.clocked x) w' := ⟨h.core, h.wrappers, rfl, rfl⟩
  have halike := captureAlike_apply hstart hcap hev
  refine ⟨?_, halike.wrappers⟩
  obtain ⟨pending, bytes, hcore⟩ := (captured_apply w hcap).core
  rw [halike.core, hcore]
  rfl

/-! ## Runs -/

/-- The same handles outside `T`, and the same commit state; outside a step the clock reading
may differ, since the next step sets it. -/
def Writer.Alike (T : Handle → Prop) (w w' : Writer) : Prop :=
  ∃ x, w.AlikeAt T x w' ∧ (w.core.stepState ≠ .notInStep → x = w.core.wallTimeNs)

theorem Writer.Alike.file {T : Handle → Prop} {w w' : Writer} (h : w.Alike T w') :
    w'.core.file = w.core.file := by
  obtain ⟨x, hat, -⟩ := h
  rw [hat.core]
  rfl

theorem Writer.Alike.of_core {T : Handle → Prop} {w w' : Writer} (hcore : w'.core = w.core)
    (hwrappers : ∀ h, ¬ T h → w'.wrappers h = w.wrappers h) : w.Alike T w' :=
  ⟨w.core.wallTimeNs, ⟨hcore, hwrappers⟩, fun _ => rfl⟩

theorem wireWrappers_congr (pending : List PendingEntry) (wired : List Nat)
    {wrappers wrappers' : Handle → Option Wrapper} {h : Handle} (heq : wrappers' h = wrappers h) :
    wireWrappers pending wired wrappers' h = wireWrappers pending wired wrappers h := by
  unfold wireWrappers
  rw [heq]

theorem alike_endStep {T : Handle → Prop} {w w' : Writer} (h : w.Alike T w') (env : EndEnv) :
    (endStep env w).state.Alike T (endStep env w').state := by
  obtain ⟨x, hat, hclock⟩ := h
  unfold endStep
  by_cases hopen : w.core.stepState = .inStep
  · have hcore : w'.core = w.core := by
      rw [hat.core, hclock (by rw [hopen]; decide)]
      rfl
    rw [hcore, if_neg (not_not.mpr hopen), if_neg (not_not.mpr hopen)]
    have hsame : Replay.SameWork ⟨w.core.folded env, [], w.lookups⟩ ⟨w.core.folded env, [], w'.lookups⟩ :=
      ⟨rfl, rfl⟩
    have hpolicy := sameWork_applyQueuePolicy hsame env
    simp only
    generalize applyQueuePolicy env ⟨w.core.folded env, [], w.lookups⟩ = o at hpolicy ⊢
    generalize applyQueuePolicy env ⟨w.core.folded env, [], w'.lookups⟩ = o' at hpolicy ⊢
    cases hpolicy with
    | ok hs =>
      refine .of_core ?_ (fun k hk => ?_)
      · simp only [hs.core, Outcome.state_ok]
      · simp only [hs.wired, Outcome.state_ok]
        exact wireWrappers_congr _ _ (hat.wrappers k hk)
    | fail hs =>
      refine .of_core ?_ (fun k hk => ?_)
      · simp only [hs.core, Outcome.state_fail]
      · simp only [hs.wired, Outcome.state_fail]
        exact wireWrappers_congr _ _ (hat.wrappers k hk)
  · rw [if_pos hopen, if_pos (by rw [hat.core]; exact hopen)]
    exact ⟨x, hat, hclock⟩

theorem stepState_apply_capture (w : Writer) {ev : Event} (hcap : ev.capture) :
    (w.apply ev).state.core.stepState = w.core.stepState
      ∧ (w.apply ev).state.core.wallTimeNs = w.core.wallTimeNs := by
  obtain ⟨pending, bytes, hcore⟩ := (captured_apply w hcap).core
  rw [hcore]
  exact ⟨rfl, rfl⟩

/-- Alike writers stay alike under events that name none of the handles they differ in. -/
theorem alike_event {T : Handle → Prop} {w w' : Writer} (h : w.Alike T w') {ev : Event}
    (hev : ∀ k ∈ ev.handles, ¬ T k) : (w.apply ev).state.Alike T (w'.apply ev).state := by
  by_cases hcap : ev.capture
  · obtain ⟨x, hat, hclock⟩ := h
    obtain ⟨hstate, hwall⟩ := stepState_apply_capture w hcap
    refine ⟨x, alike_apply hat hcap hev, ?_⟩
    rw [hstate, hwall]
    exact hclock
  · cases ev with
    | endStep env => exact alike_endStep h env
    | beginStep ids wall =>
      obtain ⟨x, hat, hclock⟩ := h
      simp only [Writer.apply, beginWriterStep, hat.core, Core.clocked_stepState]
      split
      · exact ⟨x, hat, hclock⟩
      · exact .of_core rfl hat.wrappers
    | noteGroupAttr path =>
      obtain ⟨x, hat, hclock⟩ := h
      have hattrs : (w.core.clocked x).groupAttrs = w.core.groupAttrs := rfl
      simp only [Writer.apply, noteGroupAttr, hat.core, Core.clocked_stepState, hattrs, Outcome.state_ok]
      split
      · exact ⟨x, hat, hclock⟩
      · exact ⟨x, hat.withCore _, hclock⟩
    | setQueuePolicy policy reserve =>
      obtain ⟨x, hat, hclock⟩ := h
      simp only [Writer.apply, hat.core, Outcome.state_ok]
      exact ⟨x, hat.withCore _, hclock⟩
    | fileClose =>
      obtain ⟨x, hat, hclock⟩ := h
      simp only [Writer.apply, fileClose, hat.core, Core.clocked_stepState, Outcome.state_ok]
      split
      · exact ⟨x, hat.withCore _, fun hopen => absurd rfl hopen⟩
      · exact ⟨x, hat, hclock⟩
    | datasetCreate => exact absurd rfl hcap
    | openLive => exact absurd rfl hcap
    | datasetWrite => exact absurd rfl hcap
    | setExtent => exact absurd rfl hcap
    | attrCreate => exact absurd rfl hcap
    | attrWrite => exact absurd rfl hcap
    | linkCreate => exact absurd rfl hcap
    | closeHandle => exact absurd rfl hcap

/-- The two runs go side by side. -/
theorem alike_run {T : Handle → Prop} {w w' : Writer} (h : w.Alike T w') {events : List Event}
    (hevents : ∀ ev ∈ events, ∀ k ∈ ev.handles, ¬ T k) : (w.run events).Alike T (w'.run events) := by
  induction events generalizing w w' with
  | nil => exact h
  | cons ev events ih =>
    refine ih (alike_event h (hevents ev List.mem_cons_self)) ?_
    exact fun ev' hev' => hevents ev' (List.mem_cons_of_mem _ hev')

/-! ## What captures change

An event changes the handles it touches, and its entries belong to those. -/

/-- The handles an event opens, closes or resizes. -/
def Event.touched : Event → List Handle
  | .datasetCreate h .. => [h]
  | .openLive h .. => [h]
  | .setExtent h .. => [h]
  | .attrCreate h .. => [h]
  | .closeHandle h => [h]
  | _ => []

-- every entry's placeholder is one of the handles in `T`
def OwnersIn (T : Handle → Prop) (pending : List PendingEntry) : Prop :=
  ∀ pe ∈ pending, ∀ h, pe.owner = some h → T h

theorem OwnersIn.set {T : Handle → Prop} {pending : List PendingEntry} (h : OwnersIn T pending) (i : Nat)
    {pe : PendingEntry} (hpe : ∀ k, pe.owner = some k → T k) : OwnersIn T (pending.set i pe) := by
  intro pe' hpe'
  rcases List.mem_or_eq_of_mem_set hpe' with hmem | rfl
  · exact h pe' hmem
  · exact hpe

theorem OwnersIn.append {T : Handle → Prop} {fs fs' : Core} {e : PendingEntry} (h : OwnersIn T fs.pending)
    (happend : pendingAppend fs e = some fs') (he : ∀ k, e.owner = some k → T k) :
    OwnersIn T fs'.pending := by
  unfold pendingAppend at happend
  simp only at happend
  split at happend
  · cases happend
  · cases happend
    intro pe hpe
    rcases List.mem_append.mp hpe with hmem | hmem
    · exact h pe hmem
    · rw [List.mem_singleton.mp hmem]
      exact he

theorem OwnersIn.stepIndex {T : Handle → Prop} {fs fs' : Core} {kind : Kind} {o : Wrapper}
    {under : Option ObjInfo} {idx : Nat} (h : OwnersIn T fs.pending)
    (hidx : stepIndex fs kind o under = some (fs', idx)) : OwnersIn T fs'.pending := by
  unfold VolStream.stepIndex at hidx
  split at hidx
  · cases hidx
    exact h
  · unfold liveIndex at hidx
    split at hidx
    · cases hidx
      exact h
    · split at hidx
      · cases hidx
      · rw [Option.map_eq_some_iff] at hidx
        obtain ⟨g, hg, hpair⟩ := hidx
        cases hpair
        exact h.append hg (fun k hk => by cases hk)

theorem ownersIn_captureWrite {T : Handle → Prop} {w : Writer} (h : OwnersIn T w.core.pending)
    (arg : WriteArg) : OwnersIn T (captureWrite arg w).state.core.pending
      ∧ (captureWrite arg w).state.wrappers = w.wrappers := by
  rcases captureWrite_cases arg w with
    hfail | ⟨o, fs, idx, -, hidx, hfail⟩ | ⟨o, fs, idx, ce, payload, fs', -, hidx, -, happend, hok⟩
  · rw [hfail]
    exact ⟨h, rfl⟩
  · rw [hfail]
    exact ⟨h.stepIndex hidx, rfl⟩
  · rw [hok]
    exact ⟨(h.stepIndex hidx).append happend (fun k hk => by cases hk), rfl⟩

theorem wrappers_open {T : Handle → Prop} {w : Writer} {k : Handle} {o : Wrapper} (hk : T k) {h : Handle}
    (hh : ¬ T h) : (w.open k o).wrappers h = w.wrappers h :=
  Function.update_of_ne (fun heq : h = k => hh (heq ▸ hk)) _ _

theorem wrappers_close {T : Handle → Prop} {wrappers : Handle → Option Wrapper} {k : Handle} (hk : T k)
    {h : Handle} (hh : ¬ T h) : Function.update wrappers k none h = wrappers h :=
  Function.update_of_ne (fun heq : h = k => hh (heq ▸ hk)) _ _

/-- Captures that touch only handles in `T` change no other handle, and their entries belong to
none other. -/
theorem capture_within {T : Handle → Prop} {w : Writer} {ev : Event} (hcap : ev.capture)
    (hev : ∀ k ∈ ev.touched, T k) (hown : OwnersIn T w.core.pending) :
    OwnersIn T (w.apply ev).state.core.pending
      ∧ ∀ h, ¬ T h → (w.apply ev).state.wrappers h = w.wrappers h := by
  cases ev with
  | datasetCreate k parent name type space dcpl =>
    have hk := hev k List.mem_cons_self
    rw [Writer.apply]
    rcases datasetCreate_cases w k parent name type space dcpl with hsame | ⟨-, fs, happend, hok⟩
    · rw [hsame]
      exact ⟨hown, fun _ _ => rfl⟩
    · rw [hok]
      refine ⟨hown.append happend (fun k' hk' => ?_), fun h hh => wrappers_open hk hh⟩
      cases hk'
      exact hk
  | openLive k path isDataset =>
    simp only [Writer.apply]
    split
    · exact ⟨hown, fun h hh => wrappers_open (hev k List.mem_cons_self) hh⟩
    · exact ⟨hown, fun _ _ => rfl⟩
  | datasetWrite args =>
    simp only [Writer.apply, datasetWrite]
    split
    · have hrun := Outcome.state_runAll (l := args)
        (P := fun w' : Writer => OwnersIn T w'.core.pending ∧ w'.wrappers = w.wrappers)
        (fun arg _ w' hw' => by
          obtain ⟨howners, hwrappers⟩ := ownersIn_captureWrite hw'.1 arg
          exact ⟨howners, hwrappers.trans hw'.2⟩)
        ⟨hown, rfl⟩
      exact ⟨hrun.1, fun h _ => by rw [hrun.2]⟩
    · split
      · exact ⟨hown, fun _ _ => rfl⟩
      · exact ⟨hown, fun _ _ => rfl⟩
  | setExtent k size maxDims under =>
    rw [Writer.apply]
    rcases setExtent_cases w k size maxDims under with hsame | ⟨o, idx, ce, space, -, -, hce, -, hgrown⟩ | ⟨-, o, hopened⟩
    · rw [hsame]
      exact ⟨hown, fun _ _ => rfl⟩
    · rw [hgrown]
      exact ⟨hown.set _ (fun k' hk' => hown ce (List.mem_of_getElem? hce) k' hk'), fun _ _ => rfl⟩
    · rw [hopened]
      exact ⟨hown, fun h hh => wrappers_open (hev k List.mem_cons_self) hh⟩
  | attrCreate k parent name type space acpl =>
    have hk := hev k List.mem_cons_self
    rw [Writer.apply]
    rcases attrCreate_cases w k parent name type space acpl with hsame | ⟨-, fs, happend, hok⟩
    · rw [hsame]
      exact ⟨hown, fun _ _ => rfl⟩
    · rw [hok]
      refine ⟨hown.append happend (fun k' hk' => ?_), fun h hh => wrappers_open hk hh⟩
      cases hk'
      exact hk
  | attrWrite k value under =>
    rw [Writer.apply]
    rcases attrWrite_ends w k value under with hsame | ⟨o, fs, idx, -, -, hidx, hend⟩
    · rw [hsame]
      exact ⟨hown, fun _ _ => rfl⟩
    · have hfs := hown.stepIndex hidx
      rcases hend with hfound | ⟨e, payload, bytes, he, hput⟩
      · rw [hfound]
        exact ⟨hfs, fun _ _ => rfl⟩
      · rw [hput]
        exact ⟨hfs.set idx (fun k' hk' => hfs e (List.mem_of_getElem? he) k' hk'), fun _ _ => rfl⟩
  | linkCreate path target hard =>
    rw [Writer.apply]
    rcases captureLink_cases w path target hard with hsame | ⟨-, fs, happend, hok⟩
    · rw [hsame]
      exact ⟨hown, fun _ _ => rfl⟩
    · rw [hok]
      exact ⟨hown.append happend (fun k' hk' => by cases hk'), fun _ _ => rfl⟩
  | closeHandle k =>
    rw [Writer.apply, Outcome.state_ok]
    rcases closeHandle_cases w k with hsame | ⟨pending, hclosed, hpending⟩
    · rw [hsame]
      exact ⟨hown, fun _ _ => rfl⟩
    · rw [hclosed]
      refine ⟨?_, fun h hh => wrappers_close (hev k List.mem_cons_self) hh⟩
      rcases hpending with rfl | ⟨idx, pe, -, rfl⟩
      · exact hown
      · exact hown.set _ (fun k' hk' => by cases hk')
  | beginStep ids wall => cases hcap
  | noteGroupAttr path => cases hcap
  | setQueuePolicy policy reserve => cases hcap
  | endStep env => cases hcap
  | fileClose => cases hcap

theorem run_captures {T : Handle → Prop} {w : Writer} {events : List Event} (hcap : ∀ ev ∈ events, ev.capture)
    (hevents : ∀ ev ∈ events, ∀ k ∈ ev.touched, T k) (hown : OwnersIn T w.core.pending) :
    w.core.SameButPending (w.run events).core ∧ OwnersIn T (w.run events).core.pending
      ∧ ∀ h, ¬ T h → (w.run events).wrappers h = w.wrappers h := by
  induction events generalizing w with
  | nil => exact ⟨.refl _, hown, fun _ _ => rfl⟩
  | cons ev events ih =>
    have hhead := hcap ev List.mem_cons_self
    obtain ⟨hown', hsame⟩ := capture_within hhead (hevents ev List.mem_cons_self) hown
    obtain ⟨hcore, howners, hwrappers⟩ := ih (fun ev' hev' => hcap ev' (List.mem_cons_of_mem _ hev'))
      (fun ev' hev' => hevents ev' (List.mem_cons_of_mem _ hev')) hown'
    refine ⟨(captured_apply w hhead).core.trans hcore, howners, fun h hh => ?_⟩
    exact (hwrappers h hh).trans (hsame h hh)

end VolStream
