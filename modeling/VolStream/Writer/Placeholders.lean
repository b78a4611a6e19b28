import VolStream.Writer.Landed
import VolStream.Writer.MergeAgreed

/-!
# Placeholders

A dataset or an attribute created in an open step is a placeholder: its wrapper names a pending entry, and the entry
names the wrapper. The replay of the entry gives the wrapper the real object. The pending buffer is freed at the end of
every step, so a wrapper that the replay has not come to is left with an index into whatever the next step captures.
-/

namespace VolStream

/-! ## What a replay wires -/

-- the kinds whose object a placeholder waits for
def Kind.wires : Kind → Bool
  | .dsetCreate | .attr => true
  | _ => false

/-- The entries a replay gets through: those in front of the first that stops it. -/
def replayed (env : ReplayEnv) (args : ReplayArgs) (idx : PathIndex) :
    TypeCache → List (Nat × Entry) → List (Nat × Entry)
  | _, [] => []
  | r, ie :: l =>
      if entryStops env args idx r ie then [] else ie :: replayed env args idx (recordedTypes r ie.2) l

-- the ones among them that have a placeholder
def wiredAmong (args : ReplayArgs) (l : List (Nat × Entry)) : List Nat :=
  (l.filter fun ie => args.owned ie.1 && ie.2.kind.wires).map (·.1)

/-- After one entry: its placeholder, if it has one, is wired last, unless the entry failed. -/
def Wires (st : Replay) (i : Nat) (owned : Bool) : Outcome Replay → Prop
  | .ok st' => st'.wired = st.wired ++ if owned then [i] else []
  | .fail st' => st'.wired = st.wired

theorem wires_wire {st st' : Replay} (h : st'.wired = st.wired) (i : Nat) (owned : Bool) :
    Wires st i owned (.ok (st'.wire i owned)) := by
  cases owned with
  | true => exact congrArg (· ++ [i]) h
  | false => exact h.trans (List.append_nil _).symm

theorem wires_unowned {st st' : Replay} (h : st'.wired = st.wired) (i : Nat) : Wires st i false (.ok st') :=
  h.trans (List.append_nil _).symm

/-- An object that is made goes to its placeholder, and nothing else does. -/
theorem wires_applyEntry (env : ReplayEnv) (args : ReplayArgs) (ie : Nat × Entry) (t : Datatype) (st : Replay) :
    Wires st ie.1 (args.owned ie.1 && ie.2.kind.wires) (applyEntry env args ie.1 ie.2 t st) := by
  unfold applyEntry
  cases hkind : ie.2.kind with
  | dsetCreate =>
    rw [show (args.owned ie.1 && Kind.dsetCreate.wires) = args.owned ie.1 from Bool.and_true _]
    simp only
    split
    · rfl
    · exact wires_wire rfl _ _
  | dsetWrite =>
    rw [show (args.owned ie.1 && Kind.dsetWrite.wires) = false from Bool.and_false _]
    simp only
    split
    · rfl
    · split
      · rfl
      · split
        · rfl
        · exact wires_unowned rfl _
  | attr =>
    rw [show (args.owned ie.1 && Kind.attr.wires) = args.owned ie.1 from Bool.and_true _]
    simp only
    split
    · rfl
    · rename_i parent _
      have hattr := wired_createAttr env args.manifest.physicalStep ie.1 ie.2 t parent st
      cases hcreate : createAttr env args.manifest.physicalStep ie.1 ie.2 t parent st with
      | fail st' =>
        rw [hcreate] at hattr
        exact hattr
      | ok st' =>
        rw [hcreate] at hattr
        have hattr : st'.wired = st.wired := hattr
        simp only [Outcome.bind_ok]
        split
        · exact wires_wire hattr _ _
        · split
          · exact hattr
          · split
            · exact hattr
            · exact wires_wire (Eq.trans (Replay.logOp_wired ..) hattr) _ _
  | link =>
    rw [show (args.owned ie.1 && Kind.link.wires) = false from Bool.and_false _]
    refine wires_unowned ?_ _
    unfold replayLink
    split
    · rfl
    · split
      · rfl
      · simp only
        split <;> rfl
  | group =>
    rw [show (args.owned ie.1 && Kind.group.wires) = false from Bool.and_false _]
    exact wires_unowned rfl _

theorem wired_resolveEntry (env : ReplayEnv) (args : ReplayArgs) (ie : Nat × Entry) (st : Replay) :
    (resolveEntry env args ie.1 ie.2 st).state.wired = st.wired := by
  rcases resolveEntry_cases env args ie.1 ie.2 st with ⟨h, -⟩ | ⟨h, -⟩ | ⟨h, -⟩ | ⟨h, -⟩ | h <;> rw [h] <;>
    simp [Replay.resolved]

theorem Wires.of_wired {st st' : Replay} {i : Nat} {owned : Bool} {o : Outcome Replay} (hsame : st'.wired = st.wired)
    (h : Wires st' i owned o) : Wires st i owned o := by
  cases o with
  | ok s => exact Eq.trans h (by rw [hsame])
  | fail s => exact Eq.trans h hsame

theorem wires_replayEntry (env : ReplayEnv) (args : ReplayArgs) (ie : Nat × Entry) (st : Replay) :
    Wires st ie.1 (args.owned ie.1 && ie.2.kind.wires) (replayEntry env args ie st) := by
  have hresolve := wired_resolveEntry env args ie st
  unfold replayEntry
  cases hres : resolveEntry env args ie.1 ie.2 st with
  | fail st' =>
    rw [hres] at hresolve
    exact hresolve
  | ok st' =>
    rw [hres] at hresolve
    rw [Outcome.bind_ok]
    cases entryType st'.core.replayTypeCache ie.2 with
    | none => exact hresolve
    | some t => exact (wires_applyEntry env args ie t st').of_wired hresolve

/-- An entry that is replayed has its sent type recorded. -/
theorem types_replayEntry {env : ReplayEnv} {args : ReplayArgs} {ie : Nat × Entry} {st st' : Replay}
    (h : replayEntry env args ie st = .ok st') :
    st'.core.replayTypeCache = recordedTypes st.core.replayTypeCache ie.2 := by
  unfold replayEntry at h
  rcases resolveEntry_cases env args ie.1 ie.2 st with ⟨hres, -⟩ | ⟨hres, -⟩ | ⟨hres, -⟩ | ⟨hres, -⟩ | hres <;>
    rw [hres] at h <;> try cases h
  rw [Outcome.bind_ok] at h
  split at h
  · cases h
  · rename_i t _
    obtain ⟨-, ops, -, hcore⟩ := applyEntry_core env args ie t (st.resolved args.manifest.physicalStep ie.2)
    rw [h, Outcome.state_ok, resolved_core] at hcore
    rw [hcore]

/-- The placeholders a list of entries gives an object to: those of the entries it gets through. -/
theorem wired_runAll {env : ReplayEnv} {args : ReplayArgs} {idx : PathIndex} {l : List (Nat × Entry)} {st : Replay}
    (hidx : Appended args.manifest.physicalStep idx st.core.pathIndex) :
    (Outcome.runAll (replayEntry env args) l st).state.wired
      = st.wired ++ wiredAmong args (replayed env args idx st.core.replayTypeCache l) := by
  induction l generalizing st with
  | nil => exact (List.append_nil _).symm
  | cons ie l ih =>
    have hok : (replayEntry env args ie st).isOk = _ := isOk_replayEntry hidx
    have hwires := wires_replayEntry env args ie st
    have happ := hidx.trans (appended_replayEntry env args ie st)
    rw [Outcome.runAll_cons, replayed]
    cases hrun : replayEntry env args ie st with
    | fail st' =>
      rw [hrun] at hok hwires
      have hstops : entryStops env args idx st.core.replayTypeCache ie = true := by
        rw [Outcome.isOk_fail] at hok
        simpa using hok
      rw [if_pos hstops]
      exact Eq.trans hwires (List.append_nil _).symm
    | ok st' =>
      rw [hrun] at hok hwires happ
      have happ : Appended args.manifest.physicalStep idx st'.core.pathIndex := happ
      have hgo : entryStops env args idx st.core.replayTypeCache ie = false := by
        rw [Outcome.isOk_ok] at hok
        simpa using hok
      have hwires : st'.wired = st.wired ++ if (args.owned ie.1 && ie.2.kind.wires) = true then [ie.1] else [] := hwires
      rw [Outcome.bind_ok, ih happ, types_replayEntry hrun, hwires, hgo, if_neg Bool.false_ne_true, List.append_assoc]
      congr 1
      unfold wiredAmong
      cases hown : args.owned ie.1 && ie.2.kind.wires with
      | true => rw [List.filter_cons_of_pos (by exact hown), List.map_cons, if_pos rfl, List.singleton_append]
      | false =>
        rw [List.filter_cons_of_neg (by rw [hown]; exact Bool.false_ne_true), if_neg Bool.false_ne_true, List.nil_append]

/-- What a replay gives to placeholders. -/
theorem replayManifest_wires (env : ReplayEnv) (args : ReplayArgs) (st : Replay) :
    (replayManifest env args st).state.wired = st.wired ++
      if env.startFails then []
      else wiredAmong args
        (replayed env args st.core.pathIndex st.core.replayTypeCache (replayOrder args.manifest.entries)) := by
  unfold replayManifest
  cases env.startFails with
  | true => exact (List.append_nil _).symm
  | false =>
    rw [if_neg Bool.false_ne_true, if_neg Bool.false_ne_true, ← wired_runAll (.refl _ _)]
    cases Outcome.runAll (replayEntry env args) (replayOrder args.manifest.entries) st with
    | fail st' => rfl
    | ok st' =>
      rw [Outcome.bind_ok, persist_eq, Outcome.state_ok]
      split <;> exact wired_carryForwardResized env args.manifest st'

/-! ## The two links -/

-- the state of the wrapper of an open handle
def Writer.stateOf (w : Writer) (h : Handle) : Option ObjState := (w.wrappers h).map (·.state)

/-- `pending[i].owner_wrapper`. -/
def Core.ownerOf (fs : Core) (i : Nat) : Option Handle := fs.pending[i]?.bind (·.owner)

/-- Every placeholder belongs to the step that is open, and is named by the entry it names. -/
def Writer.NoneDangle (w : Writer) : Prop :=
  ∀ h i, w.stateOf h = some (.placeholder i) → w.core.stepState = .inStep ∧ w.core.ownerOf i = some h

-- an owner stands on a kind that is wired
def Core.OwnersWire (fs : Core) : Prop := ∀ pe ∈ fs.pending, pe.owner ≠ none → pe.kind.wires = true

/-- Every owner is a placeholder that names the entry. This side never breaks. -/
structure Writer.Owned (w : Writer) : Prop where
  held : ∀ i h, w.core.ownerOf i = some h → w.stateOf h = some (.placeholder i)
  wire : w.core.OwnersWire

/-- The same owners at the same places. -/
structure Core.SameOwners (fs fs' : Core) : Prop where
  step : fs'.stepState = fs.stepState
  owner : ∀ i, fs'.ownerOf i = fs.ownerOf i
  wire : fs.OwnersWire → fs'.OwnersWire

namespace Core.SameOwners

theorem refl (fs : Core) : fs.SameOwners fs := ⟨rfl, fun _ => rfl, id⟩

theorem trans {a b c : Core} (hab : a.SameOwners b) (hbc : b.SameOwners c) : a.SameOwners c :=
  ⟨hbc.step.trans hab.step, fun i => (hbc.owner i).trans (hab.owner i), fun h => hbc.wire (hab.wire h)⟩

theorem of_same {fs fs' : Core} (hstep : fs'.stepState = fs.stepState) (h : fs'.pending = fs.pending) :
    fs.SameOwners fs' := by
  refine ⟨hstep, fun i => ?_, fun hwire => ?_⟩
  · rw [ownerOf, h]
    rfl
  · rw [OwnersWire, h]
    exact hwire

theorem of_pendingAppend {fs fs' : Core} {e : PendingEntry} (h : pendingAppend fs e = some fs') (hnone : e.owner = none) :
    fs.SameOwners fs' := by
  obtain ⟨rfl, -⟩ := pendingAppend_eq_some h
  refine ⟨rfl, fun i => ?_, fun hwire pe hpe howner => ?_⟩
  · show (fs.pending ++ [e])[i]?.bind (·.owner) = fs.pending[i]?.bind (·.owner)
    by_cases hi : i < fs.pending.length
    · rw [List.getElem?_append_left hi]
    · rw [List.getElem?_append_right (Nat.le_of_not_lt hi), List.getElem?_eq_none (Nat.le_of_not_lt hi)]
      cases h0 : i - fs.pending.length with
      | zero => exact hnone
      | succ k => rfl
  · rcases List.mem_append.mp hpe with hold | hnew
    · exact hwire pe hold howner
    · rw [List.mem_singleton.mp hnew] at howner
      exact absurd hnone howner

theorem of_set {fs fs' : Core} {i : Nat} {e e' : PendingEntry} (hi : fs.pending[i]? = some e)
    (hstep : fs'.stepState = fs.stepState) (hset : fs'.pending = fs.pending.set i e') (howner : e'.owner = e.owner)
    (hkind : e'.kind = e.kind) : fs.SameOwners fs' := by
  refine ⟨hstep, fun j => ?_, fun hwire pe hpe hpeOwner => ?_⟩
  · rw [ownerOf, hset, List.getElem?_set]
    split
    · rename_i hij
      subst hij
      have hlt := (List.getElem?_eq_some_iff.mp hi).1
      rw [if_pos hlt, ownerOf, hi]
      exact howner
    · rfl
  · rw [hset] at hpe
    rcases List.mem_or_eq_of_mem_set hpe with hold | rfl
    · exact hwire pe hold hpeOwner
    · rw [hkind]
      exact hwire e (List.mem_of_getElem? hi) (howner ▸ hpeOwner)

theorem of_stepIndex {fs fs' : Core} {kind : Kind} {o : Wrapper} {under : Option ObjInfo} {idx : Nat}
    (h : stepIndex fs kind o under = some (fs', idx)) : fs.SameOwners fs' := by
  unfold stepIndex at h
  split at h
  · cases h
    exact .refl fs
  · unfold liveIndex at h
    split at h
    · cases h
      exact .refl fs
    · split at h
      · cases h
      · rw [Option.map_eq_some_iff] at h
        obtain ⟨g, hg, hpair⟩ := h
        cases hpair
        exact of_pendingAppend hg rfl

theorem of_appendOrKeep (fs : Core) {e : PendingEntry} (hnone : e.owner = none) :
    fs.SameOwners ((pendingAppend fs e).getD fs) := by
  cases happend : pendingAppend fs e with
  | none => exact .refl fs
  | some fs' => exact of_pendingAppend happend hnone

theorem foldl {α : Type} {f : Core → α → Core} (hf : ∀ (fs : Core) (a : α), fs.SameOwners (f fs a)) (l : List α)
    (fs : Core) : fs.SameOwners (l.foldl f fs) := by
  induction l generalizing fs with
  | nil => exact .refl fs
  | cons a l ih => exact (hf fs a).trans (ih (f fs a))

/-- What the step inherits has no placeholder. -/
theorem of_foldLinks (answer : Path → Option GroupAttr) (fs : Core) :
    fs.SameOwners (foldLinks (foldGroupAttrs answer fs)) := by
  have hattrs : fs.SameOwners (fs.groupAttrs.foldl (foldGroupAttr answer) fs) := by
    refine foldl (fun g path => ?_) _ fs
    unfold foldGroupAttr
    split
    · exact .refl g
    · split
      · exact .refl g
      · split
        · exact .refl g
        · exact of_appendOrKeep g rfl
  have hlinks : (foldGroupAttrs answer fs).SameOwners (foldLinks (foldGroupAttrs answer fs)) := by
    refine foldl (fun g link => ?_) _ _
    unfold foldLink
    simp only
    split
    · exact of_appendOrKeep g rfl
    · exact .refl g
  have hcleared : fs.SameOwners (foldGroupAttrs answer fs) := hattrs.trans (of_same rfl rfl)
  exact hcleared.trans hlinks

end Core.SameOwners

/-- The same placeholders, with the same owners. -/
structure Writer.SameLinks (w w' : Writer) : Prop where
  core : w.core.SameOwners w'.core
  state : ∀ h, w'.stateOf h = w.stateOf h

namespace Writer

variable {w w' : Writer}

theorem SameLinks.refl (w : Writer) : w.SameLinks w := ⟨.refl _, fun _ => rfl⟩

theorem SameLinks.trans {a b c : Writer} (hab : a.SameLinks b) (hbc : b.SameLinks c) : a.SameLinks c :=
  ⟨hab.core.trans hbc.core, fun h => (hbc.state h).trans (hab.state h)⟩

theorem SameLinks.noneDangle (h : w.SameLinks w') (hw : w.NoneDangle) : w'.NoneDangle := by
  intro k i hk
  rw [h.state] at hk
  rw [h.core.step, h.core.owner]
  exact hw k i hk

theorem SameLinks.owned (h : w.SameLinks w') (hw : w.Owned) : w'.Owned where
  held := by
    intro i k hk
    rw [h.core.owner] at hk
    rw [h.state]
    exact hw.held i k hk
  wire := h.core.wire hw.wire

theorem stateOf_open (w : Writer) (h h' : Handle) (o : Wrapper) :
    (w.open h o).stateOf h' = if h' = h then some o.state else w.stateOf h' := by
  show Option.map _ (Function.update w.wrappers h (some o) h') = _
  rw [Function.update_apply]
  split
  · rfl
  · rfl

theorem sameLinks_captureWrite (arg : WriteArg) (w : Writer) : w.SameLinks (captureWrite arg w).state := by
  rcases captureWrite_cases arg w with
    hfail | ⟨o, fs, idx, -, hidx, hfail⟩ | ⟨o, fs, idx, ce, payload, fs', -, hidx, -, happend, hok⟩
  · rw [hfail]
    exact .refl w
  · rw [hfail]
    exact ⟨.of_stepIndex hidx, fun _ => rfl⟩
  · rw [hok]
    exact ⟨(Core.SameOwners.of_stepIndex hidx).trans (.of_pendingAppend happend rfl), fun _ => rfl⟩

theorem sameLinks_datasetWrite (args : List WriteArg) (w : Writer) : w.SameLinks (datasetWrite args w).state := by
  unfold datasetWrite
  simp only
  split
  · exact Outcome.state_runAll (P := fun w' : Writer => w.SameLinks w')
      (fun arg _ w' hw' => hw'.trans (sameLinks_captureWrite arg w')) (.refl w)
  · split
    · exact .refl w
    · exact .refl w

theorem sameLinks_attrWrite (w : Writer) (h : Handle) (value : Option Bytes) (under : Option ObjInfo) :
    w.SameLinks (attrWrite w h value under).state := by
  rcases attrWrite_ends w h value under with hsame | ⟨o, fs, idx, -, -, hidx, hend⟩
  · rw [hsame]
    exact .refl w
  · rcases hend with hfound | ⟨e, payload, bytes, he, hput⟩
    · rw [hfound]
      exact ⟨.of_stepIndex hidx, fun _ => rfl⟩
    · rw [hput]
      exact ⟨(Core.SameOwners.of_stepIndex hidx).trans (.of_set he rfl rfl rfl rfl), fun _ => rfl⟩

/-- A grown extent leaves the wrapper what it is. -/
theorem sameLinks_setExtent (w : Writer) (h : Handle) (size : List Nat) (maxDims : List (Option Nat))
    (under : Option Dataspace) : w.SameLinks (setExtent w h size maxDims under).state := by
  unfold setExtent
  cases ho : w.wrappers h with
  | none => exact .refl w
  | some o =>
    dsimp only
    split
    · split
      · exact .refl w
      · rename_i ce hce
        split
        · exact .refl w
        · exact ⟨.of_set hce rfl rfl rfl rfl, fun _ => rfl⟩
    · rename_i hstate
      split
      · exact .refl w
      · split
        · exact .refl w
        · refine ⟨.refl _, fun h' => ?_⟩
          rw [Outcome.state_ok, stateOf_open]
          split
          · rename_i hh
            rw [hh, stateOf, ho, Option.map_some]
          · rfl

/-! ## Creating and closing -/

/-- A create appends an entry that names the new placeholder, which names the entry. -/
structure Creates (h : Handle) (w w' : Writer) : Prop where
  free : w.stateOf h = none
  inStep : w'.core.stepState = .inStep
  owner : ∀ i, w'.core.ownerOf i = if i = w.core.pending.length then some h else w.core.ownerOf i
  wire : w.core.OwnersWire → w'.core.OwnersWire
  state : ∀ k, w'.stateOf k = if k = h then some (.placeholder w.core.pending.length) else w.stateOf k

theorem creates_of_append {h : Handle} {fs : Core} {e : PendingEntry} (hfree : w.wrappers h = none)
    (hstep : w.core.stepState = .inStep) (happend : pendingAppend w.core e = some fs) (howner : e.owner = some h)
    (hkind : e.kind.wires = true) (path : Path) (isDataset : Bool) :
    w.Creates h ({ w with core := fs }.open h ⟨path, .placeholder w.core.pending.length, isDataset, none⟩) := by
  obtain ⟨rfl, -⟩ := pendingAppend_eq_some happend
  refine ⟨?_, hstep, fun i => ?_, fun hwire pe hpe hpeOwner => ?_, fun k => ?_⟩
  · rw [stateOf, hfree, Option.map_none]
  · show (w.core.pending ++ [e])[i]?.bind (·.owner) = _
    by_cases hlast : i = w.core.pending.length
    · rw [if_pos hlast, hlast, List.getElem?_concat_length]
      exact howner
    · rw [if_neg hlast, Core.ownerOf]
      by_cases hi : i < w.core.pending.length
      · rw [List.getElem?_append_left hi]
      · have hpast : (w.core.pending ++ [e]).length ≤ i := by
          rw [List.length_append, List.length_singleton]
          omega
        rw [List.getElem?_eq_none hpast, List.getElem?_eq_none (by omega)]
  · rcases List.mem_append.mp hpe with hold | hnew
    · exact hwire pe hold hpeOwner
    · rw [List.mem_singleton.mp hnew]
      exact hkind
  · exact stateOf_open { w with core := _ } h k _

theorem Creates.noneDangle {h : Handle} (hcreate : w.Creates h w') (hw : w.NoneDangle) : w'.NoneDangle := by
  intro k i hk
  rw [hcreate.state] at hk
  rw [hcreate.owner]
  refine ⟨hcreate.inStep, ?_⟩
  by_cases hkh : k = h
  · rw [if_pos hkh] at hk
    cases hk
    rw [if_pos rfl, hkh]
  · rw [if_neg hkh] at hk
    have howner := (hw k i hk).2
    rw [if_neg, howner]
    rintro rfl
    rw [Core.ownerOf, List.getElem?_eq_none (Nat.le_refl _)] at howner
    cases howner

theorem Creates.owned {h : Handle} (hcreate : w.Creates h w') (hw : w.Owned) : w'.Owned where
  held := by
    intro i k hk
    rw [hcreate.owner] at hk
    rw [hcreate.state]
    by_cases hlast : i = w.core.pending.length
    · rw [if_pos hlast] at hk
      cases hk
      rw [if_pos rfl, hlast]
    · rw [if_neg hlast] at hk
      have hheld := hw.held i k hk
      rw [if_neg, hheld]
      rintro rfl
      rw [hcreate.free] at hheld
      cases hheld
  wire := hcreate.wire hw.wire

/-- A create is refused, or makes a placeholder. -/
theorem creates_datasetCreate (w : Writer) (h : Handle) (parent name : Path) (type : Datatype) (space : Dataspace)
    (dcpl : Bytes) :
    (datasetCreate w h parent name type space dcpl).state = w ∨
      w.Creates h (datasetCreate w h parent name type space dcpl).state := by
  unfold datasetCreate
  simp only
  split
  · exact .inl rfl
  · rename_i hopen
    rw [not_or, not_not, not_not] at hopen
    split
    · exact .inl rfl
    · rename_i fs happend
      exact .inr (creates_of_append hopen.2 hopen.1 happend rfl rfl _ _)

theorem creates_attrCreate (w : Writer) (h : Handle) (parent name : Path) (type : Datatype) (space : Dataspace)
    (acpl : Bytes) :
    (attrCreate w h parent name type space acpl).state = w ∨
      w.Creates h (attrCreate w h parent name type space acpl).state := by
  unfold attrCreate
  simp only
  split
  · exact .inl rfl
  · rename_i hopen
    rw [not_or, not_not, not_not] at hopen
    split
    · exact .inl rfl
    · rename_i fs happend
      exact .inr (creates_of_append hopen.2 hopen.1 happend rfl rfl _ _)

theorem stateOf_closeHandle (w : Writer) (h k : Handle) :
    (closeHandle w h).stateOf k = if k = h then none else w.stateOf k := by
  unfold closeHandle
  split
  · rename_i hnone
    by_cases hk : k = h
    · rw [if_pos hk, hk, stateOf, hnone, Option.map_none]
    · rw [if_neg hk]
  · show Option.map _ (Function.update w.wrappers h none k) = _
    rw [Function.update_apply]
    split
    · rfl
    · rfl

/-- The closed placeholder's entry has no owner any more. -/
theorem ownerOf_closeHandle (hw : w.Owned) (h : Handle) (i : Nat) :
    (closeHandle w h).core.ownerOf i = if w.core.ownerOf i = some h then none else w.core.ownerOf i := by
  have hheld : w.core.ownerOf i = some h → w.stateOf h = some (.placeholder i) := hw.held i h
  have hkept : ∀ o, w.wrappers h = o → (∀ s, o.map (·.state) = some (.placeholder s) → w.core.ownerOf s ≠ some h) →
      w.core.ownerOf i = if w.core.ownerOf i = some h then none else w.core.ownerOf i := by
    intro o ho hno
    rw [if_neg]
    intro howner
    have hstate := hheld howner
    rw [stateOf, ho] at hstate
    exact hno i hstate howner
  unfold closeHandle
  split
  · rename_i hnone
    exact hkept none hnone fun s hs => nomatch hs
  · rename_i o ho
    dsimp only
    split
    · rename_i hlive
      refine hkept (some o) ho fun s hs => ?_
      rw [Option.map_some, hlive] at hs
      cases hs
    · rename_i idx hstate
      have hother : ∀ s, (some o).map (·.state) = some (.placeholder s) → s = idx := by
        intro s hs
        rw [Option.map_some, hstate] at hs
        cases hs
        rfl
      split
      · rename_i hpast
        refine hkept (some o) ho fun s hs howner => ?_
        rw [hother s hs, Core.ownerOf, hpast] at howner
        cases howner
      · rename_i pe hpe
        split
        · rename_i hown
          show (w.core.pending.set idx { pe with owner := none })[i]?.bind (·.owner) = _
          rw [List.getElem?_set]
          by_cases hi : idx = i
          · subst hi
            have howner : w.core.ownerOf idx = some h := by
              rw [Core.ownerOf, hpe]
              exact hown
            rw [if_pos rfl, if_pos (List.getElem?_eq_some_iff.mp hpe).1, if_pos howner]
            rfl
          · rw [if_neg hi, if_neg]
            · rfl
            · intro howner
              have hstate' := hheld howner
              rw [stateOf, ho] at hstate'
              exact hi (hother i hstate').symm
        · rename_i hown
          refine hkept (some o) ho fun s hs howner => ?_
          rw [hother s hs, Core.ownerOf, hpe] at howner
          exact hown howner

theorem noneDangle_closeHandle (ho : w.Owned) (hw : w.NoneDangle) (h : Handle) : (closeHandle w h).NoneDangle := by
  intro k i hk
  rw [stateOf_closeHandle] at hk
  split at hk
  · cases hk
  · rename_i hkh
    obtain ⟨hstep, howner⟩ := hw k i hk
    refine ⟨?_, ?_⟩
    · rcases closeHandle_cases w h with hsame | ⟨pending, hclosed, -⟩
      · rw [hsame]
        exact hstep
      · rw [hclosed]
        exact hstep
    · rw [ownerOf_closeHandle ho, howner, if_neg]
      intro heq
      exact hkh (Option.some.inj heq)

theorem owned_closeHandle (ho : w.Owned) (h : Handle) : (closeHandle w h).Owned where
  held := by
    intro i k hk
    rw [ownerOf_closeHandle ho] at hk
    split at hk
    · cases hk
    · rename_i hother
      rw [stateOf_closeHandle, if_neg, ho.held i k hk]
      rintro rfl
      exact hother hk
  wire := by
    rcases closeHandle_cases w h with hsame | ⟨pending, hclosed, rfl | ⟨idx, pe, hpe, rfl⟩⟩
    · rw [hsame]
      exact ho.wire
    · rw [hclosed]
      exact ho.wire
    · rw [hclosed]
      intro pe' hpe' howner
      rcases List.mem_or_eq_of_mem_set hpe' with hold | rfl
      · exact ho.wire pe' hold howner
      · exact absurd rfl howner

theorem sameLinks_captureLink (w : Writer) (path target : Path) (hard : Bool) :
    w.SameLinks (captureLink w path target hard).state := by
  rcases captureLink_cases w path target hard with hsame | ⟨-, fs, happend, hok⟩
  · rw [hsame]
    exact .refl w
  · rw [hok]
    exact ⟨.of_pendingAppend happend rfl, fun _ => rfl⟩

end Writer

end VolStream
