import VolStream.Writer.Made
import VolStream.Writer.PayloadSlices
import VolStream.Writer.PendingBytes

/-!
# Entries that land in the file

A pending entry has landed when the call its replay is about has been made in the step's group: a create for a
`DsetCreate`, the write of its payload for a `DsetWrite`, a create and the write of a value for an `Attr`. A
replay that returns success has landed every entry of its manifest (`landed_replayManifest`), so an
`H5Fend_step` that returns success has, unless the queue policy kept the step from being replayed
(`landed_endStep`). Links are best effort and groups make no call.
-/

namespace VolStream

/-- The entry's calls are among those made in the step's group. -/
def Shape.LandedIn (s : Shape) (payload : Payload) (ops : List FileOp) : Prop :=
  match s.kind with
  | .dsetCreate => ∃ t dcpl, FileOp.datasetCreate s.path t s.space dcpl ∈ ops
  | .dsetWrite => ∃ t, FileOp.datasetWrite s.path t s.space payload ∈ ops
  | .attr => (∃ t acpl, FileOp.attrCreate s.path t s.space acpl ∈ ops) ∧
      (payload.len ≠ 0 → FileOp.attrWrite s.path payload ∈ ops)
  | .link => True
  | .group => True

def PendingEntry.LandedIn (pe : PendingEntry) (ops : List FileOp) : Prop := pe.shape.LandedIn pe.payload ops

/-- Further calls in the group leave it landed. -/
theorem Shape.LandedIn.mono {s : Shape} {payload : Payload} {ops ops' : List FileOp} (h : s.LandedIn payload ops)
    (hsub : ops ⊆ ops') : s.LandedIn payload ops' := by
  unfold Shape.LandedIn at h ⊢
  split
  · rename_i hk
    rw [hk] at h
    obtain ⟨t, dcpl, hmem⟩ := h
    exact ⟨t, dcpl, hsub hmem⟩
  · rename_i hk
    rw [hk] at h
    obtain ⟨t, hmem⟩ := h
    exact ⟨t, hsub hmem⟩
  · rename_i hk
    rw [hk] at h
    obtain ⟨⟨t, acpl, hmade⟩, hwritten⟩ := h
    exact ⟨⟨t, acpl, hsub hmade⟩, fun hlen => hsub (hwritten hlen)⟩
  · trivial
  · trivial

/-! ## Calls stay -/

theorem StepFile.ops_subset_appendAll (file : StepFile) (n k : Nat) (ops : List FileOp) :
    file.ops k ⊆ (file.appendAll n ops).ops k := by
  rw [StepFile.ops_appendAll]
  split
  · exact List.subset_append_left _ _
  · exact List.Subset.refl _

theorem StepFile.mem_ops_append (file : StepFile) (n : Nat) (op : FileOp) : op ∈ (file.append n op).ops n := by
  rw [StepFile.ops_append, if_pos rfl]
  exact List.mem_append_right _ List.mem_cons_self

theorem ops_subset_replayEntry (env : ReplayEnv) (args : ReplayArgs) (ie : Nat × Entry) (st : Replay) (k : Nat) :
    st.core.file.ops k ⊆ (replayEntry env args ie st).state.core.file.ops k := by
  rcases replayEntry_core env args ie st with ⟨hsame, -⟩ | ⟨r, ops, links, -, -, -, hcore⟩
  · rw [hsame]
    exact List.Subset.refl _
  · rw [hcore]
    exact StepFile.ops_subset_appendAll _ _ _ _

/-- What follows the loop over the entries only adds calls. -/
theorem ops_subset_persist {env : ReplayEnv} {m : Step} {s st' : Replay}
    (h : persist env m (carryForwardResized env m s) = .ok st') (k : Nat) :
    s.core.file.ops k ⊆ st'.core.file.ops k := by
  rw [persist_eq] at h
  split at h
  · cases h
  · cases h
    obtain ⟨-, ops, -, hcarry⟩ := applied_carryForwardResized env m s
    have hcarried : s.core.file.ops k ⊆ (carryForwardResized env m s).core.file.ops k := by
      rw [hcarry]
      exact StepFile.ops_subset_appendAll _ _ _ _
    intro op hop
    refine StepFile.ops_subset_appendAll _ _ _ _ ?_
    rw [StepFile.ops_ensure]
    exact hcarried hop

/-! ## One entry -/

/-- An attribute that was made has been created by the attempt that succeeded. -/
theorem createAttr_made {env : ReplayEnv} {n i : Nat} {e : Entry} {t : Datatype} {parent : Path} {st st' : Replay}
    (h : createAttr env n i e t parent st = .ok st') :
    FileOp.attrCreate e.path t e.space e.dcpl ∈ st'.core.file.ops n := by
  unfold createAttr at h
  simp only at h
  have hgroup : ∀ s : Replay, (if env.fails i .ensureAttrGroup = true then Outcome.fail s
      else if env.fails i .attrCreate = true then .fail (s.logOp n (.groupCreate parent))
      else .ok ((s.logOp n (.groupCreate parent)).logOp n (.attrCreate e.path t e.space e.dcpl))) = .ok st' →
      FileOp.attrCreate e.path t e.space e.dcpl ∈ st'.core.file.ops n := by
    intro s hs
    split at hs
    · cases hs
    · split at hs
      · cases hs
      · cases hs
        exact StepFile.mem_ops_append _ _ _
  split at h
  · cases h
    exact StepFile.mem_ops_append _ _ _
  · split at h
    · exact hgroup _ h
    · split at h
      · exact hgroup _ h
      · split at h
        · exact hgroup _ h
        · cases h
          exact StepFile.mem_ops_append _ _ _

/-- An entry replayed with success has landed. -/
theorem landed_replayEntry {env : ReplayEnv} {args : ReplayArgs} {ie : Nat × Entry} {st st' : Replay}
    (hlen : ie.2.payloadLen = (args.payload ie.1).len) (h : replayEntry env args ie st = .ok st') :
    ie.2.shape.LandedIn (args.payload ie.1) (st'.core.file.ops args.manifest.physicalStep) := by
  obtain ⟨t, ht⟩ := replayEntry_eq_ok h
  show (Shape.mk ie.2.kind ie.2.path ie.2.space).LandedIn _ _
  unfold Shape.LandedIn
  cases hk : ie.2.kind with
  | dsetCreate =>
    simp only [applyEntry, hk] at ht
    split at ht
    · cases ht
    · cases ht
      refine ⟨t, ie.2.dcpl, ?_⟩
      rw [Replay.wire_core]
      exact StepFile.mem_ops_append _ _ _
  | dsetWrite =>
    simp only [applyEntry, hk] at ht
    split at ht
    · cases ht
    · split at ht
      · cases ht
      · split at ht
        · cases ht
        · cases ht
          exact ⟨t, StepFile.mem_ops_append _ _ _⟩
  | attr =>
    simp only [applyEntry, hk] at ht
    split at ht
    · cases ht
    · rename_i parent _
      rw [Outcome.bind_eq_ok_iff] at ht
      obtain ⟨s, hmade, ht⟩ := ht
      have hcreated := createAttr_made hmade
      split at ht
      · rename_i hzero
        cases ht
        rw [Replay.wire_core]
        exact ⟨⟨t, ie.2.dcpl, hcreated⟩, fun hne => absurd (hlen.symm.trans hzero) hne⟩
      · split at ht
        · cases ht
        · split at ht
          · cases ht
          · cases ht
            rw [Replay.wire_core]
            refine ⟨⟨t, ie.2.dcpl, ?_⟩, fun _ => StepFile.mem_ops_append _ _ _⟩
            exact StepFile.ops_subset_appendAll s.core.file _ _ [_] hcreated
  | link => trivial
  | group => trivial

/-- A loop that completes has landed every entry it went over. -/
theorem landed_loop {env : ReplayEnv} {args : ReplayArgs} {l : List (Nat × Entry)} {st st' : Replay}
    (hlen : ∀ ie ∈ l, ie.2.payloadLen = (args.payload ie.1).len)
    (h : Outcome.runAll (replayEntry env args) l st = .ok st') :
    st.core.file.ops args.manifest.physicalStep ⊆ st'.core.file.ops args.manifest.physicalStep ∧
      ∀ ie ∈ l, ie.2.shape.LandedIn (args.payload ie.1) (st'.core.file.ops args.manifest.physicalStep) := by
  induction l generalizing st with
  | nil =>
    cases h
    exact ⟨List.Subset.refl _, List.forall_mem_nil _⟩
  | cons ie l ih =>
    rw [Outcome.runAll_cons, Outcome.bind_eq_ok_iff] at h
    obtain ⟨s, hs, h⟩ := h
    obtain ⟨hsub, hlanded⟩ := ih (fun ie' hie' => hlen ie' (List.mem_cons_of_mem _ hie')) h
    have hfirst := ops_subset_replayEntry env args ie st args.manifest.physicalStep
    rw [hs, Outcome.state_ok] at hfirst
    refine ⟨fun op hop => hsub (hfirst hop), ?_⟩
    rw [List.forall_mem_cons]
    exact ⟨(landed_replayEntry (hlen ie List.mem_cons_self) hs).mono hsub, hlanded⟩

/-! ## A step -/

/-- A replay that succeeds has landed every entry of its manifest. -/
theorem landed_replayManifest {env : ReplayEnv} {args : ReplayArgs} {st st' : Replay}
    (hlen : ∀ i e, args.manifest.entries[i]? = some e → e.payloadLen = (args.payload i).len)
    (h : replayManifest env args st = .ok st') {i : Nat} {e : Entry} (he : args.manifest.entries[i]? = some e) :
    e.shape.LandedIn (args.payload i) (st'.core.file.ops args.manifest.physicalStep) := by
  unfold replayManifest at h
  split at h
  · cases h
  · rw [Outcome.bind_eq_ok_iff] at h
    obtain ⟨s, hloop, hpersist⟩ := h
    have hlanded := (landed_loop (fun ie hie => hlen ie.1 ie.2 (getElem?_of_mem_replayOrder hie)) hloop).2
    have hie : (i, e) ∈ replayOrder args.manifest.entries := mem_replayOrder_iff.mpr he
    exact (hlanded (i, e) hie).mono (ops_subset_persist hpersist _)

/-- Each entry of a manifest that was built has its pending entry's shape and length. -/
theorem entry_of_buildManifest {env : BuildEnv} {fs fs' : Core} {m : Step} (h : buildManifest env fs = (fs', some m))
    {i : Nat} {e : Entry} (he : m.entries[i]? = some e) :
    ∃ pe, fs.pending[i]? = some pe ∧ e.shape = pe.shape ∧ e.payloadLen = pe.payload.len := by
  have hshapes := congrArg (fun l => l[i]?) (shapes_buildManifest (congrArg Prod.snd h))
  have hlens := congrArg (fun l => l[i]?) (buildManifest_slices h).2
  simp only [List.getElem?_map, he, Option.map_some, rawPayloads] at hshapes hlens
  cases hpe : fs.pending[i]? with
  | none =>
    rw [hpe] at hshapes
    cases hshapes
  | some pe =>
    rw [hpe, Option.map_some, Option.some.injEq] at hshapes
    rw [hpe, Option.map_some, Option.map_some, Option.some.injEq, Payload.length_raw] at hlens
    exact ⟨pe, rfl, hshapes, hlens⟩

/-- A replay of the open step that succeeds has landed every pending entry. -/
theorem landed_replayStep {build : BuildEnv} {env : ReplayEnv} {st st' : Replay}
    (h : replayStep build env st = .ok st') {pe : PendingEntry} (hpe : pe ∈ st.core.pending) :
    pe.LandedIn (st'.core.file.ops st.core.physicalStep) := by
  unfold replayStep at h
  cases hbuild : buildManifest build st.core with
  | mk fs res =>
    rw [hbuild] at h
    obtain ⟨w, rfl, hm⟩ := buildManifest_eq hbuild
    cases res with
    | none => cases h
    | some m =>
      simp only at h
      obtain ⟨i, hi⟩ := List.mem_iff_getElem?.mp hpe
      -- the manifest lists the entry at its place
      have hlength := congrArg List.length (shapes_buildManifest (congrArg Prod.snd hbuild))
      rw [List.length_map, List.length_map] at hlength
      have hlt := (List.getElem?_eq_some_iff.mp hi).1
      obtain ⟨e, he⟩ : ∃ e, m.entries[i]? = some e := ⟨_, List.getElem?_eq_getElem (by omega)⟩
      have hpayload : ∀ (j : Nat) (pe : PendingEntry), st.core.pending[j]? = some pe →
          (Core.replayArgs { st.core with writeTypeCache := w } m).payload j = pe.payload := by
        intro j pe hj
        show ((st.core.pending[j]?).map (·.payload)).getD _ = _
        rw [hj]
        rfl
      have hlen : ∀ (j : Nat) (e : Entry), m.entries[j]? = some e →
          e.payloadLen = ((Core.replayArgs { st.core with writeTypeCache := w } m).payload j).len := by
        intro j e hj
        obtain ⟨pe', hpe', -, hlen⟩ := entry_of_buildManifest hbuild hj
        rw [hpayload j pe' hpe', hlen]
      have hlanded := landed_replayManifest hlen h he
      obtain ⟨pe', hpe', hshape, -⟩ := entry_of_buildManifest hbuild he
      rw [hi, Option.some.injEq] at hpe'
      subst hpe'
      rw [hpayload i pe hi, hshape, show (Core.replayArgs { st.core with writeTypeCache := w } m).manifest.physicalStep
        = st.core.physicalStep from (hm m rfl).1] at hlanded
      exact hlanded

/-- An `H5Fend_step` that returns success has landed every entry of the step, unless the queue policy kept it
from being replayed. -/
theorem landed_endStep {env : EndEnv} {w w' : Writer} (h : endStep env w = .ok w')
    (hfate : (w.core.folded env).fate env.lag = .replay) {pe : PendingEntry}
    (hpe : pe ∈ (w.core.folded env).pending) : pe.LandedIn (w'.core.file.ops w.core.physicalStep) := by
  unfold endStep at h
  split at h
  · cases h
  · simp only at h
    cases hpolicy : applyQueuePolicy env ⟨w.core.folded env, [], w.lookups⟩ with
    | fail st =>
      rw [hpolicy] at h
      cases h
    | ok st =>
      rw [hpolicy] at h
      cases h
      rw [applyQueuePolicy_eq, hfate] at hpolicy
      simp only at hpolicy
      have hframe := drainFrame_drained env ⟨w.core.folded env, [], w.lookups⟩
      have hnumber := congrArg Core.physicalStep hframe
      obtain ⟨pending, bytes, hfold⟩ := folded_eq w.core env
      have hstep : (w.core.folded env).physicalStep = w.core.physicalStep := by rw [hfold]
      have hmem : pe ∈ (drained env ⟨w.core.folded env, [], w.lookups⟩).core.drainFrame.pending := by
        rw [hframe]
        exact hpe
      have hlanded := landed_replayStep hpolicy hmem
      rw [show (drained env ⟨w.core.folded env, [], w.lookups⟩).core.physicalStep = w.core.physicalStep from
        hnumber.trans hstep] at hlanded
      exact hlanded

/-! ## Entries keep their place

While a step is open its entries are appended and edited in place, so the entry a write made is known by its
position. -/

/-- The entries of `fs` are still there, in front, with their kinds and paths. -/
def Core.KeepsPlaces (fs fs' : Core) : Prop := fs.pending.map PendingEntry.key <+: fs'.pending.map PendingEntry.key

namespace Core.KeepsPlaces

theorem refl (fs : Core) : fs.KeepsPlaces fs := List.prefix_refl _

theorem trans {a b c : Core} (hab : a.KeepsPlaces b) (hbc : b.KeepsPlaces c) : a.KeepsPlaces c :=
  List.IsPrefix.trans hab hbc

theorem of_same {fs fs' : Core} (h : fs'.pending = fs.pending) : fs.KeepsPlaces fs' := by
  unfold Core.KeepsPlaces
  rw [h]

theorem of_pendingAppend {fs fs' : Core} {e : PendingEntry} (h : pendingAppend fs e = some fs') :
    fs.KeepsPlaces fs' := by
  obtain ⟨rfl, -⟩ := pendingAppend_eq_some h
  show _ <+: (fs.pending ++ [e]).map PendingEntry.key
  rw [List.map_append]
  exact List.prefix_append _ _

theorem of_set {fs fs' : Core} {i : Nat} {e e' : PendingEntry} (h : fs.pending[i]? = some e)
    (hset : fs'.pending = fs.pending.set i e') (hkey : e'.key = e.key) : fs.KeepsPlaces fs' := by
  have hmap : (fs.pending.set i e').map PendingEntry.key = fs.pending.map PendingEntry.key := by
    rw [List.map_set, hkey]
    obtain ⟨hi, rfl⟩ := List.getElem?_eq_some_iff.mp h
    rw [← List.getElem_map PendingEntry.key (h := by simpa using hi), List.set_getElem_self]
  unfold Core.KeepsPlaces
  rw [hset, hmap]

theorem of_stepIndex {fs fs' : Core} {kind : Kind} {o : Wrapper} {under : Option ObjInfo} {idx : Nat}
    (h : stepIndex fs kind o under = some (fs', idx)) : fs.KeepsPlaces fs' := by
  unfold stepIndex at h
  split at h
  · cases h
    exact .refl fs
  · unfold liveIndex at h
    split at h
    · cases h
      exact .refl fs
    · split at h
      · cases h
      · rw [Option.map_eq_some_iff] at h
        obtain ⟨g, hg, hpair⟩ := h
        cases hpair
        exact .of_pendingAppend hg

theorem of_captureWrite (arg : WriteArg) (w : Writer) : w.core.KeepsPlaces (captureWrite arg w).state.core := by
  rcases captureWrite_cases arg w with
    hfail | ⟨o, fs, idx, -, hidx, hfail⟩ | ⟨o, fs, idx, ce, payload, fs', -, hidx, -, happend, hok⟩
  · rw [hfail]
    exact .refl w.core
  · rw [hfail]
    exact of_stepIndex hidx
  · rw [hok]
    exact (of_stepIndex hidx).trans (of_pendingAppend happend)

theorem of_datasetWrite (args : List WriteArg) (w : Writer) :
    w.core.KeepsPlaces (datasetWrite args w).state.core := by
  unfold datasetWrite
  simp only
  split
  · exact Outcome.state_runAll (P := fun w' : Writer => w.core.KeepsPlaces w'.core)
      (fun arg _ w' hw' => hw'.trans (of_captureWrite arg w')) (.refl w.core)
  · split
    · exact .refl w.core
    · exact .refl w.core

theorem of_attrWrite (w : Writer) (h : Handle) (value : Option Bytes) (under : Option ObjInfo) :
    w.core.KeepsPlaces (attrWrite w h value under).state.core := by
  rcases attrWrite_ends w h value under with hsame | ⟨o, fs, idx, -, -, hidx, hend⟩
  · rw [hsame]
    exact .refl w.core
  · rcases hend with hfound | ⟨e, payload, bytes, he, hput⟩
    · rw [hfound]
      exact of_stepIndex hidx
    · rw [hput]
      exact (of_stepIndex hidx).trans (of_set he rfl rfl)

/-- A captured operation. -/
theorem of_capture (w : Writer) {ev : Event} (hev : ev.capture) : w.core.KeepsPlaces (w.apply ev).state.core := by
  cases ev with
  | datasetCreate h parent name type space dcpl =>
    rw [Writer.apply]
    rcases datasetCreate_cases w h parent name type space dcpl with hsame | ⟨-, fs, happend, hok⟩
    · rw [hsame]
      exact .refl w.core
    · rw [hok]
      exact of_pendingAppend happend
  | openLive h path isDataset =>
    simp only [Writer.apply]
    split
    · exact .refl w.core
    · exact .refl w.core
  | datasetWrite args => exact of_datasetWrite args w
  | setExtent h size maxDims under =>
    rw [Writer.apply]
    rcases setExtent_cases w h size maxDims under with hsame | ⟨o, idx, ce, space, -, -, hce, -, hgrown⟩ | ⟨-, o, hopened⟩
    · rw [hsame]
      exact .refl w.core
    · rw [hgrown]
      exact of_set hce rfl rfl
    · rw [hopened]
      exact .refl w.core
  | attrCreate h parent name type space acpl =>
    rw [Writer.apply]
    rcases attrCreate_cases w h parent name type space acpl with hsame | ⟨-, fs, happend, hok⟩
    · rw [hsame]
      exact .refl w.core
    · rw [hok]
      exact of_pendingAppend happend
  | attrWrite h value under => exact of_attrWrite w h value under
  | linkCreate path target hard =>
    rw [Writer.apply]
    rcases captureLink_cases w path target hard with hsame | ⟨-, fs, happend, hok⟩
    · rw [hsame]
      exact .refl w.core
    · rw [hok]
      exact of_pendingAppend happend
  | closeHandle h =>
    rw [Writer.apply, Outcome.state_ok]
    rcases closeHandle_cases w h with hsame | ⟨pending, hclosed, hpending⟩
    · rw [hsame]
      exact .refl w.core
    · rw [hclosed]
      rcases hpending with rfl | ⟨idx, pe, hpe, rfl⟩
      · exact .refl w.core
      · exact of_set hpe rfl rfl
  | beginStep ids wall => cases hev
  | noteGroupAttr path => cases hev
  | setQueuePolicy policy reserve => cases hev
  | endStep env => cases hev
  | fileClose => cases hev

theorem of_appendOrKeep (fs : Core) (e : PendingEntry) : fs.KeepsPlaces ((pendingAppend fs e).getD fs) := by
  cases happend : pendingAppend fs e with
  | none => exact .refl fs
  | some fs' => exact of_pendingAppend happend

theorem foldl {α : Type} {f : Core → α → Core} (hf : ∀ (fs : Core) (a : α), fs.KeepsPlaces (f fs a)) (l : List α)
    (fs : Core) : fs.KeepsPlaces (l.foldl f fs) := by
  induction l generalizing fs with
  | nil => exact .refl fs
  | cons a l ih => exact (hf fs a).trans (ih (f fs a))

/-- What the step inherits is folded in behind its own entries. -/
theorem of_folded (fs : Core) (env : EndEnv) : fs.KeepsPlaces (fs.folded env) := by
  have hattrs : fs.KeepsPlaces (fs.groupAttrs.foldl (foldGroupAttr env.groupAttr) fs) := by
    refine foldl (fun g path => ?_) _ fs
    unfold foldGroupAttr
    split
    · exact .refl g
    · split
      · exact .refl g
      · split
        · exact .refl g
        · exact of_appendOrKeep g _
  have hlinks : (foldGroupAttrs env.groupAttr fs).KeepsPlaces (foldLinks (foldGroupAttrs env.groupAttr fs)) := by
    refine foldl (fun g link => ?_) _ _
    unfold foldLink
    simp only
    split
    · exact of_appendOrKeep g _
    · exact .refl g
  exact hattrs.trans hlinks

/-- The entry at a place is still there. -/
theorem entry {fs fs' : Core} (h : fs.KeepsPlaces fs') {i : Nat} {key : Kind × Path}
    (hi : fs.pending[i]?.map PendingEntry.key = some key) : fs'.pending[i]?.map PendingEntry.key = some key := by
  obtain ⟨rest, hrest⟩ := h
  rw [← List.getElem?_map] at hi ⊢
  have hlt := (List.getElem?_eq_some_iff.mp hi).1
  rw [← hrest, List.getElem?_append_left hlt, hi]

end Core.KeepsPlaces

end VolStream
