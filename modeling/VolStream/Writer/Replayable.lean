import VolStream.Writer.StepGroups
import VolStream.Writer.Capture

/-!
# Captures that can be replayed

Capture defers HDF5's own checks to the replay: whether a name is free, whether a write has a
dataset to go to and stays inside its extent. `Replayable` is what the pending buffer has to meet
for none of these to fail then. The connector checks nothing of it when it captures, so it holds
of the runs whose operations meet it by themselves.
-/

namespace VolStream

open RowMajor

/-! ## Selections and extents -/

-- as many dimensions, none larger
def dimsWithin (dims dims' : List Nat) : Bool :=
  decide (dims.length = dims'.length) && (dims.zip dims').all fun p => decide (p.1 ≤ p.2)

/-- The selection lies inside the extent. -/
def Dataspace.inside (s : Dataspace) (e : Extent) : Bool :=
  match s.sel, s.extent, e with
  | .none, _, _ => true
  | .all, .null, _ => true
  | .all, .scalar, .scalar => true
  | .all, .simple dims, .simple dims' => dimsWithin dims dims'
  | .points coords, _, .simple dims =>
      coords.all fun c => decide (c.length = dims.length) && (c.zip dims).all fun p => decide (p.1 < p.2)
  | .hyperslab blocks, _, .simple dims => blocks.all fun b => decide (BoxIn dims b.start b.stop)
  | _, _, _ => false

theorem dimsWithin_cons (d d' : Nat) (ds ds' : List Nat) :
    dimsWithin (d :: ds) (d' :: ds') = (decide (d ≤ d') && dimsWithin ds ds') := by
  simp only [dimsWithin, List.length_cons, Nat.add_right_cancel_iff, List.zip_cons_cons, List.all_cons]
  rw [Bool.and_left_comm]

theorem dimsWithin_trans {a b c : List Nat} (hab : dimsWithin a b) (hbc : dimsWithin b c) : dimsWithin a c := by
  induction a generalizing b c with
  | nil =>
    cases b with
    | nil => exact hbc
    | cons => cases hab
  | cons x a ih =>
    cases b with
    | nil => cases hab
    | cons y b =>
      cases c with
      | nil => cases hbc
      | cons z c =>
        rw [dimsWithin_cons, Bool.and_eq_true, decide_eq_true_eq] at hab hbc ⊢
        exact ⟨Nat.le_trans hab.1 hbc.1, ih hab.2 hbc.2⟩

theorem boxIn_within {dims dims' b e : List Nat} (h : BoxIn dims b e) (hdims : dimsWithin dims dims') :
    BoxIn dims' b e := by
  induction h generalizing dims' with
  | nil =>
    cases dims' with
    | nil => exact .nil
    | cons => cases hdims
  | cons hbe hed _ ih =>
    cases dims' with
    | nil => cases hdims
    | cons d' dims' =>
      rw [dimsWithin_cons, Bool.and_eq_true, decide_eq_true_eq] at hdims
      exact .cons hbe (Nat.lt_of_lt_of_le hed hdims.1) (ih hdims.2)

theorem pointIn_within {dims dims' c : List Nat}
    (h : (decide (c.length = dims.length) && (c.zip dims).all fun p => decide (p.1 < p.2)) = true)
    (hdims : dimsWithin dims dims') :
    (decide (c.length = dims'.length) && (c.zip dims').all fun p => decide (p.1 < p.2)) = true := by
  induction c generalizing dims dims' with
  | nil =>
    cases dims with
    | nil =>
      cases dims' with
      | nil => rfl
      | cons => cases hdims
    | cons => cases h
  | cons x c ih =>
    cases dims with
    | nil => cases h
    | cons d dims =>
      cases dims' with
      | nil => cases hdims
      | cons d' dims' =>
        rw [dimsWithin_cons, Bool.and_eq_true, decide_eq_true_eq] at hdims
        simp only [List.length_cons, Nat.add_right_cancel_iff, List.zip_cons_cons, List.all_cons,
          Bool.and_eq_true, decide_eq_true_eq] at h ih ⊢
        obtain ⟨hlen, hall⟩ := ih ⟨h.1, h.2.2⟩ hdims.2
        exact ⟨hlen, Nat.lt_of_lt_of_le h.2.1 hdims.1, hall⟩

/-- A selection stays inside an extent that grows. -/
theorem inside_grown {s space space' : Dataspace} {size : List Nat} {maxDims : List (Option Nat)}
    (hgrow : growExtent space size maxDims = some space') (h : s.inside space.extent) :
    s.inside space'.extent := by
  unfold growExtent at hgrow
  split at hgrow
  · rename_i dims hextent
    split at hgrow
    · rename_i hsize
      cases hgrow
      have hdims : dimsWithin dims size := by
        rw [dimsWithin, Bool.and_eq_true, decide_eq_true_eq]
        exact ⟨hsize.1.symm, hsize.2.1⟩
      rw [hextent] at h
      unfold Dataspace.inside at h ⊢
      cases hsel : s.sel with
      | none => rfl
      | all =>
        rw [hsel] at h
        cases hs : s.extent with
        | null => rfl
        | scalar =>
          rw [hs] at h
          cases h
        | simple d =>
          rw [hs] at h
          exact dimsWithin_trans h hdims
      | points coords =>
        rw [hsel] at h
        simp only [List.all_eq_true] at h ⊢
        exact fun c hc => by simpa using pointIn_within (by simpa using h c hc) hdims
      | hyperslab blocks =>
        rw [hsel] at h
        simp only [List.all_eq_true, decide_eq_true_eq] at h ⊢
        exact fun b hb => boxIn_within (h b hb) hdims
    · cases hgrow
  · rename_i hextent
    cases hgrow
    cases he : space.extent with
    | simple dims => exact absurd he (hextent dims)
    | scalar =>
      rw [he] at h
      exact h
    | null =>
      -- only what selects nothing lies inside the null extent
      rw [he] at h
      unfold Dataspace.inside at h ⊢
      cases hsel : s.sel with
      | none => rfl
      | all =>
        rw [hsel] at h
        cases hs : s.extent with
        | null => rfl
        | scalar => rfl
        | simple d =>
          rw [hs] at h
          cases h
      | points coords =>
        rw [hsel] at h
        cases h
      | hyperslab blocks =>
        rw [hsel] at h
        cases h

/-! ## The pending buffer -/

/-- `p` is a proper ancestor of `q`. -/
def above (p q : Path) : Bool := (p ++ ['/']).isPrefixOf q

/-- One create and one attribute for each path, no dataset above another entry, and every write
after the create of its dataset and inside its extent. -/
structure Replayable (l : List Shape) : Prop where
  creates : l.Pairwise fun a b => a.kind = .dsetCreate → b.kind = .dsetCreate → a.path ≠ b.path
  attrs : l.Pairwise fun a b => a.kind = .attr → b.kind = .attr → a.path ≠ b.path
  nested : ∀ d ∈ l, d.kind = .dsetCreate → ∀ s ∈ l, above d.path s.path = false
  target : ∀ (i : Nat) (s : Shape), l[i]? = some s → s.kind = .dsetWrite → ∃ (j : Nat) (d : Shape),
    j < i ∧ l[j]? = some d ∧ d.kind = .dsetCreate ∧ d.path = s.path ∧ s.space.inside d.space.extent

def Core.shapes (fs : Core) : List Shape := fs.pending.map PendingEntry.shape

theorem above_irrefl (p : Path) : above p p = false := by
  unfold above
  rw [Bool.eq_false_iff]
  intro h
  have hlen := (List.isPrefixOf_iff_prefix.mp h).length_le
  simp only [List.length_append, List.length_singleton] at hlen
  omega

/-- Nothing pending of kind `kind` has this path, no pending dataset is above it, and if a
dataset is to be made there nothing pending is beneath it. -/
structure Fits (l : List Shape) (kind : Kind) (path : Path) : Prop where
  free : kind = .dsetCreate ∨ kind = .attr → ∀ s ∈ l, s.kind = kind → s.path ≠ path
  under : ∀ d ∈ l, d.kind = .dsetCreate → above d.path path = false
  beneath : kind = .dsetCreate → ∀ s ∈ l, above path s.path = false

instance (l : List Shape) (kind : Kind) (path : Path) : Decidable (Fits l kind path) :=
  decidable_of_iff ((kind = .dsetCreate ∨ kind = .attr → ∀ s ∈ l, s.kind = kind → s.path ≠ path)
      ∧ (∀ d ∈ l, d.kind = .dsetCreate → above d.path path = false)
      ∧ (kind = .dsetCreate → ∀ s ∈ l, above path s.path = false))
    ⟨fun ⟨hfree, hunder, hover⟩ => ⟨hfree, hunder, hover⟩, fun ⟨hfree, hunder, hover⟩ => ⟨hfree, hunder, hover⟩⟩

theorem getElem?_append_singleton {α : Type} {l : List α} {a b : α} {i : Nat} (h : (l ++ [a])[i]? = some b) :
    l[i]? = some b ∨ (i = l.length ∧ b = a) := by
  rw [List.getElem?_append] at h
  split at h
  · exact .inl h
  · rename_i hge
    rw [List.getElem?_singleton] at h
    split at h
    · rename_i hzero
      refine .inr ⟨by omega, ?_⟩
      cases h
      rfl
    · cases h

/-- An entry that fits, with its target if it is a write, keeps the buffer replayable. -/
theorem Replayable.append {l : List Shape} (h : Replayable l) {s : Shape} (hfits : Fits l s.kind s.path)
    (htarget : s.kind = .dsetWrite → ∃ d ∈ l, d.kind = .dsetCreate ∧ d.path = s.path
      ∧ s.space.inside d.space.extent) : Replayable (l ++ [s]) := by
  have hpair : ∀ kind, kind = .dsetCreate ∨ kind = .attr →
      (l.Pairwise fun a b => a.kind = kind → b.kind = kind → a.path ≠ b.path) →
      (l ++ [s]).Pairwise fun a b => a.kind = kind → b.kind = kind → a.path ≠ b.path := by
    intro kind hkind hl
    rw [List.pairwise_append]
    refine ⟨hl, List.pairwise_singleton _ _, fun a ha b hb hak hbk => ?_⟩
    rw [List.mem_singleton.mp hb] at hbk ⊢
    exact hfits.free (hbk ▸ hkind) a ha (hak.trans hbk.symm)
  refine ⟨hpair _ (.inl rfl) h.creates, hpair _ (.inr rfl) h.attrs, fun d hd hdk t ht => ?_, fun i t hi htk => ?_⟩
  · rcases List.mem_append.mp hd with hd | hd
    · rcases List.mem_append.mp ht with ht | ht
      · exact h.nested d hd hdk t ht
      · rw [List.mem_singleton.mp ht]
        exact hfits.under d hd hdk
    · rw [List.mem_singleton.mp hd] at hdk ⊢
      rcases List.mem_append.mp ht with ht | ht
      · exact hfits.beneath hdk t ht
      · rw [List.mem_singleton.mp ht]
        exact above_irrefl _
  · rcases getElem?_append_singleton hi with hi | ⟨rfl, rfl⟩
    · obtain ⟨j, d, hj, hd, hdk, hpath, hinside⟩ := h.target i t hi htk
      obtain ⟨hlt, -⟩ := List.getElem?_eq_some_iff.mp hd
      exact ⟨j, d, hj, by rw [List.getElem?_append_left hlt, hd], hdk, hpath, hinside⟩
    · obtain ⟨d, hd, hdk, hpath, hinside⟩ := htarget htk
      obtain ⟨j, hj, hget⟩ := List.getElem_of_mem hd
      exact ⟨j, d, hj, by rw [List.getElem?_append_left hj, List.getElem?_eq_getElem hj, hget], hdk, hpath, hinside⟩

/-- A write fits where its create is. -/
theorem Replayable.append_write {l : List Shape} (h : Replayable l) {path : Path} {space : Dataspace}
    {d : Shape} (hd : d ∈ l) (hdk : d.kind = .dsetCreate) (hpath : d.path = path)
    (hinside : space.inside d.space.extent) : Replayable (l ++ [⟨.dsetWrite, path, space⟩]) := by
  refine h.append ⟨fun hk => ?_, fun d' hd' hdk' => ?_, fun hk => ?_⟩ (fun _ => ⟨d, hd, hdk, hpath, hinside⟩)
  · rcases hk with hk | hk <;> cases hk
  · show above d'.path path = false
    rw [← hpath]
    exact h.nested d' hd' hdk' d hd
  · cases hk

/-- A create whose extent grows keeps the buffer replayable. -/
theorem Replayable.grow {l : List Shape} (h : Replayable l) {i : Nat} {d d' : Shape} (hi : l[i]? = some d)
    (hdk : d.kind = .dsetCreate) (hkind : d'.kind = d.kind) (hpath : d'.path = d.path)
    (hgrow : ∀ s : Dataspace, s.inside d.space.extent → s.inside d'.space.extent) : Replayable (l.set i d') := by
  -- every entry of the new buffer is an entry of the old one, but for the extent of this create
  have hold : ∀ j s, (l.set i d')[j]? = some s →
      ∃ t, l[j]? = some t ∧ s.kind = t.kind ∧ s.path = t.path ∧ (j ≠ i → s = t) ∧ (j = i → s = d') := by
    intro j s hj
    rw [List.getElem?_set] at hj
    split at hj
    · rename_i hij
      subst hij
      split at hj
      · cases hj
        exact ⟨d, hi, hkind, hpath, fun hne => absurd rfl hne, fun _ => rfl⟩
      · cases hj
    · rename_i hij
      exact ⟨s, hj, rfl, rfl, fun _ => rfl, fun hji => absurd hji.symm hij⟩
  have hmem : ∀ s ∈ l.set i d', ∃ t ∈ l, s.kind = t.kind ∧ s.path = t.path := by
    intro s hs
    obtain ⟨j, hj⟩ := List.getElem?_of_mem hs
    obtain ⟨t, ht, hk, hp, -⟩ := hold j s hj
    exact ⟨t, List.mem_of_getElem? ht, hk, hp⟩
  have hpair : ∀ kind : Kind, (l.Pairwise fun a b => a.kind = kind → b.kind = kind → a.path ≠ b.path) →
      (l.set i d').Pairwise fun a b => a.kind = kind → b.kind = kind → a.path ≠ b.path := by
    intro kind hl
    rw [List.pairwise_iff_getElem] at hl ⊢
    intro j k hj hk hjk hjkind hkkind
    obtain ⟨t, ht, htk, htp, -⟩ := hold j _ (List.getElem?_eq_getElem hj)
    obtain ⟨u, hu, huk, hup, -⟩ := hold k _ (List.getElem?_eq_getElem hk)
    obtain ⟨hj', ht'⟩ := List.getElem?_eq_some_iff.mp ht
    obtain ⟨hk', hu'⟩ := List.getElem?_eq_some_iff.mp hu
    rw [htp, hup, ← ht', ← hu']
    exact hl j k hj' hk' hjk (by rw [ht', ← htk]; exact hjkind) (by rw [hu', ← huk]; exact hkkind)
  refine ⟨hpair _ h.creates, hpair _ h.attrs, fun a ha hak s hs => ?_, fun j s hj hsk => ?_⟩
  · obtain ⟨a', ha', hak', hap⟩ := hmem a ha
    obtain ⟨s', hs', -, hsp⟩ := hmem s hs
    rw [hap, hsp]
    exact h.nested a' ha' (hak'.symm.trans hak) s' hs'
  · obtain ⟨t, ht, htk, htp, hsame, hnew⟩ := hold j s hj
    have hji : j ≠ i := by
      intro hji
      rw [hnew hji, hkind, hdk] at hsk
      cases hsk
    rw [← hsame hji] at ht
    obtain ⟨k, c, hkj, hc, hck, hcp, hinside⟩ := h.target j s ht hsk
    by_cases hki : k = i
    · subst hki
      rw [hi, Option.some.injEq] at hc
      subst hc
      obtain ⟨hlt, -⟩ := List.getElem?_eq_some_iff.mp hi
      refine ⟨k, d', hkj, ?_, hkind.trans hdk, hpath.trans hcp, hgrow _ hinside⟩
      rw [List.getElem?_set_self hlt]
    · exact ⟨k, c, hkj, by rw [List.getElem?_set_ne (Ne.symm hki), hc], hck, hcp, hinside⟩

/-! ## One operation -/

theorem shapes_pendingAppend {fs fs' : Core} {e : PendingEntry} (h : pendingAppend fs e = some fs') :
    fs'.shapes = fs.shapes ++ [e.shape] := by
  unfold pendingAppend at h
  simp only at h
  split at h
  · cases h
  · cases h
    exact List.map_append

theorem map_shape_set {pending : List PendingEntry} {i : Nat} {pe pe' : PendingEntry}
    (hi : pending[i]? = some pe) (hshape : pe'.shape = pe.shape) :
    (pending.set i pe').map PendingEntry.shape = pending.map PendingEntry.shape := by
  rw [List.map_set, hshape]
  refine List.ext_getElem? (fun j => ?_)
  rw [List.getElem?_set]
  split
  · rename_i hij
    subst hij
    obtain ⟨hlt, -⟩ := List.getElem?_eq_some_iff.mp hi
    rw [if_pos (by simpa using hlt), List.getElem?_map, hi]
    rfl
  · rfl

/-- The entry a live object's write belongs to is of its kind and path; if there was none, one
was appended. -/
theorem stepIndex_live {fs fs' : Core} {kind : Kind} {o : Wrapper} {under : Option ObjInfo} {idx : Nat}
    (hlive : o.state = .live) (h : stepIndex fs kind o under = some (fs', idx)) :
    (fs' = fs ∨ ((∀ s ∈ fs.shapes, s.kind = kind → s.path ≠ o.path)
        ∧ ∃ space, fs'.shapes = fs.shapes ++ [⟨kind, o.path, space⟩]))
      ∧ ∀ ce, fs'.pending[idx]? = some ce → ce.kind = kind ∧ ce.path = o.path := by
  unfold stepIndex liveIndex at h
  rw [hlive] at h
  simp only at h
  cases hfind : fs.pending.findIdx? fun pe => decide (pe.kind = kind ∧ pe.path = o.path) with
  | some k =>
    rw [hfind] at h
    cases h
    refine ⟨.inl rfl, fun ce hce => ?_⟩
    obtain ⟨hlt, hk, -⟩ := List.findIdx?_eq_some_iff_getElem.mp hfind
    rw [List.getElem?_eq_getElem hlt, Option.some.injEq] at hce
    rw [hce] at hk
    exact of_decide_eq_true hk
  | none =>
    rw [hfind] at h
    cases under with
    | none => cases h
    | some info =>
      simp only [Option.map_eq_some_iff] at h
      obtain ⟨g, hg, hpair⟩ := h
      cases hpair
      have hshapes := shapes_pendingAppend hg
      refine ⟨.inr ⟨fun s hs hk hp => ?_, _, hshapes⟩, fun ce hce => ?_⟩
      · obtain ⟨pe, hpe, rfl⟩ := List.mem_map.mp hs
        have hnot := List.findIdx?_eq_none_iff.mp hfind pe hpe
        exact of_decide_eq_false hnot ⟨hk, hp⟩
      · have hlast : (fs.shapes ++ [(⟨kind, o.path, info.type, o.resizeSpace.getD info.space, some info.dcpl,
            .bytes [], none⟩ : PendingEntry).shape])[fs.pending.length]? = some ce.shape := by
          rw [← hshapes, Core.shapes, List.getElem?_map, hce]
          rfl
        have hlen : fs.shapes.length = fs.pending.length := List.length_map _
        rw [← hlen, List.getElem?_concat_length, Option.some.injEq] at hlast
        exact ⟨congrArg Shape.kind hlast.symm, congrArg Shape.path hlast.symm⟩

/-- What one dataset of a captured write has to meet. The create made for a live dataset has
room; if the write is accepted, a placeholder's entry is the create of its own path, and the
selection is inside the extent of the create. -/
structure WriteFits (arg : WriteArg) (w : Writer) : Prop where
  made : ∀ o, w.wrappers arg.handle = some o → o.state = .live →
    (∀ s ∈ w.core.shapes, s.kind = .dsetCreate → s.path ≠ o.path) → Fits w.core.shapes .dsetCreate o.path
  owned : (captureWrite arg w).isOk → ∀ o idx ce, w.wrappers arg.handle = some o →
    o.state = .placeholder idx → w.core.pending[idx]? = some ce → ce.kind = .dsetCreate ∧ ce.path = o.path
  inside : (captureWrite arg w).isOk → ∀ o fs idx ce, w.wrappers arg.handle = some o →
    stepIndex w.core .dsetCreate o arg.under = some (fs, idx) → fs.pending[idx]? = some ce →
    (resolveSpace arg.fileSpace ce.space).inside ce.space.extent

theorem replayable_stepIndex {fs fs' : Core} {kind : Kind} {o : Wrapper} {under : Option ObjInfo} {idx : Nat}
    (h : Replayable fs.shapes) (hkind : kind ≠ .dsetWrite)
    (hidx : stepIndex fs kind o under = some (fs', idx))
    (hmade : o.state = .live → (∀ s ∈ fs.shapes, s.kind = kind → s.path ≠ o.path) →
      Fits fs.shapes kind o.path) : Replayable fs'.shapes := by
  cases hstate : o.state with
  | placeholder k =>
    rw [stepIndex, hstate] at hidx
    cases hidx
    exact h
  | live =>
    rcases (stepIndex_live hstate hidx).1 with rfl | ⟨hfree, space, hshapes⟩
    · exact h
    · rw [hshapes]
      exact h.append (hmade hstate hfree) (fun hwrite => absurd hwrite hkind)

theorem replayable_captureWrite {arg : WriteArg} {w : Writer} (h : Replayable w.core.shapes)
    (hfits : WriteFits arg w) : Replayable (captureWrite arg w).state.core.shapes := by
  rcases captureWrite_cases arg w with hres | ⟨o, fs, idx, ho, hidx, hres⟩ |
    ⟨o, fs, idx, ce, payload, fs', ho, hidx, hce, happend, hres⟩
  · rw [hres]
    exact h
  · rw [hres]
    exact replayable_stepIndex h (by decide) hidx (hfits.made o ho)
  · have hok : (captureWrite arg w).isOk := by rw [hres]; rfl
    rw [hres, Outcome.state_ok]
    show Replayable fs'.shapes
    rw [shapes_pendingAppend happend]
    have hcreate : ce.kind = .dsetCreate ∧ ce.path = o.path := by
      cases hstate : o.state with
      | placeholder k =>
        have hsame := hidx
        rw [stepIndex, hstate] at hsame
        cases hsame
        exact hfits.owned hok o idx ce ho hstate hce
      | live => exact (stepIndex_live hstate hidx).2 ce hce
    have hfs := replayable_stepIndex h (by decide) hidx (hfits.made o ho)
    exact hfs.append_write (List.mem_map_of_mem (List.mem_of_getElem? hce)) hcreate.1 hcreate.2
      (hfits.inside hok o fs idx ce ho hidx hce)

/-! ## Runs -/

-- each dataset of the write in the state it finds
def WritesFit : List WriteArg → Writer → Prop
  | [], _ => True
  | arg :: args, w => WriteFits arg w ∧ ∀ w', captureWrite arg w = .ok w' → WritesFit args w'

/-- What an operation has to meet for the pending buffer to stay replayable. -/
def CaptureFits (w : Writer) : Event → Prop
  | .datasetCreate h parent name type space dcpl =>
      (w.apply (.datasetCreate h parent name type space dcpl)).isOk →
        Fits w.core.shapes .dsetCreate (childPath parent name)
  | .attrCreate h parent name type space acpl =>
      (w.apply (.attrCreate h parent name type space acpl)).isOk →
        Fits w.core.shapes .attr (attrPath parent name)
  | .linkCreate path target hard =>
      (w.apply (.linkCreate path target hard)).isOk → Fits w.core.shapes .link path
  | .datasetWrite args =>
      (∀ arg ∈ args, ∃ o, w.wrappers arg.handle = some o ∧ dsetCapture w.core o) → WritesFit args w
  | .setExtent h _ _ _ => ∀ o idx ce, w.wrappers h = some o → o.state = .placeholder idx →
      w.core.pending[idx]? = some ce → ce.kind = .dsetCreate
  | .attrWrite h _ _ => ∀ o, w.wrappers h = some o → o.state = .live → w.core.stepState = .inStep →
      (∀ s ∈ w.core.shapes, s.kind = .attr → s.path ≠ o.path) → Fits w.core.shapes .attr o.path
  | _ => True

theorem replayable_nil : Replayable [] :=
  ⟨.nil, .nil, List.forall_mem_nil _, fun _ _ h => by simp at h⟩

theorem replayable_captureWrites {args : List WriteArg} {w : Writer} (h : Replayable w.core.shapes)
    (hfits : WritesFit args w) : Replayable (Outcome.runAll captureWrite args w).state.core.shapes := by
  induction args generalizing w with
  | nil => exact h
  | cons arg args ih =>
    have hone := replayable_captureWrite h hfits.1
    rw [Outcome.runAll_cons]
    cases hres : captureWrite arg w with
    | fail w' =>
      rw [hres] at hone
      exact hone
    | ok w' =>
      rw [hres] at hone
      exact ih hone (hfits.2 w' hres)

/-- The step lemma: an operation that fits keeps the buffer replayable. -/
theorem replayable_apply {w : Writer} {ev : Event} (h : Replayable w.core.shapes) (hfits : CaptureFits w ev) :
    Replayable (w.apply ev).state.core.shapes := by
  cases ev with
  | beginStep ids wall =>
    simp only [Writer.apply, beginWriterStep]
    split
    · exact h
    · exact h
  | datasetCreate k parent name type space dcpl =>
    rw [Writer.apply]
    rcases datasetCreate_cases w k parent name type space dcpl with hsame | ⟨-, fs, happend, hok⟩
    · rw [hsame]
      exact h
    · have hfit := hfits (by rw [Writer.apply, hok]; rfl)
      rw [hok]
      show Replayable fs.shapes
      rw [shapes_pendingAppend happend]
      exact h.append hfit (fun hk => by cases hk)
  | openLive k path isDataset =>
    simp only [Writer.apply]
    split
    · exact h
    · exact h
  | datasetWrite args =>
    simp only [Writer.apply, datasetWrite]
    split
    · rename_i hall
      refine replayable_captureWrites h (hfits fun arg harg => ?_)
      have hcaptured := List.length_filter_eq_length_iff.mp hall arg harg
      cases ho : w.wrappers arg.handle with
      | none =>
        rw [ho] at hcaptured
        cases hcaptured
      | some o =>
        rw [ho] at hcaptured
        exact ⟨o, rfl, hcaptured⟩
    · split
      · exact h
      · exact h
  | setExtent k size maxDims under =>
    rw [Writer.apply]
    rcases setExtent_cases w k size maxDims under with
      hsame | ⟨o, idx, ce, space, ho, hstate, hce, hgrow, hgrown⟩ | ⟨-, o, hopened⟩
    · rw [hsame]
      exact h
    · rw [hgrown]
      show Replayable ((w.core.pending.set idx { ce with space := space }).map PendingEntry.shape)
      rw [List.map_set]
      have hshape : w.core.shapes[idx]? = some ce.shape := by
        rw [Core.shapes, List.getElem?_map, hce]
        rfl
      exact h.grow hshape (hfits o idx ce ho hstate hce) rfl rfl (fun s hs => inside_grown hgrow hs)
    · rw [hopened]
      exact h
  | attrCreate k parent name type space acpl =>
    rw [Writer.apply]
    rcases attrCreate_cases w k parent name type space acpl with hsame | ⟨-, fs, happend, hok⟩
    · rw [hsame]
      exact h
    · have hfit := hfits (by rw [Writer.apply, hok]; rfl)
      rw [hok]
      show Replayable fs.shapes
      rw [shapes_pendingAppend happend]
      exact h.append hfit (fun hk => by cases hk)
  | attrWrite k value under =>
    rw [Writer.apply]
    rcases attrWrite_ends w k value under with hsame | ⟨o, fs, idx, ho, hcapture, hidx, hend⟩
    · rw [hsame]
      exact h
    · have hfs : Replayable fs.shapes := by
        refine replayable_stepIndex h (by decide) hidx (fun hlive hfree => hfits o ho hlive ?_ hfree)
        unfold dsetCapture at hcapture
        rw [hlive] at hcapture
        exact of_decide_eq_true hcapture
      rcases hend with hfound | ⟨e, payload, bytes, he, hput⟩
      · rw [hfound]
        exact hfs
      · rw [hput]
        show Replayable ((fs.pending.set idx { e with payload := payload }).map PendingEntry.shape)
        rw [map_shape_set he (show PendingEntry.shape { e with payload := payload } = e.shape from rfl)]
        exact hfs
  | linkCreate path target hard =>
    rw [Writer.apply]
    rcases captureLink_cases w path target hard with hsame | ⟨-, fs, happend, hok⟩
    · rw [hsame]
      exact h
    · have hfit := hfits (by rw [Writer.apply, hok]; rfl)
      rw [hok]
      show Replayable fs.shapes
      rw [shapes_pendingAppend happend]
      exact h.append hfit (fun hk => by cases hk)
  | noteGroupAttr path =>
    simp only [Writer.apply, noteGroupAttr, Outcome.state_ok]
    split
    · exact h
    · exact h
  | closeHandle k =>
    rw [Writer.apply, Outcome.state_ok]
    rcases closeHandle_cases w k with hsame | ⟨pending, hclosed, hpending⟩
    · rw [hsame]
      exact h
    · rw [hclosed]
      rcases hpending with rfl | ⟨idx, pe, hpe, rfl⟩
      · exact h
      · show Replayable ((w.core.pending.set idx { pe with owner := none }).map PendingEntry.shape)
        rw [map_shape_set hpe (show PendingEntry.shape { pe with owner := none } = pe.shape from rfl)]
        exact h
  | setQueuePolicy policy reserve => exact h
  | endStep env =>
    simp only [Writer.apply, endStep]
    split
    · exact h
    · split
      · exact replayable_nil
      · exact replayable_nil
  | fileClose =>
    simp only [Writer.apply, fileClose, Outcome.state_ok]
    split
    · exact replayable_nil
    · exact h

/-! ## What replay meets

`done` are the entries replayed before this one. -/

/-- The name is taken, or lies beneath a dataset, or (for a dataset) is a group already. -/
def nameClash (done : List (Nat × Entry)) (e : Entry) : Bool :=
  match e.kind with
  | .dsetCreate => done.any fun d => d.2.kind = .dsetCreate ∧
      (d.2.path = e.path ∨ above d.2.path e.path ∨ above e.path d.2.path)
  | .attr => done.any fun d => (d.2.kind = .attr ∧ d.2.path = e.path)
      ∨ (d.2.kind = .dsetCreate ∧ above d.2.path e.path)
  | _ => false

def missingTarget (entries : List Entry) (ie : Nat × Entry) : Bool :=
  decide (ie.2.kind = .dsetWrite) && !createdBefore entries ie.1 ie.2.path

def outOfExtent (done : List (Nat × Entry)) (e : Entry) : Bool :=
  decide (e.kind = .dsetWrite) && done.any fun d =>
    d.2.kind = .dsetCreate ∧ d.2.path = e.path ∧ e.space.inside d.2.space.extent = false

/-- No entry of the manifest meets a name clash, a missing target or a selection out of the
extent when its turn comes. -/
def StructurallySound (m : Step) : Prop :=
  ∀ done ie rest, replayOrder m.entries = done ++ ie :: rest →
    nameClash done ie.2 = false ∧ missingTarget m.entries ie = false ∧ outOfExtent done ie.2 = false

theorem nodup_replayOrder (entries : List Entry) : ((replayOrder entries).map Prod.fst).Nodup := by
  have hfst := (perm_zipIdx_replayOrder entries).map Prod.fst
  rw [List.map_map, show (Prod.fst ∘ fun (x : Entry × Nat) => (x.2, x.1)) = Prod.snd from rfl,
    List.zipIdx_map_snd] at hfst
  exact hfst.nodup_iff.mpr (List.nodup_range' 1)

/-- Two entries of one kind replayed one before the other have different paths. -/
theorem path_ne_of_pairwise {entries : List Entry} {kind : Kind}
    (h : (entries.map Entry.shape).Pairwise fun a b => a.kind = kind → b.kind = kind → a.path ≠ b.path)
    {i j : Nat} {a b : Entry} (hi : entries[i]? = some a) (hj : entries[j]? = some b) (hij : i ≠ j)
    (ha : a.kind = kind) (hb : b.kind = kind) : a.path ≠ b.path := by
  rw [List.pairwise_map, List.pairwise_iff_getElem] at h
  obtain ⟨hilt, hia⟩ := List.getElem?_eq_some_iff.mp hi
  obtain ⟨hjlt, hjb⟩ := List.getElem?_eq_some_iff.mp hj
  rcases Nat.lt_or_gt_of_ne hij with hlt | hlt
  · have := h i j hilt hjlt hlt
    rw [hia, hjb] at this
    exact this ha hb
  · have := h j i hjlt hilt hlt
    rw [hia, hjb] at this
    exact (this hb ha).symm

theorem Replayable.sound {m : Step} (h : Replayable (m.entries.map Entry.shape)) : StructurallySound m := by
  intro done ie rest hsplit
  have hie : m.entries[ie.1]? = some ie.2 := getElem?_of_mem_replayOrder (by rw [hsplit]; simp)
  have hdone : ∀ d ∈ done, m.entries[d.1]? = some d.2 ∧ d.1 ≠ ie.1 := by
    intro d hd
    refine ⟨getElem?_of_mem_replayOrder (by rw [hsplit]; simp [hd]), fun heq => ?_⟩
    have hnodup := nodup_replayOrder m.entries
    rw [hsplit, List.map_append, List.nodup_append] at hnodup
    exact hnodup.2.2 d.1 (List.mem_map_of_mem hd) ie.1 (by simp) heq
  have hnested : ∀ {i j : Nat} {d e : Entry}, m.entries[i]? = some d → d.kind = .dsetCreate →
      m.entries[j]? = some e → above d.path e.path ≠ true := by
    intro i j d e hd hdk he
    have := h.nested d.shape (List.mem_map_of_mem (List.mem_of_getElem? hd)) hdk e.shape
      (List.mem_map_of_mem (List.mem_of_getElem? he))
    exact ne_true_of_eq_false this
  have htarget : ie.2.kind = .dsetWrite → ∃ (j : Nat) (d : Entry), j < ie.1 ∧ m.entries[j]? = some d
      ∧ d.kind = .dsetCreate ∧ d.path = ie.2.path ∧ ie.2.space.inside d.space.extent := by
    intro hk
    obtain ⟨j, s, hj, hs, hsk, hpath, hinside⟩ :=
      h.target ie.1 ie.2.shape (by rw [List.getElem?_map, hie]; rfl) hk
    rw [List.getElem?_map, Option.map_eq_some_iff] at hs
    obtain ⟨d, hd, rfl⟩ := hs
    exact ⟨j, d, hj, hd, hsk, hpath, hinside⟩
  refine ⟨?_, ?_, ?_⟩
  · unfold nameClash
    cases hk : ie.2.kind with
    | dsetCreate =>
      refine List.any_eq_false.mpr (fun d hd => ?_)
      obtain ⟨hd', hne⟩ := hdone d hd
      rw [decide_eq_true_eq]
      rintro ⟨hdk, hpath | habove | habove⟩
      · exact path_ne_of_pairwise h.creates hd' hie hne hdk hk hpath
      · exact hnested hd' hdk hie habove
      · exact hnested hie hk hd' habove
    | attr =>
      refine List.any_eq_false.mpr (fun d hd => ?_)
      obtain ⟨hd', hne⟩ := hdone d hd
      rw [decide_eq_true_eq]
      rintro (⟨hdk, hpath⟩ | ⟨hdk, habove⟩)
      · exact path_ne_of_pairwise h.attrs hd' hie hne hdk hk hpath
      · exact hnested hd' hdk hie habove
    | dsetWrite => rfl
    | group => rfl
    | link => rfl
  · unfold missingTarget
    by_cases hk : ie.2.kind = .dsetWrite
    · obtain ⟨j, d, hj, hd, hdk, hpath, -⟩ := htarget hk
      have hcreated : createdBefore m.entries ie.1 ie.2.path = true := by
        refine List.any_eq_true.mpr ⟨d, ?_, by simp [hdk, hpath]⟩
        exact List.mem_of_getElem? (by rw [List.getElem?_take_of_lt hj]; exact hd)
      rw [hcreated]
      simp
    · simp [hk]
  · unfold outOfExtent
    by_cases hk : ie.2.kind = .dsetWrite
    · obtain ⟨j, d, hj, hd, hdk, hpath, hinside⟩ := htarget hk
      rw [Bool.and_eq_false_iff]
      refine .inr (List.any_eq_false.mpr (fun d' hd' => ?_))
      obtain ⟨hget, -⟩ := hdone d' hd'
      rw [decide_eq_true_eq]
      rintro ⟨hdk', hpath', hout⟩
      -- the create replayed before is the one the write was captured into
      have hsame : d'.1 = j := by
        by_contra hne
        exact path_ne_of_pairwise h.creates hget hd hne hdk' hdk (hpath'.trans hpath.symm)
      rw [hsame, hd, Option.some.injEq] at hget
      rw [← hget, hinside] at hout
      cases hout
    · simp [hk]

/-! ## Accepted captures -/

/-- No dataset of the step is above a group attribute that waits or a link that is known. -/
def FoldFits (fs : Core) : Prop :=
  ∀ d ∈ fs.shapes, d.kind = .dsetCreate → ∀ path, path ∈ fs.groupAttrs ∨ path ∈ fs.links.keys →
    above d.path path = false

/-- What folding keeps: a replayable buffer whose creates are those of `fs`. -/
structure FoldedFrom (fs fs' : Core) : Prop where
  replayable : Replayable fs'.shapes
  creates : ∀ d ∈ fs'.shapes, d.kind = .dsetCreate → d ∈ fs.shapes

theorem FoldedFrom.append {fs fs' : Core} (h : FoldedFrom fs fs') {e : PendingEntry}
    (hfits : Fits fs'.shapes e.kind e.path) (hkind : e.kind = .attr ∨ e.kind = .link) :
    FoldedFrom fs ((pendingAppend fs' e).getD fs') := by
  cases happend : pendingAppend fs' e with
  | none => exact h
  | some fs'' =>
    have hshapes := shapes_pendingAppend happend
    refine ⟨?_, fun d hd hdk => ?_⟩
    · rw [Option.getD_some, hshapes]
      refine h.replayable.append hfits (fun hwrite => ?_)
      rw [show e.kind = .dsetWrite from hwrite] at hkind
      rcases hkind with hkind | hkind <;> cases hkind
    · rw [Option.getD_some, hshapes] at hd
      rcases List.mem_append.mp hd with hd | hd
      · exact h.creates d hd hdk
      · rw [List.mem_singleton.mp hd] at hdk
        rw [show e.kind = .dsetCreate from hdk] at hkind
        rcases hkind with hkind | hkind <;> cases hkind

theorem FoldedFrom.foldl {α : Type} {fs : Core} {f : Core → α → Core} {l : List α}
    (hf : ∀ a ∈ l, ∀ fs', FoldedFrom fs fs' → FoldedFrom fs (f fs' a)) {fs' : Core} (h : FoldedFrom fs fs') :
    FoldedFrom fs (l.foldl f fs') := by
  induction l generalizing fs' with
  | nil => exact h
  | cons a l ih =>
    exact ih (fun b hb => hf b (List.mem_cons_of_mem _ hb)) (hf a List.mem_cons_self fs' h)

theorem replayable_folded {fs : Core} (h : Replayable fs.shapes) (hfits : FoldFits fs) (env : EndEnv) :
    Replayable (fs.folded env).shapes := by
  have hunder : ∀ fs', FoldedFrom fs fs' → ∀ path, path ∈ fs.groupAttrs ∨ path ∈ fs.links.keys →
      ∀ d ∈ fs'.shapes, d.kind = .dsetCreate → above d.path path = false :=
    fun fs' hfs' path hpath d hd hdk => hfits d (hfs'.creates d hd hdk) hdk path hpath
  have hattrs : FoldedFrom fs (fs.groupAttrs.foldl (foldGroupAttr env.groupAttr) fs) := by
    refine FoldedFrom.foldl (fun path hpath fs' hfs' => ?_) ⟨h, fun d hd _ => hd⟩
    unfold foldGroupAttr
    split
    · exact hfs'
    · rename_i hnone
      split
      · exact hfs'
      · split
        · exact hfs'
        · refine hfs'.append ⟨fun _ s hs hk hp => hnone ?_, hunder fs' hfs' path (.inl hpath), fun hk => by cases hk⟩
            (.inl rfl)
          obtain ⟨pe, hpe, rfl⟩ := List.mem_map.mp hs
          exact List.any_eq_true.mpr ⟨pe, hpe, decide_eq_true ⟨hk, hp⟩⟩
  have hlinks : (foldGroupAttrs env.groupAttr fs).links = fs.links := by
    obtain ⟨p, b, heq⟩ := Core.SameButPending.foldl (sameButPending_foldGroupAttr env.groupAttr) fs.groupAttrs fs
    rw [foldGroupAttrs, heq]
  have hfolded : FoldedFrom fs (foldLinks (foldGroupAttrs env.groupAttr fs)) := by
    unfold foldLinks
    rw [hlinks]
    refine FoldedFrom.foldl (fun link hlink fs' hfs' => ?_) ⟨hattrs.replayable, hattrs.creates⟩
    unfold foldLink
    simp only
    split
    · refine hfs'.append ⟨fun hk => ?_, ?_, fun hk => by cases hk⟩ (.inr rfl)
      · rcases hk with hk | hk <;> cases hk
      · exact hunder fs' hfs' link.1 (.inr (List.mem_map_of_mem hlink))
    · exact hfs'
  exact hfolded.replayable

def twoCreatesRun : List Event := [.beginStep [] 0, createByte 1 ['a'], createByte 2 ['a']]

theorem writeFits_of_placeholder {arg : WriteArg} {w : Writer} {o : Wrapper} {idx : Nat} {ce : PendingEntry}
    (ho : w.wrappers arg.handle = some o) (hstate : o.state = .placeholder idx)
    (hce : w.core.pending[idx]? = some ce) (hkind : ce.kind = .dsetCreate) (hpath : ce.path = o.path)
    (hinside : (resolveSpace arg.fileSpace ce.space).inside ce.space.extent) : WriteFits arg w := by
  refine ⟨fun o' ho' hlive => ?_, fun _ o' idx' ce' ho' hstate' hce' => ?_, fun _ o' fs idx' ce' ho' hidx' hce' => ?_⟩
  · rw [ho, Option.some.injEq] at ho'
    rw [← ho', hstate] at hlive
    cases hlive
  · rw [ho, Option.some.injEq] at ho'
    rw [← ho', hstate, ObjState.placeholder.injEq] at hstate'
    rw [← hstate', hce, Option.some.injEq] at hce'
    rw [← hce', ← ho']
    exact ⟨hkind, hpath⟩
  · rw [ho, Option.some.injEq] at ho'
    rw [← ho', stepIndex, hstate] at hidx'
    cases hidx'
    rw [hce, Option.some.injEq] at hce'
    rw [← hce']
    exact hinside

-- two elements written, the dataset grown, and two more written behind them
def growingRun : List Event :=
  let part (start stop : Nat) : WriteArg :=
    ⟨1, nativeUchar, none, some ⟨.simple [stop + 1], .hyperslab [⟨[start], [stop]⟩]⟩, [[1], [2]], none, none⟩
  [.beginStep [] 0, .datasetCreate 1 [] ['a'] nativeUchar ⟨.simple [2], .all⟩ [],
    .datasetWrite [{ part 0 1 with memSpace := some ⟨.simple [2], .all⟩ }],
    .setExtent 1 [4] [none] none,
    .datasetWrite [{ part 2 3 with memSpace := some ⟨.simple [2], .all⟩ }],
    .attrCreate 2 ['/', 'a'] ['u'] nativeUchar ⟨.scalar, .all⟩ [], .attrWrite 2 (some [7]) none]

end VolStream
