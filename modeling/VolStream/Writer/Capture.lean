import VolStream.Writer.Commit

/-!
# Capturing operations into the open step, and runs of a writer

While a step is open, creates, writes, resizes and links do not reach the file: they become
pending entries (`H5VL__stream_dataset_create_impl`, `H5VL__stream_dataset_write_impl`,
`H5VL__stream_dataset_specific_impl`, `H5VL__stream_attr_create_impl`,
`H5VL__stream_attr_write_impl`, `H5VL__stream_capture_link`). `Event` is what an application can
do with a writer, and `run` a sequence of such events.
-/

namespace VolStream

/-! ## Paths -/

/-- `H5VL__stream_child_path`. -/
def childPath (parent name : Path) : Path := parent ++ '/' :: name.dropWhile (· = '/')

/-- `H5VL__stream_attr_path`. -/
def attrPath (parent name : Path) : Path := parent ++ '@' :: name

/-! ## Datasets -/

/-- What the under connector answers for a live object's type, dataspace and creation
properties. -/
structure ObjInfo where
  type : Datatype
  space : Dataspace
  dcpl : Bytes
deriving DecidableEq, Repr

-- a fresh wrapper for handle `h`
def Writer.open (w : Writer) (h : Handle) (o : Wrapper) : Writer :=
  { w with wrappers := Function.update w.wrappers h (some o) }

/-- `H5Dcreate2` in an open step. -/
def datasetCreate (w : Writer) (h : Handle) (parent name : Path) (type : Datatype)
    (space : Dataspace) (dcpl : Bytes) : Outcome Writer :=
  let path := childPath parent name
  if w.core.stepState ≠ .inStep ∨ w.wrappers h ≠ none then .fail w
  else match pendingAppend w.core ⟨.dsetCreate, path, type, space, some dcpl, .bytes [], some h⟩ with
    | none => .fail w
    | some fs => .ok ({ w with core := fs }.open h
        ⟨path, .placeholder w.core.pending.length, true, none⟩)

/-- `H5VL__stream_dset_capture`. -/
def dsetCapture (fs : Core) (o : Wrapper) : Bool :=
  match o.state with
  | .placeholder _ => true
  | .live => fs.stepState = .inStep

/-- The pending entry of this kind a live object of the step already has, or a synthesized
one. -/
def liveIndex (fs : Core) (kind : Kind) (o : Wrapper) (under : Option ObjInfo) : Option (Core × Nat) :=
  match fs.pending.findIdx? fun pe => pe.kind = kind ∧ pe.path = o.path with
  | some k => some (fs, k)
  | none =>
      match under with
      | none => none
      | some info =>
          (pendingAppend fs ⟨kind, o.path, info.type, o.resizeSpace.getD info.space, some info.dcpl,
            .bytes [], none⟩).map (·, fs.pending.length)

/-- `H5VL__stream_step_create_index` (`kind = dsetCreate`) and `H5VL__stream_step_attr_index`
(`kind = attr`): the pending entry a write belongs to. An attribute is never resized, so its
`resizeSpace` is unset. -/
def stepIndex (fs : Core) (kind : Kind) (o : Wrapper) (under : Option ObjInfo) : Option (Core × Nat) :=
  match o.state with
  | .placeholder idx => some (fs, idx)
  | .live => liveIndex fs kind o under

/-- `H5VL__stream_resolve_space`; `none` is `H5S_ALL`. -/
def resolveSpace (space : Option Dataspace) (fallback : Dataspace) : Dataspace := space.getD fallback

/-- One dataset of an `H5Dwrite_multi`. `buf` is the caller's buffer element by element,
`vlBytes` what `H5VL__stream_vl_serialize` makes of it, `under` the live object's answers. -/
structure WriteArg where
  handle : Handle
  memType : Datatype
  memSpace : Option Dataspace
  fileSpace : Option Dataspace
  buf : List Bytes
  vlBytes : Option Bytes
  under : Option ObjInfo
deriving DecidableEq, Repr

/-- The payload captured for a write of `nElem` elements, a count that is an `hssize_t`. -/
def capturePayload (arg : WriteArg) (memSpace : Dataspace) (nElem : Nat) : Option Payload :=
  if 2 ^ 63 ≤ nElem then none
  else if nElem = 0 then some (.bytes [])
  else if arg.memType.vlKind ≠ .none then
    if memSelIsPacked (some memSpace) nElem then arg.vlBytes.map .bytes else none
  else (gatherMem arg.buf (some memSpace) nElem).map fun elems => .bytes elems.flatten

/-- Capture one write. A refusal keeps a create synthesized for it. -/
def captureWrite (arg : WriteArg) (w : Writer) : Outcome Writer :=
  match w.wrappers arg.handle with
  | none => .fail w
  | some o =>
      match stepIndex w.core .dsetCreate o arg.under with
      | none => .fail w
      | some (fs, idx) =>
          let w := { w with core := fs }
          match fs.pending[idx]? with
          | none => .fail w
          | some ce =>
              let fspace := resolveSpace arg.fileSpace ce.space
              let mspace := resolveSpace arg.memSpace fspace
              if arg.memType.unsafeToCapture then .fail w
              else match capturePayload arg mspace fspace.npoints with
                | none => .fail w
                | some payload =>
                    match pendingAppend fs
                        ⟨.dsetWrite, o.path, arg.memType, fspace, none, payload, none⟩ with
                    | none => .fail w
                    | some fs => .ok { w with core := fs }

/-- `H5Dwrite`/`H5Dwrite_multi`: all captured, or all passed through, or refused. -/
def datasetWrite (args : List WriteArg) (w : Writer) : Outcome Writer :=
  let captured := args.filter fun arg => ((w.wrappers arg.handle).map (dsetCapture w.core)).getD false
  if captured.length = args.length then Outcome.runAll captureWrite args w
  else if captured = [] then .ok w
  else .fail w

/-- Growing a pending create's extent: no dimension shrinks or exceeds its maximum. An extent
without dimensions becomes the scalar one. -/
def growExtent (space : Dataspace) (size : List Nat) (maxDims : List (Option Nat)) : Option Dataspace :=
  match space.extent with
  | .simple dims =>
      if size.length = dims.length ∧ (dims.zip size).all (fun p => decide (p.1 ≤ p.2)) ∧
          (size.zip maxDims).all (fun p => p.2.all fun m => decide (p.1 ≤ m))
      then some { space with extent := .simple size } else none
  | _ => some { space with extent := .scalar }

/-- `H5Dset_extent`. On a placeholder the pending create grows; on a live dataset captured into
the step only this handle learns the new extent; otherwise it passes through. -/
def setExtent (w : Writer) (h : Handle) (size : List Nat) (maxDims : List (Option Nat))
    (under : Option Dataspace) : Outcome Writer :=
  match w.wrappers h with
  | none => .fail w
  | some o =>
      match o.state with
      | .placeholder idx =>
          match w.core.pending[idx]? with
          | none => .fail w
          | some ce =>
              match growExtent ce.space size maxDims with
              | none => .fail w
              | some space => .ok { w with core := { w.core with
                  pending := w.core.pending.set idx { ce with space := space } } }
      | .live =>
          if w.core.stepState ≠ .inStep then .ok w
          else match o.resizeSpace.or under with
            | none => .fail w
            | some cur => .ok (w.open h { o with resizeSpace := some { cur with extent := .simple size } })

/-! ## Attributes and links -/

/-- `H5Acreate2` in an open step. -/
def attrCreate (w : Writer) (h : Handle) (parent name : Path) (type : Datatype) (space : Dataspace)
    (acpl : Bytes) : Outcome Writer :=
  let path := attrPath parent name
  if w.core.stepState ≠ .inStep ∨ w.wrappers h ≠ none then .fail w
  else match pendingAppend w.core ⟨.attr, path, type, space, some acpl, .bytes [], some h⟩ with
    | none => .fail w
    | some fs => .ok ({ w with core := fs }.open h
        ⟨path, .placeholder w.core.pending.length, false, none⟩)

/-- `H5Awrite`: the value replaces the entry's payload in place, without a limit check. `value`
is the caller's buffer serialized or converted to the attribute's type; the old payload is gone
before that can fail. -/
def attrWrite (w : Writer) (h : Handle) (value : Option Bytes) (under : Option ObjInfo) :
    Outcome Writer :=
  match w.wrappers h with
  | none => .fail w
  | some o =>
      if !dsetCapture w.core o then .ok w
      else match stepIndex w.core .attr o under with
        | none => .fail w
        | some (fs, idx) =>
            match fs.pending[idx]? with
            | none => .fail { w with core := fs }
            | some e =>
                if e.type.unsafeToCapture then .fail { w with core := fs }
                else match value with
                  | none => .fail { w with core := { fs with
                      pending := fs.pending.set idx { e with payload := .bytes [] }
                      pendingBytes := fs.pendingBytes - e.payload.len } }
                  | some b => .ok { w with core := { fs with
                      pending := fs.pending.set idx { e with payload := .bytes b }
                      pendingBytes := fs.pendingBytes - e.payload.len + b.length } }

/-- `H5VL__stream_capture_link`. -/
def captureLink (w : Writer) (path target : Path) (hard : Bool) : Outcome Writer :=
  if w.core.stepState ≠ .inStep then .ok w
  else match pendingLink w.core path target hard with
    | none => .fail w
    | some fs => .ok { w with core := fs }

/-- `H5VL__stream_note_group_attr`: a group attribute made outside a step is folded into the
next one. -/
def noteGroupAttr (w : Writer) (path : Path) : Writer :=
  if w.core.stepState = .inStep ∨ path ∈ w.core.groupAttrs then w
  else { w with core := { w.core with groupAttrs := w.core.groupAttrs ++ [path] } }

/-! ## Handles and files -/

/-- `H5Dclose`/`H5Aclose`: a placeholder lets go of its pending entry. -/
def closeHandle (w : Writer) (h : Handle) : Writer :=
  match w.wrappers h with
  | none => w
  | some o =>
      let pending := match o.state with
        | .live => w.core.pending
        | .placeholder idx =>
            match w.core.pending[idx]? with
            | none => w.core.pending
            | some pe => if pe.owner = some h then w.core.pending.set idx { pe with owner := none }
                else w.core.pending
      { w with
        core := { w.core with pending := pending }
        wrappers := Function.update w.wrappers h none }

/-- `H5Fbegin_step`. -/
def beginWriterStep (w : Writer) (logicalIds : List Nat) (wallTimeNs : Nat) : Outcome Writer :=
  if w.core.stepState ≠ .notInStep then .fail w
  else .ok { w with core := { w.core with
    logicalIds := logicalIds, wallTimeNs := wallTimeNs, stepState := .inStep } }

/-- `H5Fclose`: a step left open is discarded. -/
def fileClose (w : Writer) : Writer :=
  if w.core.stepState = .inStep ∨ w.core.stepState = .committing then
    { w with core := { w.core.discardPending with stepState := .notInStep } }
  else w

/-! ## Runs -/

/-- What an application does with a writer. -/
inductive Event where
  | beginStep (logicalIds : List Nat) (wallTimeNs : Nat)
  | datasetCreate (h : Handle) (parent name : Path) (type : Datatype) (space : Dataspace) (dcpl : Bytes)
  | openLive (h : Handle) (path : Path) (isDataset : Bool)
  | datasetWrite (args : List WriteArg)
  | setExtent (h : Handle) (size : List Nat) (maxDims : List (Option Nat)) (under : Option Dataspace)
  | attrCreate (h : Handle) (parent name : Path) (type : Datatype) (space : Dataspace) (acpl : Bytes)
  | attrWrite (h : Handle) (value : Option Bytes) (under : Option ObjInfo)
  | linkCreate (path target : Path) (hard : Bool)
  | noteGroupAttr (path : Path)
  | closeHandle (h : Handle)
  | setQueuePolicy (policy : QueuePolicy) (reserveSlots : Nat)
  | endStep (env : EndEnv)
  | fileClose

/-- One event: the state it leaves, and whether the call succeeded. -/
def Writer.apply (w : Writer) : Event → Outcome Writer
  | .beginStep ids wall => beginWriterStep w ids wall
  | .datasetCreate h parent name type space dcpl =>
      VolStream.datasetCreate w h parent name type space dcpl
  | .openLive h path isDataset =>
      if w.wrappers h = none then .ok (w.open h ⟨path, .live, isDataset, none⟩) else .fail w
  | .datasetWrite args => VolStream.datasetWrite args w
  | .setExtent h size maxDims under => VolStream.setExtent w h size maxDims under
  | .attrCreate h parent name type space acpl => VolStream.attrCreate w h parent name type space acpl
  | .attrWrite h value under => VolStream.attrWrite w h value under
  | .linkCreate path target hard => captureLink w path target hard
  | .noteGroupAttr path => .ok (VolStream.noteGroupAttr w path)
  | .closeHandle h => .ok (VolStream.closeHandle w h)
  | .setQueuePolicy policy reserve =>
      .ok { w with core := { w.core with queuePolicy := some policy, reserveSlots := reserve } }
  | .endStep env => VolStream.endStep env w
  | .fileClose => .ok (VolStream.fileClose w)

/-- The state after a sequence of events, whatever their outcomes. -/
def Writer.run (w : Writer) (events : List Event) : Writer :=
  events.foldl (fun w ev => (w.apply ev).state) w

@[simp] theorem Writer.run_nil (w : Writer) : w.run [] = w := rfl

@[simp] theorem Writer.run_cons (w : Writer) (ev : Event) (events : List Event) :
    w.run (ev :: events) = (w.apply ev).state.run events := rfl

theorem Writer.run_append (w : Writer) (l l' : List Event) : w.run (l ++ l') = (w.run l).run l' := by
  simp [Writer.run]

/-- Every event of the run meets a condition on the state it finds. -/
def Writer.Meets (ok : Writer → Event → Prop) : Writer → List Event → Prop
  | _, [] => True
  | w, ev :: events => ok w ev ∧ Writer.Meets ok (w.apply ev).state events

/-- The invariant rule for runs: what every admissible event keeps holds after a run of them. -/
theorem Writer.run_keeps {P : Writer → Prop} {ok : Writer → Event → Prop}
    (hstep : ∀ w ev, P w → ok w ev → P (w.apply ev).state) {w : Writer} {events : List Event}
    (hw : P w) (hok : w.Meets ok events) : P (w.run events) := by
  induction events generalizing w with
  | nil => exact hw
  | cons ev events ih => exact ih (hstep w ev hw hok.1) hok.2

/-! ## What each call can do

One lemma a call, with everything it can leave behind; what runs keep is read off these. -/

theorem datasetCreate_cases (w : Writer) (h : Handle) (parent name : Path) (type : Datatype) (space : Dataspace)
    (dcpl : Bytes) :
    (datasetCreate w h parent name type space dcpl).state = w ∨
      w.core.stepState = .inStep ∧ ∃ fs,
        pendingAppend w.core ⟨.dsetCreate, childPath parent name, type, space, some dcpl, .bytes [], some h⟩ = some fs ∧
        datasetCreate w h parent name type space dcpl = .ok ({ w with core := fs }.open h
          ⟨childPath parent name, .placeholder w.core.pending.length, true, none⟩) := by
  unfold datasetCreate
  simp only
  split
  · exact .inl rfl
  · rename_i hopen
    rw [not_or, not_not] at hopen
    split
    · exact .inl rfl
    · rename_i fs happend
      exact .inr ⟨hopen.1, fs, happend, rfl⟩

theorem attrCreate_cases (w : Writer) (h : Handle) (parent name : Path) (type : Datatype) (space : Dataspace)
    (acpl : Bytes) :
    (attrCreate w h parent name type space acpl).state = w ∨
      w.core.stepState = .inStep ∧ ∃ fs,
        pendingAppend w.core ⟨.attr, attrPath parent name, type, space, some acpl, .bytes [], some h⟩ = some fs ∧
        attrCreate w h parent name type space acpl = .ok ({ w with core := fs }.open h
          ⟨attrPath parent name, .placeholder w.core.pending.length, false, none⟩) := by
  unfold attrCreate
  simp only
  split
  · exact .inl rfl
  · rename_i hopen
    rw [not_or, not_not] at hopen
    split
    · exact .inl rfl
    · rename_i fs happend
      exact .inr ⟨hopen.1, fs, happend, rfl⟩

theorem captureLink_cases (w : Writer) (path target : Path) (hard : Bool) :
    (captureLink w path target hard).state = w ∨
      w.core.stepState = .inStep ∧ ∃ fs, pendingLink w.core path target hard = some fs ∧
        captureLink w path target hard = .ok { w with core := fs } := by
  unfold captureLink
  split
  · exact .inl rfl
  · rename_i hstep
    split
    · exact .inl rfl
    · rename_i fs hlink
      exact .inr ⟨not_not.1 hstep, fs, hlink, rfl⟩

/-- What the capture of one write can do: refuse it, at most with a create made for it, or append
an entry that selects what the caller said, or all of the create. -/
theorem captureWrite_cases (arg : WriteArg) (w : Writer) :
    captureWrite arg w = .fail w
      ∨ (∃ o fs idx, w.wrappers arg.handle = some o
          ∧ stepIndex w.core .dsetCreate o arg.under = some (fs, idx)
          ∧ captureWrite arg w = .fail { w with core := fs })
      ∨ ∃ o fs idx ce payload fs', w.wrappers arg.handle = some o
          ∧ stepIndex w.core .dsetCreate o arg.under = some (fs, idx) ∧ fs.pending[idx]? = some ce
          ∧ pendingAppend fs ⟨.dsetWrite, o.path, arg.memType, resolveSpace arg.fileSpace ce.space, none,
              payload, none⟩ = some fs'
          ∧ captureWrite arg w = .ok { w with core := fs' } := by
  unfold captureWrite
  cases hw : w.wrappers arg.handle with
  | none => exact .inl rfl
  | some o =>
    simp only
    cases hidx : stepIndex w.core .dsetCreate o arg.under with
    | none => exact .inl rfl
    | some p =>
      obtain ⟨fs, idx⟩ := p
      right
      simp only
      cases hce : fs.pending[idx]? with
      | none => exact .inl ⟨o, fs, idx, rfl, hidx, rfl⟩
      | some ce =>
        simp only
        split
        · exact .inl ⟨o, fs, idx, rfl, hidx, rfl⟩
        · split
          · exact .inl ⟨o, fs, idx, rfl, hidx, rfl⟩
          · rename_i payload _
            cases happend : pendingAppend fs ⟨.dsetWrite, o.path, arg.memType,
                resolveSpace arg.fileSpace ce.space, none, payload, none⟩ with
            | none => exact .inl ⟨o, fs, idx, rfl, hidx, rfl⟩
            | some fs' => exact .inr ⟨o, fs, idx, ce, payload, fs', rfl, hidx, hce, happend, rfl⟩

theorem setExtent_cases (w : Writer) (h : Handle) (size : List Nat) (maxDims : List (Option Nat))
    (under : Option Dataspace) :
    (setExtent w h size maxDims under).state = w ∨
      (∃ o idx ce space, w.wrappers h = some o ∧ o.state = .placeholder idx ∧ w.core.pending[idx]? = some ce ∧
        growExtent ce.space size maxDims = some space ∧
        setExtent w h size maxDims under = .ok { w with core := { w.core with
          pending := w.core.pending.set idx { ce with space := space } } }) ∨
      w.core.stepState = .inStep ∧ ∃ o, setExtent w h size maxDims under = .ok (w.open h o) := by
  unfold setExtent
  split
  · exact .inl rfl
  · rename_i o ho
    split
    · rename_i idx hstate
      split
      · exact .inl rfl
      · rename_i ce hce
        split
        · exact .inl rfl
        · rename_i space hgrow
          exact .inr (.inl ⟨o, idx, ce, space, ho, hstate, hce, hgrow, rfl⟩)
    · split
      · exact .inl rfl
      · rename_i hstep
        split
        · exact .inl rfl
        · exact .inr (.inr ⟨not_not.1 hstep, _, rfl⟩)

/-- A captured `H5Awrite` has found or made its entry, and then put a payload in it or given up. -/
theorem attrWrite_ends (w : Writer) (h : Handle) (value : Option Bytes) (under : Option ObjInfo) :
    (attrWrite w h value under).state = w ∨
      ∃ o fs idx, w.wrappers h = some o ∧ dsetCapture w.core o = true ∧
        stepIndex w.core .attr o under = some (fs, idx) ∧
        ((attrWrite w h value under).state = { w with core := fs } ∨
          ∃ e payload bytes, fs.pending[idx]? = some e ∧
            (attrWrite w h value under).state = { w with core := { fs with
              pending := fs.pending.set idx { e with payload := payload }, pendingBytes := bytes } }) := by
  unfold attrWrite
  split
  · exact .inl rfl
  · rename_i o ho
    split
    · exact .inl rfl
    · rename_i hcapture
      rw [Bool.not_eq_true, Bool.not_eq_false'] at hcapture
      split
      · exact .inl rfl
      · rename_i fs idx hidx
        refine .inr ⟨o, fs, idx, ho, hcapture, hidx, ?_⟩
        split
        · exact .inl rfl
        · rename_i e he
          split
          · exact .inl rfl
          · split
            · exact .inr ⟨e, _, _, he, rfl⟩
            · exact .inr ⟨e, _, _, he, rfl⟩

theorem closeHandle_cases (w : Writer) (h : Handle) :
    closeHandle w h = w ∨ ∃ pending,
      closeHandle w h = { w with
        core := { w.core with pending := pending }
        wrappers := Function.update w.wrappers h none } ∧
      (pending = w.core.pending ∨ ∃ idx pe, w.core.pending[idx]? = some pe ∧
        pending = w.core.pending.set idx { pe with owner := none }) := by
  unfold closeHandle
  split
  · exact .inl rfl
  · refine .inr ⟨_, rfl, ?_⟩
    split
    · exact .inl rfl
    · split
      · exact .inl rfl
      · rename_i pe hpe
        split
        · exact .inr ⟨_, pe, hpe, rfl⟩
        · exact .inl rfl

/-! ## What capture leaves alone

Capturing works on the pending buffer and the handles. Nothing but `H5Fend_step` touches the
tables a commit maintains. -/

/-- The events an open step captures, with opening and closing handles. -/
def Event.capture : Event → Bool
  | .datasetCreate .. => true
  | .openLive .. => true
  | .datasetWrite .. => true
  | .setExtent .. => true
  | .attrCreate .. => true
  | .attrWrite .. => true
  | .linkCreate .. => true
  | .closeHandle .. => true
  | _ => false

/-- `w'` differs from `w` in the pending buffer and the handles only. -/
structure Writer.Captured (w w' : Writer) : Prop where
  core : w.core.SameButPending w'.core
  lookups : w'.lookups = w.lookups

theorem Writer.Captured.refl (w : Writer) : w.Captured w := ⟨.refl _, rfl⟩

theorem Writer.Captured.trans {a b c : Writer} (hab : a.Captured b) (hbc : b.Captured c) : a.Captured c :=
  ⟨hab.core.trans hbc.core, hbc.lookups.trans hab.lookups⟩

theorem sameButPending_stepIndex {fs fs' : Core} {kind : Kind} {o : Wrapper} {under : Option ObjInfo}
    {idx : Nat} (h : stepIndex fs kind o under = some (fs', idx)) : fs.SameButPending fs' := by
  unfold stepIndex at h
  split at h
  · cases h
    exact .refl fs
  · unfold liveIndex at h
    split at h
    · cases h
      exact .refl fs
    · split at h
      · cases h
      · rw [Option.map_eq_some_iff] at h
        obtain ⟨g, hg, hpair⟩ := h
        cases hpair
        exact sameButPending_pendingAppend hg

theorem captured_captureWrite (arg : WriteArg) (w : Writer) :
    w.Captured (captureWrite arg w).state := by
  rcases captureWrite_cases arg w with
    hfail | ⟨o, fs, idx, -, hidx, hfail⟩ | ⟨o, fs, idx, ce, payload, fs', -, hidx, -, happend, hok⟩
  · rw [hfail]
    exact .refl w
  · rw [hfail]
    exact ⟨sameButPending_stepIndex hidx, rfl⟩
  · rw [hok]
    exact ⟨(sameButPending_stepIndex hidx).trans (sameButPending_pendingAppend happend), rfl⟩

theorem captured_datasetWrite (args : List WriteArg) (w : Writer) :
    w.Captured (datasetWrite args w).state := by
  unfold datasetWrite
  simp only
  split
  · exact Outcome.state_runAll (P := fun w' => w.Captured w')
      (fun arg _ w' hw' => hw'.trans (captured_captureWrite arg w')) (.refl w)
  · split
    · exact .refl w
    · exact .refl w

theorem captured_attrWrite (w : Writer) (h : Handle) (value : Option Bytes) (under : Option ObjInfo) :
    w.Captured (attrWrite w h value under).state := by
  rcases attrWrite_ends w h value under with hsame | ⟨o, fs, idx, -, -, hidx, hend⟩
  · rw [hsame]
    exact .refl w
  · have hfs := sameButPending_stepIndex hidx
    rcases hend with hfound | ⟨e, payload, bytes, -, hput⟩
    · rw [hfound]
      exact ⟨hfs, rfl⟩
    · rw [hput]
      exact ⟨hfs.trans ⟨_, _, rfl⟩, rfl⟩

theorem captured_setExtent (w : Writer) (h : Handle) (size : List Nat) (maxDims : List (Option Nat))
    (under : Option Dataspace) : w.Captured (setExtent w h size maxDims under).state := by
  rcases setExtent_cases w h size maxDims under with hsame | ⟨o, idx, ce, space, -, -, -, -, hgrown⟩ | ⟨-, o, hopened⟩
  · rw [hsame]
    exact .refl w
  · rw [hgrown]
    exact ⟨⟨_, _, rfl⟩, rfl⟩
  · rw [hopened]
    exact ⟨.refl _, rfl⟩

theorem captured_apply (w : Writer) {ev : Event} (hev : ev.capture) : w.Captured (w.apply ev).state := by
  cases ev with
  | datasetCreate h parent name type space dcpl =>
    rw [Writer.apply]
    rcases datasetCreate_cases w h parent name type space dcpl with hsame | ⟨-, fs, happend, hok⟩
    · rw [hsame]
      exact .refl w
    · rw [hok]
      exact ⟨sameButPending_pendingAppend happend, rfl⟩
  | openLive h path isDataset =>
    simp only [Writer.apply]
    split
    · exact ⟨.refl _, rfl⟩
    · exact .refl w
  | datasetWrite args => exact captured_datasetWrite args w
  | setExtent h size maxDims under => exact captured_setExtent w h size maxDims under
  | attrCreate h parent name type space acpl =>
    rw [Writer.apply]
    rcases attrCreate_cases w h parent name type space acpl with hsame | ⟨-, fs, happend, hok⟩
    · rw [hsame]
      exact .refl w
    · rw [hok]
      exact ⟨sameButPending_pendingAppend happend, rfl⟩
  | attrWrite h value under => exact captured_attrWrite w h value under
  | linkCreate path target hard =>
    rw [Writer.apply]
    rcases captureLink_cases w path target hard with hsame | ⟨-, fs, happend, hok⟩
    · rw [hsame]
      exact .refl w
    · rw [hok]
      exact ⟨sameButPending_pendingAppend happend, rfl⟩
  | closeHandle h =>
    rw [Writer.apply, Outcome.state_ok]
    rcases closeHandle_cases w h with hsame | ⟨pending, hclosed, -⟩
    · rw [hsame]
      exact .refl w
    · rw [hclosed]
      exact ⟨⟨pending, w.core.pendingBytes, rfl⟩, rfl⟩
  | beginStep ids wall => cases hev
  | noteGroupAttr path => cases hev
  | setQueuePolicy policy reserve => cases hev
  | endStep env => cases hev
  | fileClose => cases hev

/-- The commit state with everything but the commit tables blanked out. -/
def Core.committed (fs : Core) : Core :=
  { fs with
    stepState := .notInStep, logicalIds := [], wallTimeNs := 0, pending := [], pendingBytes := 0
    queuePolicy := none, reserveSlots := 0, groupAttrs := [] }

/-- Every event but `H5Fend_step` leaves the commit tables and the lookup history. -/
theorem committed_apply (w : Writer) {ev : Event} (hev : ∀ env, ev ≠ .endStep env) :
    (w.apply ev).state.core.committed = w.core.committed ∧ (w.apply ev).state.lookups = w.lookups := by
  cases hcap : ev.capture with
  | true =>
    obtain ⟨⟨pending, bytes, hcore⟩, hlookups⟩ := captured_apply w hcap
    refine ⟨?_, hlookups⟩
    rw [hcore]
    rfl
  | false =>
    cases ev with
    | beginStep ids wall =>
      simp only [Writer.apply, beginWriterStep]
      split
      · exact ⟨rfl, rfl⟩
      · exact ⟨rfl, rfl⟩
    | noteGroupAttr path =>
      simp only [Writer.apply, noteGroupAttr, Outcome.state_ok]
      split
      · exact ⟨rfl, rfl⟩
      · exact ⟨rfl, rfl⟩
    | setQueuePolicy policy reserve => exact ⟨rfl, rfl⟩
    | endStep env => exact absurd rfl (hev env)
    | fileClose =>
      simp only [Writer.apply, fileClose, Outcome.state_ok]
      split
      · exact ⟨rfl, rfl⟩
      · exact ⟨rfl, rfl⟩
    | datasetCreate => cases hcap
    | openLive => cases hcap
    | datasetWrite => cases hcap
    | setExtent => cases hcap
    | attrCreate => cases hcap
    | attrWrite => cases hcap
    | linkCreate => cases hcap
    | closeHandle => cases hcap

/-! ## Small runs

What the concrete runs of the later modules are made of: scalar one-byte datasets. -/

def Config.plain : Config := ⟨false, false, false, 0⟩

def createByte (h : Handle) (name : Path) : Event :=
  .datasetCreate h [] name nativeUchar ⟨.scalar, .all⟩ []

def writeByte (h : Handle) : Event := .datasetWrite [⟨h, nativeUchar, none, none, [[7]], none, none⟩]

-- `H5Dcreate` fails while entry `i` is replayed
def EndEnv.createFails (i : Nat) : EndEnv :=
  { EndEnv.quiet with replay := { ReplayEnv.quiet with fails := fun j c => j = i ∧ c = .create } }

end VolStream
