import VolStream.Writer.Disposal

/-!
# The pending-byte limit

`pending_bytes` is kept by three routines: `H5VL__stream_pending_append` charges an entry and refuses it
over the limit, `H5Awrite` replaces a payload in place, and `H5VL__stream_pending_discard_all` starts again
from 0. The total is always the sum of the payload lengths. It stays within the limit as long as every
`H5Awrite` does by itself: that path charges its payload without asking.
-/

namespace VolStream

/-! ## The check of `H5VL__stream_pending_append` -/

/-- The refusal as the code decides it, on `size_t` words: the subtraction wraps. -/
def refusesCapture (limit len bytes : UInt64) : Bool :=
  decide (0 < limit) && decide (0 < len) && (decide (limit < len) || decide (limit - len < bytes))

-- the length test stands before the subtraction that it makes safe
theorem refusesCapture_iff (limit len bytes : UInt64) :
    refusesCapture limit len bytes = true ↔
      0 < limit.toNat ∧ 0 < len.toNat ∧ limit.toNat < bytes.toNat + len.toNat := by
  simp only [refusesCapture, Bool.and_eq_true, Bool.or_eq_true, decide_eq_true_eq, UInt64.lt_iff_toNat_lt,
    UInt64.toNat_zero]
  by_cases hlen : len.toNat ≤ limit.toNat
  · rw [UInt64.toNat_sub_of_le _ _ (UInt64.le_iff_toNat_le.mpr hlen)]
    omega
  · omega

/-- One more payload of `len` bytes is over the limit. -/
def Core.OverLimit (fs : Core) (len : Nat) : Prop :=
  0 < fs.config.maxPending ∧ 0 < len ∧ fs.config.maxPending < fs.pendingBytes + len

instance (fs : Core) (len : Nat) : Decidable (fs.OverLimit len) := inferInstanceAs (Decidable (_ ∧ _ ∧ _))

/-- The buffer with one more entry. -/
def Core.push (fs : Core) (e : PendingEntry) : Core :=
  { fs with pending := fs.pending ++ [e], pendingBytes := fs.pendingBytes + e.payload.len }

theorem pendingAppend_eq (fs : Core) (e : PendingEntry) :
    pendingAppend fs e = if fs.OverLimit e.payload.len then none else some (fs.push e) := by
  have hover : fs.OverLimit e.payload.len ↔ 0 < fs.config.maxPending ∧ 0 < e.payload.len ∧
      (e.payload.len > fs.config.maxPending ∨ fs.pendingBytes > fs.config.maxPending - e.payload.len) := by
    unfold Core.OverLimit
    omega
  unfold pendingAppend
  simp only [hover]
  rfl

theorem pendingAppend_eq_none_iff (fs : Core) (e : PendingEntry) :
    pendingAppend fs e = none ↔ fs.OverLimit e.payload.len := by
  rw [pendingAppend_eq]
  by_cases h : fs.OverLimit e.payload.len
  · simp [h]
  · simp [h]

theorem pendingAppend_eq_some {fs fs' : Core} {e : PendingEntry} (h : pendingAppend fs e = some fs') :
    fs' = fs.push e ∧ ¬ fs.OverLimit e.payload.len := by
  rw [pendingAppend_eq] at h
  split at h
  · cases h
  · rename_i hover
    cases h
    exact ⟨rfl, hover⟩

/-! ## The total and the limit -/

def payloadSum (pending : List PendingEntry) : Nat := (pending.map (·.payload.len)).sum

@[simp] theorem payloadSum_nil : payloadSum [] = 0 := rfl

@[simp] theorem payloadSum_cons (e : PendingEntry) (l : List PendingEntry) :
    payloadSum (e :: l) = e.payload.len + payloadSum l := by
  simp [payloadSum]

theorem payloadSum_append (l l' : List PendingEntry) : payloadSum (l ++ l') = payloadSum l + payloadSum l' := by
  simp [payloadSum]

/-- Replacing an entry exchanges its length for the new one's. -/
theorem payloadSum_set {l : List PendingEntry} {i : Nat} {e : PendingEntry} (h : l[i]? = some e)
    (e' : PendingEntry) : payloadSum (l.set i e') + e.payload.len = payloadSum l + e'.payload.len := by
  induction l generalizing i with
  | nil => simp at h
  | cons a l ih =>
    cases i with
    | zero =>
      rw [List.getElem?_cons_zero, Option.some.injEq] at h
      subst h
      rw [List.set_cons_zero, payloadSum_cons, payloadSum_cons]
      omega
    | succ i =>
      rw [List.getElem?_cons_succ] at h
      have hset := ih h
      rw [List.set_cons_succ, payloadSum_cons, payloadSum_cons]
      omega

theorem len_le_payloadSum {l : List PendingEntry} {i : Nat} {e : PendingEntry} (h : l[i]? = some e) :
    e.payload.len ≤ payloadSum l := by
  have hset := payloadSum_set h { e with payload := .bytes [] }
  have hempty : ({ e with payload := .bytes [] } : PendingEntry).payload.len = 0 := rfl
  omega

/-- `pending_bytes` is what the entries hold. -/
def Core.Accounted (fs : Core) : Prop := fs.pendingBytes = payloadSum fs.pending

/-- A configured limit is not exceeded. -/
def Core.Within (fs : Core) : Prop := 0 < fs.config.maxPending → fs.pendingBytes ≤ fs.config.maxPending

instance (fs : Core) : Decidable fs.Within := inferInstanceAs (Decidable (_ → _))

/-- What keeps the books on the way from `fs` to `fs'`: a true total stays true, and one within the limit
stays within it. -/
structure Core.KeepsBooks (fs fs' : Core) : Prop where
  accounted : fs.Accounted → fs'.Accounted
  within : fs.Within → fs'.Within

namespace Core.KeepsBooks

theorem refl (fs : Core) : fs.KeepsBooks fs := ⟨id, id⟩

theorem trans {a b c : Core} (hab : a.KeepsBooks b) (hbc : b.KeepsBooks c) : a.KeepsBooks c :=
  ⟨hbc.accounted ∘ hab.accounted, hbc.within ∘ hab.within⟩

/-- Nothing is captured. -/
theorem of_same {fs fs' : Core} (hpending : fs'.pending = fs.pending) (hbytes : fs'.pendingBytes = fs.pendingBytes)
    (hconfig : fs'.config = fs.config) : fs.KeepsBooks fs' := by
  constructor
  · intro h
    rw [Core.Accounted, hpending, hbytes]
    exact h
  · intro h
    rw [Core.Within, hbytes, hconfig]
    exact h

/-- The buffer starts again. -/
theorem of_empty {fs fs' : Core} (hpending : fs'.pending = []) (hbytes : fs'.pendingBytes = 0) :
    fs.KeepsBooks fs' := by
  constructor
  · intro _
    rw [Core.Accounted, hpending, hbytes]
    rfl
  · intro _ _
    omega

/-- An entry is replaced by one with the same payload. -/
theorem of_set {fs : Core} {i : Nat} {e e' : PendingEntry} (h : fs.pending[i]? = some e)
    (hsame : e'.payload = e.payload) : fs.KeepsBooks { fs with pending := fs.pending.set i e' } := by
  constructor
  · intro hsum
    have hset := payloadSum_set h e'
    rw [hsame] at hset
    unfold Core.Accounted at hsum ⊢
    simp only
    omega
  · exact id

theorem foldl {α : Type} {f : Core → α → Core} (hf : ∀ (fs : Core) (a : α), fs.KeepsBooks (f fs a)) (l : List α) (fs : Core) :
    fs.KeepsBooks (l.foldl f fs) := by
  induction l generalizing fs with
  | nil => exact .refl fs
  | cons a l ih => exact (hf fs a).trans (ih (f fs a))

end Core.KeepsBooks

theorem keepsBooks_pendingAppend {fs fs' : Core} {e : PendingEntry} (h : pendingAppend fs e = some fs') :
    fs.KeepsBooks fs' := by
  obtain ⟨hfs, hover⟩ := pendingAppend_eq_some h
  subst hfs
  constructor
  · intro hsum
    unfold Core.Accounted at hsum ⊢
    show fs.pendingBytes + e.payload.len = payloadSum (fs.pending ++ [e])
    rw [payloadSum_append, payloadSum_cons, payloadSum_nil]
    omega
  · intro hwithin hlimit
    have hbound := hwithin hlimit
    unfold Core.OverLimit at hover
    change 0 < fs.config.maxPending at hlimit
    show fs.pendingBytes + e.payload.len ≤ fs.config.maxPending
    omega

theorem keepsBooks_appendOrKeep (fs : Core) (e : PendingEntry) :
    fs.KeepsBooks ((pendingAppend fs e).getD fs) := by
  cases h : pendingAppend fs e with
  | none => exact .refl fs
  | some fs' => exact keepsBooks_pendingAppend h

/-! ## Captures other than `H5Awrite` -/

theorem keepsBooks_stepIndex {fs fs' : Core} {kind : Kind} {o : Wrapper} {under : Option ObjInfo} {idx : Nat}
    (h : stepIndex fs kind o under = some (fs', idx)) : fs.KeepsBooks fs' := by
  unfold stepIndex at h
  split at h
  · cases h
    exact .refl fs
  · unfold liveIndex at h
    split at h
    · cases h
      exact .refl fs
    · split at h
      · cases h
      · rw [Option.map_eq_some_iff] at h
        obtain ⟨g, hg, hpair⟩ := h
        cases hpair
        exact keepsBooks_pendingAppend hg

theorem keepsBooks_captureWrite (arg : WriteArg) (w : Writer) :
    w.core.KeepsBooks (captureWrite arg w).state.core := by
  rcases captureWrite_cases arg w with
    hfail | ⟨o, fs, idx, -, hidx, hfail⟩ | ⟨o, fs, idx, ce, payload, fs', -, hidx, -, happend, hok⟩
  · rw [hfail]
    exact .refl w.core
  · rw [hfail]
    exact keepsBooks_stepIndex hidx
  · rw [hok]
    exact (keepsBooks_stepIndex hidx).trans (keepsBooks_pendingAppend happend)

theorem keepsBooks_datasetWrite (args : List WriteArg) (w : Writer) :
    w.core.KeepsBooks (datasetWrite args w).state.core := by
  unfold datasetWrite
  simp only
  split
  · exact Outcome.state_runAll (P := fun w' => w.core.KeepsBooks w'.core)
      (fun arg _ w' hw' => hw'.trans (keepsBooks_captureWrite arg w')) (.refl w.core)
  · split
    · exact .refl w.core
    · exact .refl w.core

theorem keepsBooks_setExtent (w : Writer) (h : Handle) (size : List Nat) (maxDims : List (Option Nat))
    (under : Option Dataspace) : w.core.KeepsBooks (setExtent w h size maxDims under).state.core := by
  rcases setExtent_cases w h size maxDims under with hsame | ⟨o, idx, ce, space, -, -, hce, -, hgrown⟩ | ⟨-, o, hopened⟩
  · rw [hsame]
    exact .refl w.core
  · rw [hgrown]
    exact .of_set hce rfl
  · rw [hopened]
    exact .refl w.core

theorem keepsBooks_closeHandle (w : Writer) (h : Handle) : w.core.KeepsBooks (closeHandle w h).core := by
  rcases closeHandle_cases w h with hsame | ⟨pending, hclosed, hpending⟩
  · rw [hsame]
    exact .refl w.core
  · rw [hclosed]
    rcases hpending with rfl | ⟨idx, pe, hpe, rfl⟩
    · exact .refl w.core
    · exact .of_set hpe rfl

theorem keepsBooks_folded (fs : Core) (env : EndEnv) : fs.KeepsBooks (fs.folded env) := by
  have hattrs : fs.KeepsBooks (foldGroupAttrs env.groupAttr fs) := by
    have hfold : fs.KeepsBooks (fs.groupAttrs.foldl (foldGroupAttr env.groupAttr) fs) := by
      apply Core.KeepsBooks.foldl
      intro g path
      unfold foldGroupAttr
      split
      · exact .refl g
      · split
        · exact .refl g
        · split
          · exact .refl g
          · exact keepsBooks_appendOrKeep g _
    exact hfold.trans (.of_same rfl rfl rfl)
  have hlinks : (foldGroupAttrs env.groupAttr fs).KeepsBooks (foldLinks (foldGroupAttrs env.groupAttr fs)) := by
    apply Core.KeepsBooks.foldl
    intro g link
    unfold foldLink
    simp only
    split
    · exact keepsBooks_appendOrKeep g _
    · exact .refl g
  exact (hattrs.trans hlinks).trans (.of_same rfl rfl rfl)

theorem keepsBooks_endStep (env : EndEnv) (w : Writer) : w.core.KeepsBooks (endStep env w).state.core := by
  cases h : endStep env w with
  | ok w' =>
    obtain ⟨-, st, -, hcore⟩ := endStep_ok h
    rw [Outcome.state_ok, hcore]
    exact .of_empty rfl rfl
  | fail w' =>
    rcases endStep_fail h with ⟨-, hsame⟩ | ⟨-, st, -, hcore⟩
    · rw [Outcome.state_fail, hsame]
      exact .refl w.core
    · rw [Outcome.state_fail, hcore]
      exact .of_empty rfl rfl

def Event.isAttrWrite : Event → Bool
  | .attrWrite .. => true
  | _ => false

/-- Everything but `H5Awrite` keeps the books. -/
theorem keepsBooks_apply (w : Writer) {ev : Event} (hev : ev.isAttrWrite = false) :
    w.core.KeepsBooks (w.apply ev).state.core := by
  cases ev with
  | attrWrite h value under => cases hev
  | beginStep ids wall =>
    simp only [Writer.apply, beginWriterStep]
    split
    · exact .refl w.core
    · exact .of_same rfl rfl rfl
  | datasetCreate h parent name type space dcpl =>
    rw [Writer.apply]
    rcases datasetCreate_cases w h parent name type space dcpl with hsame | ⟨-, fs, happend, hok⟩
    · rw [hsame]
      exact .refl w.core
    · rw [hok]
      exact keepsBooks_pendingAppend happend
  | openLive h path isDataset =>
    simp only [Writer.apply]
    split
    · exact .refl w.core
    · exact .refl w.core
  | datasetWrite args => exact keepsBooks_datasetWrite args w
  | setExtent h size maxDims under => exact keepsBooks_setExtent w h size maxDims under
  | attrCreate h parent name type space acpl =>
    rw [Writer.apply]
    rcases attrCreate_cases w h parent name type space acpl with hsame | ⟨-, fs, happend, hok⟩
    · rw [hsame]
      exact .refl w.core
    · rw [hok]
      exact keepsBooks_pendingAppend happend
  | linkCreate path target hard =>
    rw [Writer.apply]
    rcases captureLink_cases w path target hard with hsame | ⟨-, fs, happend, hok⟩
    · rw [hsame]
      exact .refl w.core
    · rw [hok]
      exact keepsBooks_pendingAppend happend
  | noteGroupAttr path =>
    simp only [Writer.apply, noteGroupAttr, Outcome.state_ok]
    split
    · exact .refl w.core
    · exact .of_same rfl rfl rfl
  | closeHandle h => exact keepsBooks_closeHandle w h
  | setQueuePolicy policy reserve => exact .of_same rfl rfl rfl
  | endStep env => exact keepsBooks_endStep env w
  | fileClose =>
    simp only [Writer.apply, fileClose, Outcome.state_ok]
    split
    · exact .of_empty rfl rfl
    · exact .refl w.core

/-! ## `H5Awrite` -/

/-- The entry already pending for an object: a placeholder's own, or the first of its kind at a live
object's path. -/
def pendingIndex (fs : Core) (kind : Kind) (o : Wrapper) : Option Nat :=
  match o.state with
  | .placeholder idx => some idx
  | .live => fs.pending.findIdx? fun pe => pe.kind = kind ∧ pe.path = o.path

/-- The entry made up for a live object from what the under connector answers. -/
def synthesized (kind : Kind) (o : Wrapper) (info : ObjInfo) : PendingEntry :=
  ⟨kind, o.path, info.type, o.resizeSpace.getD info.space, some info.dcpl, .bytes [], none⟩

/-- The entry a write belongs to, pending or made up. -/
def entryFor (fs : Core) (kind : Kind) (o : Wrapper) (under : Option ObjInfo) : Option PendingEntry :=
  match pendingIndex fs kind o with
  | some idx => fs.pending[idx]?
  | none => under.map (synthesized kind o)

/-- A made-up entry holds nothing yet, so the limit does not refuse it. -/
theorem stepIndex_eq (fs : Core) (kind : Kind) (o : Wrapper) (under : Option ObjInfo) :
    stepIndex fs kind o under = match pendingIndex fs kind o with
      | some idx => some (fs, idx)
      | none => under.map fun info => (fs.push (synthesized kind o info), fs.pending.length) := by
  unfold stepIndex pendingIndex
  cases o.state with
  | placeholder idx => rfl
  | live =>
    unfold liveIndex
    simp only
    cases fs.pending.findIdx? fun pe => pe.kind = kind ∧ pe.path = o.path with
    | some idx => rfl
    | none =>
      cases under with
      | none => rfl
      | some info =>
        have hempty : ¬ fs.OverLimit (synthesized kind o info).payload.len := fun h => absurd h.2.1 (Nat.lt_irrefl 0)
        show (pendingAppend fs (synthesized kind o info)).map (·, fs.pending.length) = _
        rw [pendingAppend_eq, if_neg hempty]
        rfl

/-- Where the entry of a write is, once there is one. -/
theorem stepIndex_entry {fs fs' : Core} {kind : Kind} {o : Wrapper} {under : Option ObjInfo} {idx : Nat}
    (h : stepIndex fs kind o under = some (fs', idx)) : fs'.pending[idx]? = entryFor fs kind o under ∧
      fs'.pendingBytes = fs.pendingBytes ∧ fs'.config = fs.config := by
  rw [stepIndex_eq] at h
  unfold entryFor
  cases hidx : pendingIndex fs kind o with
  | some k =>
    rw [hidx] at h
    cases h
    exact ⟨rfl, rfl, rfl⟩
  | none =>
    rw [hidx] at h
    simp only [Option.map_eq_some_iff] at h
    obtain ⟨info, hinfo, hpair⟩ := h
    cases hpair
    rw [hinfo]
    exact ⟨List.getElem?_concat_length, rfl, rfl⟩

theorem entryFor_of_stepIndex_none {fs : Core} {kind : Kind} {o : Wrapper} {under : Option ObjInfo}
    (h : stepIndex fs kind o under = none) : entryFor fs kind o under = none := by
  rw [stepIndex_eq] at h
  unfold entryFor
  cases hidx : pendingIndex fs kind o with
  | some k =>
    rw [hidx] at h
    cases h
  | none =>
    rw [hidx] at h
    cases under with
    | none => rfl
    | some info => cases h

/-- The entry and the value of an `H5Awrite` that is captured and not refused. -/
def attrAccepted (w : Writer) (h : Handle) (value : Option Bytes) (under : Option ObjInfo) :
    Option (PendingEntry × Bytes) := do
  let o ← w.wrappers h
  guard (dsetCapture w.core o)
  let e ← entryFor w.core .attr o under
  guard (!e.type.unsafeToCapture)
  let b ← value
  return (e, b)

/-- The condition `H5Awrite` leaves unchecked: the value it replaces a payload with fits what is left of the
limit. Nothing is asked of a write that is refused or not captured. -/
def AttrFits (w : Writer) : Event → Prop
  | .attrWrite h value under => ∀ e b, attrAccepted w h value under = some (e, b) →
      0 < w.core.config.maxPending → w.core.pendingBytes - e.payload.len + b.length ≤ w.core.config.maxPending
  | _ => True

/-- Replacing a payload in place, the total adjusted. -/
def Core.replacePayload (fs : Core) (idx : Nat) (e : PendingEntry) (b : Bytes) : Core :=
  { fs with
    pending := fs.pending.set idx { e with payload := .bytes b }
    pendingBytes := fs.pendingBytes - e.payload.len + b.length }

theorem Core.Accounted.replacePayload {fs : Core} {idx : Nat} {e : PendingEntry} (h : fs.Accounted)
    (he : fs.pending[idx]? = some e) (b : Bytes) : (fs.replacePayload idx e b).Accounted := by
  have hset := payloadSum_set he { e with payload := .bytes b }
  have hold := len_le_payloadSum he
  have hlen : ({ e with payload := .bytes b } : PendingEntry).payload.len = b.length := rfl
  unfold Core.Accounted at h ⊢
  show fs.pendingBytes - e.payload.len + b.length = payloadSum (fs.pending.set idx { e with payload := .bytes b })
  omega

/-- The ends of an `H5Awrite`: refused or passed through with the books kept, or the value put in place. -/
theorem attrWrite_cases (w : Writer) (h : Handle) (value : Option Bytes) (under : Option ObjInfo) :
    (attrAccepted w h value under = none ∧ w.core.KeepsBooks (attrWrite w h value under).state.core) ∨
      ∃ o fs idx e b, attrAccepted w h value under = some (e, b) ∧
        stepIndex w.core .attr o under = some (fs, idx) ∧ fs.pending[idx]? = some e ∧
        attrWrite w h value under = .ok { w with core := fs.replacePayload idx e b } := by
  unfold attrAccepted attrWrite
  cases w.wrappers h with
  | none => exact .inl ⟨rfl, .refl w.core⟩
  | some o =>
    cases hcap : dsetCapture w.core o with
    | false =>
      left
      simpa [hcap] using .refl w.core
    | true =>
      cases hidx : stepIndex w.core .attr o under with
      | none =>
        left
        simpa [hcap, hidx, entryFor_of_stepIndex_none hidx] using .refl w.core
      | some p =>
        obtain ⟨fs, idx⟩ := p
        have hbooks := keepsBooks_stepIndex hidx
        have hentry := (stepIndex_entry hidx).1
        cases he : fs.pending[idx]? with
        | none =>
          left
          simpa [hcap, hidx, ← hentry, he] using hbooks
        | some e =>
          cases hunsafe : e.type.unsafeToCapture with
          | true =>
            left
            simpa [hcap, hidx, ← hentry, he, hunsafe] using hbooks
          | false =>
            cases value with
            | none =>
              left
              -- the old value is gone, and its bytes with it
              have hfreed : fs.KeepsBooks (fs.replacePayload idx e []) :=
                ⟨fun hsum => hsum.replacePayload he [], fun hwithin hlimit =>
                  (Nat.sub_le fs.pendingBytes e.payload.len).trans (hwithin hlimit)⟩
              simpa [hcap, hidx, ← hentry, he, hunsafe, Core.replacePayload] using hbooks.trans hfreed
            | some b =>
              right
              refine ⟨o, fs, idx, e, b, ?_, hidx, he, ?_⟩
              · simp [hcap, ← hentry, he, hunsafe]
              · simp [hcap, hidx, he, hunsafe, Core.replacePayload]

/-- `H5Awrite` keeps the total, and the limit exactly when its value fits. -/
theorem attrWrite_books (w : Writer) (h : Handle) (value : Option Bytes) (under : Option ObjInfo) :
    (w.core.Accounted → (attrWrite w h value under).state.core.Accounted) ∧
      (w.core.Within →
        ((attrWrite w h value under).state.core.Within ↔ AttrFits w (.attrWrite h value under))) := by
  rcases attrWrite_cases w h value under with ⟨hnone, hbooks⟩ | ⟨o, fs, idx, e, b, haccepted, hidx, he, hres⟩
  · refine ⟨hbooks.accounted, fun hwithin => ⟨fun _ e b hsome => ?_, fun _ => hbooks.within hwithin⟩⟩
    rw [hnone] at hsome
    cases hsome
  · obtain ⟨-, hbytes, hconfig⟩ := stepIndex_entry hidx
    rw [hres, Outcome.state_ok]
    refine ⟨fun hsum => ((keepsBooks_stepIndex hidx).accounted hsum).replacePayload he b, fun _ => ?_⟩
    unfold Core.Within Core.replacePayload
    rw [AttrFits]
    simp only [hbytes, hconfig]
    constructor
    · intro hwithin e' b' hsome
      rw [haccepted] at hsome
      cases hsome
      exact hwithin
    · intro hfits
      exact hfits e b haccepted

/-! ## Runs -/

theorem accounted_apply {w : Writer} (h : w.core.Accounted) (ev : Event) : (w.apply ev).state.core.Accounted := by
  cases hev : ev.isAttrWrite with
  | false => exact (keepsBooks_apply w hev).accounted h
  | true =>
    cases ev with
    | attrWrite hd value under => exact (attrWrite_books w hd value under).1 h
    | _ => cases hev

theorem within_apply_iff {w : Writer} (h : w.core.Within) (ev : Event) :
    (w.apply ev).state.core.Within ↔ AttrFits w ev := by
  cases hev : ev.isAttrWrite with
  | false =>
    refine iff_of_true ((keepsBooks_apply w hev).within h) ?_
    cases ev with
    | attrWrite hd value under => cases hev
    | _ => trivial
  | true =>
    cases ev with
    | attrWrite hd value under => exact (attrWrite_books w hd value under).2 h
    | _ => cases hev

theorem accounted_run {w : Writer} (h : w.core.Accounted) (events : List Event) :
    (w.run events).core.Accounted := by
  induction events generalizing w with
  | nil => exact h
  | cons ev events ih => exact ih (accounted_apply h ev)

/-- A run is within the limit all along exactly when its attribute writes fit. -/
theorem within_run_iff {w : Writer} (h : w.core.Within) (events : List Event) :
    (∀ n, (w.run (events.take n)).core.Within) ↔ w.Meets AttrFits events := by
  induction events generalizing w with
  | nil =>
    simp only [List.take_nil, Writer.run_nil]
    exact iff_of_true (fun _ => h) trivial
  | cons ev events ih =>
    constructor
    · intro hall
      have hone : (w.apply ev).state.core.Within := by simpa using hall 1
      exact ⟨(within_apply_iff h ev).mp hone, (ih hone).mp fun n => by simpa using hall (n + 1)⟩
    · rintro ⟨hfits, hrest⟩ n
      cases n with
      | zero => exact h
      | succ n =>
        rw [List.take_succ_cons, Writer.run_cons]
        exact (ih ((within_apply_iff h ev).mpr hfits)).mpr hrest n

/-- In every run the total is what the entries hold, also once the step has folded in what it inherits, and
the refusal is decided on the exact sum: it is the one on words, for all words. The limit is kept in every
state of the run, and by every fold in it, exactly when each `H5Awrite` of the run fits. -/
theorem pendingBytes_within_iff (config : Config) (events : List Event) :
    (∀ n env, ((Writer.init config).run (events.take n)).core.Accounted ∧
      (((Writer.init config).run (events.take n)).core.folded env).Accounted) ∧
    (∀ fs e, pendingAppend fs e = none ↔ fs.OverLimit e.payload.len) ∧
    (∀ limit len bytes : UInt64, refusesCapture limit len bytes = true ↔
      0 < limit.toNat ∧ 0 < len.toNat ∧ limit.toNat < bytes.toNat + len.toNat) ∧
    ((∀ n env, ((Writer.init config).run (events.take n)).core.Within ∧
      (((Writer.init config).run (events.take n)).core.folded env).Within) ↔
      (Writer.init config).Meets AttrFits events) := by
  have hempty : (Writer.init config).core.Accounted := rfl
  have hnone : (Writer.init config).core.Within := fun _ => Nat.zero_le _
  refine ⟨fun n env => ?_, pendingAppend_eq_none_iff, refusesCapture_iff, ?_⟩
  · have hsum := accounted_run hempty (events.take n)
    exact ⟨hsum, (keepsBooks_folded _ env).accounted hsum⟩
  · rw [← within_run_iff hnone]
    constructor
    · exact fun h n => (h n .quiet).1
    · exact fun h n env => ⟨h n, (keepsBooks_folded _ env).within (h n)⟩

-- an attribute of two bytes, under a limit of one
def oneByteLimit : Writer := .init { Config.plain with maxPending := 1 }

def twoByteAttr : List Event :=
  [.beginStep [] 0, .attrCreate 0 ['/', 'g'] ['u'] nativeUchar ⟨.simple [2], .all⟩ [],
    .attrWrite 0 (some [7, 7]) none]

/-- Every call is accepted, and the step holds more than its limit. -/
theorem twoByteAttr_over_limit :
    (∀ n < 3, ((oneByteLimit.run (twoByteAttr.take n)).apply (twoByteAttr[n]?.getD .fileClose)).isOk = true) ∧
    (oneByteLimit.run twoByteAttr).core.config.maxPending = 1 ∧
    (oneByteLimit.run twoByteAttr).core.pendingBytes = 2 ∧ ¬ (oneByteLimit.run twoByteAttr).core.Within := by
  decide

end VolStream
