import VolStream.Writer.PendingBytes

/-!
# Refused writes

`H5Dwrite`, `H5Dwrite_multi` and `H5Awrite` are refused inside a step for a type that is not self-contained, a
memory selection that cannot be gathered, a conversion that fails, or the pending-byte limit. What the call did
before it was refused stays: the entry made up for a live object, the datasets of the batch before the refused
one, the attribute value that was freed. Here is exactly when a refusal leaves no trace.
-/

namespace VolStream

/-! ## One dataset -/

/-- The write entry captured for a dataset whose create is `ce`. -/
def writeEntry (arg : WriteArg) (o : Wrapper) (ce : PendingEntry) (payload : Payload) : PendingEntry :=
  ⟨.dsetWrite, o.path, arg.memType, resolveSpace arg.fileSpace ce.space, none, payload, none⟩

/-- What the write would capture. -/
def writePayload (arg : WriteArg) (ce : PendingEntry) : Option Payload :=
  let fspace := resolveSpace arg.fileSpace ce.space
  capturePayload arg (resolveSpace arg.memSpace fspace) fspace.npoints

/-- The type is refused, the selection cannot be gathered or the value not be serialized, or the payload is over
the limit. -/
def WriteRefused (fs : Core) (arg : WriteArg) (ce : PendingEntry) : Prop :=
  arg.memType.unsafeToCapture = true ∨ ∀ payload, writePayload arg ce = some payload → fs.OverLimit payload.len

/-- A write that has its create: captured, or refused with the buffer as it is. -/
theorem captureWrite_of_entry {arg : WriteArg} {w : Writer} {o : Wrapper} {fs : Core} {idx : Nat}
    {ce : PendingEntry} (ho : w.wrappers arg.handle = some o)
    (hidx : stepIndex w.core .dsetCreate o arg.under = some (fs, idx)) (hce : fs.pending[idx]? = some ce) :
    (WriteRefused fs arg ce ∧ captureWrite arg w = .fail { w with core := fs }) ∨
      (¬ WriteRefused fs arg ce ∧
        ∃ payload, captureWrite arg w = .ok { w with core := fs.push (writeEntry arg o ce payload) }) := by
  unfold captureWrite WriteRefused writePayload
  simp only [ho, hidx, hce]
  cases arg.memType.unsafeToCapture with
  | true => exact .inl ⟨.inl rfl, by simp⟩
  | false =>
    simp only [Bool.false_eq_true, if_false, false_or]
    cases capturePayload arg (resolveSpace arg.memSpace (resolveSpace arg.fileSpace ce.space))
        (resolveSpace arg.fileSpace ce.space).npoints with
    | none =>
      left
      simp
    | some payload =>
      simp only [pendingAppend_eq, Option.some.injEq, forall_eq']
      by_cases hover : fs.OverLimit payload.len
      · left
        simp [hover]
      · right
        refine ⟨hover, payload, ?_⟩
        simp [hover, writeEntry]

/-- The write is refused, and no create was made up for it. -/
def RefusedInPlace (w : Writer) (arg : WriteArg) : Prop :=
  ∀ o, w.wrappers arg.handle = some o →
    match pendingIndex w.core .dsetCreate o with
    | some idx => ∀ ce, w.core.pending[idx]? = some ce → WriteRefused w.core arg ce
    | none => arg.under = none

/-- A captured write either is refused in place or leaves a longer buffer. -/
theorem captureWrite_grows_iff (arg : WriteArg) (w : Writer) :
    (RefusedInPlace w arg ∧ captureWrite arg w = .fail w) ∨
      (¬ RefusedInPlace w arg ∧ w.core.pending.length < (captureWrite arg w).state.core.pending.length) := by
  unfold RefusedInPlace
  cases ho : w.wrappers arg.handle with
  | none =>
    left
    refine ⟨fun o h => (by cases h), ?_⟩
    rw [captureWrite, ho]
  | some o =>
    simp only [Option.some.injEq, forall_eq']
    cases hidx : pendingIndex w.core .dsetCreate o with
    | some idx =>
      have hindex : stepIndex w.core .dsetCreate o arg.under = some (w.core, idx) := by rw [stepIndex_eq, hidx]
      simp only
      cases hce : w.core.pending[idx]? with
      | none =>
        left
        refine ⟨fun ce h => (by cases h), ?_⟩
        simp only [captureWrite, ho, hindex, hce]
      | some ce =>
        simp only [Option.some.injEq, forall_eq']
        rcases captureWrite_of_entry ho hindex hce with ⟨hrefused, hres⟩ | ⟨htaken, payload, hres⟩
        · exact .inl ⟨hrefused, hres⟩
        · right
          refine ⟨htaken, ?_⟩
          rw [hres]
          simp [Core.push]
    | none =>
      cases hunder : arg.under with
      | none =>
        left
        refine ⟨rfl, ?_⟩
        have hindex : stepIndex w.core .dsetCreate o arg.under = none := by rw [stepIndex_eq, hidx, hunder]; rfl
        simp only [captureWrite, ho, hindex]
      | some info =>
        right
        refine ⟨Option.some_ne_none info, ?_⟩
        -- the create made up for the live dataset stays, whatever becomes of the write
        have hindex : stepIndex w.core .dsetCreate o arg.under =
            some (w.core.push (synthesized .dsetCreate o info), w.core.pending.length) := by
          rw [stepIndex_eq, hidx, hunder]
          rfl
        rcases captureWrite_of_entry ho hindex (by simp [Core.push]; rfl) with ⟨-, hres⟩ | ⟨-, payload, hres⟩
        · rw [hres]
          simp [Core.push]
        · rw [hres]
          simp [Core.push]

/-! ## Calls -/

/-- The batch mixes captured datasets with others. -/
def Mixed (w : Writer) (args : List WriteArg) : Prop :=
  ∃ arg ∈ args, ((w.wrappers arg.handle).map (dsetCapture w.core)).getD false = false

/-- The refusals that leave no trace. A batch is refused as a whole, or at its first dataset without a create
made up for it. An attribute's entry was pending, and either its type is refused or it held no value. -/
def RefusedCleanly (w : Writer) : Event → Prop
  | .datasetWrite args => Mixed w args ∨ ∃ arg rest, args = arg :: rest ∧ RefusedInPlace w arg
  | .attrWrite h _ under => ∀ o, w.wrappers h = some o →
      match pendingIndex w.core .attr o with
      | some idx => ∀ e, w.core.pending[idx]? = some e → e.type.unsafeToCapture = true ∨ e.payload = .bytes []
      | none => under = none
  | _ => True

/-- The pending entries with their payloads, the total, and everything later are as if the call had not been
made. -/
def Untouched (w w' : Writer) : Prop :=
  w'.core.pending = w.core.pending ∧ w'.core.pendingBytes = w.core.pendingBytes ∧
    ∀ events, w'.run events = w.run events

theorem Untouched.refl (w : Writer) : Untouched w w := ⟨rfl, rfl, fun _ => rfl⟩

theorem not_untouched_of_grown {w w' : Writer} (h : w.core.pending.length < w'.core.pending.length) :
    ¬ Untouched w w' := by
  intro hsame
  rw [hsame.1] at h
  omega

theorem length_le_captureWrite (arg : WriteArg) (w : Writer) :
    w.core.pending.length ≤ (captureWrite arg w).state.core.pending.length := by
  rcases captureWrite_grows_iff arg w with ⟨-, hres⟩ | ⟨-, hgrown⟩
  · rw [hres]
    exact Nat.le_refl _
  · omega

theorem untouched_datasetWrite_iff {args : List WriteArg} {w w' : Writer} (h : datasetWrite args w = .fail w') :
    Untouched w w' ↔ RefusedCleanly w (.datasetWrite args) := by
  unfold datasetWrite at h
  simp only at h
  split at h
  · rename_i hall
    have hmixed : ¬ Mixed w args := by
      rintro ⟨arg, harg, hpass⟩
      have hcaptured := List.length_filter_eq_length_iff.mp hall arg harg
      rw [hpass] at hcaptured
      cases hcaptured
    simp only [RefusedCleanly, hmixed, false_or]
    cases args with
    | nil => cases h
    | cons arg rest =>
      have hfirst : (∃ a r, arg :: rest = a :: r ∧ RefusedInPlace w a) ↔ RefusedInPlace w arg :=
        ⟨fun ⟨a, r, hcons, hrefused⟩ => by cases hcons; exact hrefused, fun hrefused => ⟨arg, rest, rfl, hrefused⟩⟩
      rw [hfirst]
      rw [Outcome.runAll_cons] at h
      rcases captureWrite_grows_iff arg w with ⟨hrefused, hres⟩ | ⟨hnot, hgrown⟩
      · rw [hres] at h
        cases h
        exact iff_of_true (.refl w) hrefused
      · refine iff_of_false (not_untouched_of_grown ?_) hnot
        cases hres : captureWrite arg w with
        | fail w₁ =>
          rw [hres] at h hgrown
          cases h
          exact hgrown
        | ok w₁ =>
          rw [hres, Outcome.bind_ok] at h
          rw [hres] at hgrown
          -- no later dataset takes anything out of the buffer
          have hrest := Outcome.state_runAll (P := fun v => w₁.core.pending.length ≤ v.core.pending.length)
            (f := captureWrite) (l := rest) (fun a _ v hv => hv.trans (length_le_captureWrite a v)) (Nat.le_refl _)
          rw [h] at hrest
          exact Nat.lt_of_lt_of_le hgrown hrest
  · rename_i hsome
    split at h
    · cases h
    · cases h
      refine iff_of_true (.refl w) (.inl ?_)
      by_contra hnone
      refine hsome (List.length_filter_eq_length_iff.mpr fun arg harg => ?_)
      by_contra hpass
      exact hnone ⟨arg, harg, by simpa using hpass⟩

theorem set_payload_eq_self_iff {l : List PendingEntry} {idx : Nat} {e : PendingEntry} (h : l[idx]? = some e)
    (payload : Payload) : l.set idx { e with payload := payload } = l ↔ e.payload = payload := by
  obtain ⟨hlt, hget⟩ := List.getElem?_eq_some_iff.mp h
  constructor
  · intro hsame
    have hentry : some { e with payload := payload } = some e := by
      rw [← h, ← hsame, List.getElem?_set_self (by simpa using hlt)]
    rw [Option.some.injEq] at hentry
    rw [← hentry]
  · intro hpayload
    subst hpayload
    subst hget
    exact List.set_getElem_self hlt

theorem untouched_attrWrite_iff {w w' : Writer} {h : Handle} {value : Option Bytes} {under : Option ObjInfo}
    (hfail : attrWrite w h value under = .fail w') :
    Untouched w w' ↔ RefusedCleanly w (.attrWrite h value under) := by
  unfold attrWrite at hfail
  unfold RefusedCleanly
  cases ho : w.wrappers h with
  | none =>
    rw [ho] at hfail
    cases hfail
    exact iff_of_true (.refl w) fun o hsome => by rw [ho] at hsome; cases hsome
  | some o =>
    simp only [ho, Option.some.injEq, forall_eq'] at hfail ⊢
    split at hfail
    · cases hfail
    · rw [stepIndex_eq] at hfail
      cases hidx : pendingIndex w.core .attr o with
      | some idx =>
        simp only [hidx] at hfail ⊢
        cases he : w.core.pending[idx]? with
        | none =>
          simp only [he] at hfail
          cases hfail
          exact iff_of_true (.refl w) fun e h => by cases h
        | some e =>
          simp only [he, Option.some.injEq, forall_eq'] at hfail ⊢
          split at hfail
          · rename_i hunsafe
            cases hfail
            exact iff_of_true (.refl w) (.inl hunsafe)
          · rename_i hsafe
            cases value with
            | some b => cases hfail
            | none =>
              cases hfail
              rw [or_iff_right hsafe, ← set_payload_eq_self_iff he]
              -- the entry lost the value it held
              constructor
              · exact fun hsame => hsame.1
              · intro hsame
                have hempty := (set_payload_eq_self_iff he _).mp hsame
                have hcore : { w.core with
                    pending := w.core.pending.set idx { e with payload := .bytes [] }
                    pendingBytes := w.core.pendingBytes - e.payload.len } = w.core := by
                  rw [hsame, hempty]
                  rfl
                rw [hcore]
                exact .refl w
      | none =>
        cases under with
        | none =>
          simp only [hidx] at hfail ⊢
          cases hfail
          exact iff_of_true (.refl w) trivial
        | some info =>
          refine iff_of_false (not_untouched_of_grown ?_) (Option.some_ne_none info)
          simp only [hidx, Option.map_some] at hfail
          have hentry : (w.core.push (synthesized .attr o info)).pending[w.core.pending.length]? =
              some (synthesized .attr o info) := by simp [Core.push]
          rw [hentry] at hfail
          simp only at hfail
          split at hfail
          · cases hfail
            simp [Core.push]
          · cases value with
            | some b => cases hfail
            | none =>
              cases hfail
              simp [Core.push]

def Event.isWrite : Event → Bool
  | .datasetWrite .. => true
  | .attrWrite .. => true
  | _ => false

/-- A write that fails, in whatever state it finds, leaves no trace exactly when the refusal is one of
`RefusedCleanly`. -/
theorem refused_untouched_iff {w w' : Writer} {ev : Event} (hwrite : ev.isWrite = true)
    (hfail : w.apply ev = .fail w') : Untouched w w' ↔ RefusedCleanly w ev := by
  cases ev with
  | datasetWrite args => exact untouched_datasetWrite_iff hfail
  | attrWrite h value under => exact untouched_attrWrite_iff hfail
  | _ => cases hwrite

-- a compound with a variable-length member
def nestedVl : Datatype := { nativeUchar with unsafeToCapture := true }

-- step 0 writes a byte to `/a`; in step 1 the handle is live
def liveByte : Writer :=
  (Writer.init .plain).run [.beginStep [] 0, createByte 0 ['a'], writeByte 0, .endStep .quiet, .beginStep [] 1]

def refusedRewrite : Event :=
  .datasetWrite [⟨0, nestedVl, none, none, [[7]], none, some ⟨nativeUchar, ⟨.scalar, .all⟩, []⟩⟩]

/-- The rewrite of a live dataset is refused for its type, and step 1 commits a dataset `/a` that nobody wrote:
the create made up for the rewrite. -/
theorem refusedRewrite_leaves_create :
    liveByte.core.stepState = .inStep ∧ (liveByte.apply refusedRewrite).isOk = false ∧
      liveByte.core.pending = [] ∧ (liveByte.apply refusedRewrite).state.core.pending ≠ [] ∧
      ((liveByte.apply refusedRewrite).state.run [.endStep .quiet]).core.file.ops 1 ≠
        (liveByte.run [.endStep .quiet]).core.file.ops 1 ∧
      ¬ Untouched liveByte (liveByte.apply refusedRewrite).state := by
  have hfile : ((liveByte.apply refusedRewrite).state.run [.endStep .quiet]).core.file.ops 1 ≠
      (liveByte.run [.endStep .quiet]).core.file.ops 1 := by decide
  refine ⟨by decide, by decide, by decide, by decide, hfile, fun h => ?_⟩
  rw [h.2.2] at hfile
  exact hfile rfl

-- the same write on a placeholder, whose create is its own
def openByte : Writer := (Writer.init .plain).run [.beginStep [] 0, createByte 0 ['a']]

def refusedWrite : Event := .datasetWrite [⟨0, nestedVl, none, none, [[7]], none, none⟩]

theorem refusedWrite_untouched : openByte.apply refusedWrite = .fail openByte ∧ Untouched openByte openByte := by
  have hfail : openByte.apply refusedWrite = .fail openByte := rfl
  refine ⟨hfail, (refused_untouched_iff rfl hfail).mpr (.inr ⟨_, _, rfl, fun o ho => ?_⟩)⟩
  cases ho
  exact fun ce _ => .inl rfl

end VolStream
