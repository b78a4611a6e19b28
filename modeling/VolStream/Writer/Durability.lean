import VolStream.Lib.Run
import VolStream.Writer.PathIndex
import VolStream.Writer.RequestBook

/-!
# What a request says about its write

`Followed` keeps, next to a writer with requests, the record a run leaves: the steps begun, the step and the
entries of each request, how each step that reached its `H5Fend_step` ended, the callbacks accepted. In every
run a request reports the end of its own step and nothing else, and once a step was replayed with success the
entries of its requests are in the file.

Two things can come between. A step the queue policy drops is reported as a success. And an `H5VLfile_close`
that fails leaves the discarded step's cell to the next step; runs in which that happens are left out here.
-/

namespace VolStream

/-- How an `H5Fend_step` came out: its return, what the queue policy made of the step, the entries there were
to replay, and the calls made in the step's group. -/
structure Ending where
  succeeded : Bool
  fate : Fate
  pending : List PendingEntry
  ops : List FileOp

/-- Where a request comes from: the step, and the places, kinds and paths of the entries of its write. -/
structure Origin where
  step : Nat
  entries : List (Nat × (Kind × Path))

/-- A writer with requests and the record of its run. -/
structure Followed where
  state : AsyncWriter
  begun : Nat
  endings : Table Nat Ending
  origins : Table Addr Origin
  accepted : List (Callback × Nat)

namespace AsyncWriter

/-- The event opens a step. -/
def begins (s : AsyncWriter) : AsyncEvent → Bool
  | .call (.beginStep ids wall) => s.reachable (.call (.beginStep ids wall)) && (beginWriterStep s.writer ids wall).isOk
  | _ => false

/-- The event is the `H5Fend_step` of the open step. -/
def ending (s : AsyncWriter) : AsyncEvent → Option Ending
  | .call (.endStep env) =>
      let fs := s.writer.core.folded env
      let o := VolStream.endStep env s.writer
      if s.reachable (.call (.endStep env)) ∧ s.writer.core.stepState = .inStep then
        some ⟨o.isOk, fs.fate env.lag, fs.pending, o.state.core.file.ops s.writer.core.physicalStep⟩
      else none
  | _ => none

/-- The entries of a captured write: those it appended, or the one an `H5Awrite` replaced the value of. -/
def entriesOf (s : AsyncWriter) (ev : AsyncEvent) : List (Nat × (Kind × Path)) :=
  let after := (s.apply ev).1.writer.core.pending
  let places : List Nat := match ev with
    | .datasetWrite _ _ => List.range' s.writer.core.pending.length (after.length - s.writer.core.pending.length)
    | .attrWrite h _ under _ =>
        (((s.writer.wrappers h).bind fun o => stepIndex s.writer.core .attr o under).map (·.2)).toList
    | _ => []
  places.filterMap fun i => after[i]?.map fun pe => (i, pe.key)

end AsyncWriter

namespace Followed

def init (config : Config) : Followed := ⟨.init config, 0, [], [], []⟩

/-- The callback the event registers, with the step of its request. -/
def accepts (s : Followed) : AsyncEvent → Option (Callback × Nat)
  | .notify r cb mallocFails =>
      if (s.state.requests.requestNotify r cb mallocFails).isOk then (s.origins.find? r).map fun o => (cb, o.step)
      else none
  | _ => none

def step (s : Followed) (ev : AsyncEvent) : Followed where
  state := (s.state.apply ev).1
  begun := if s.state.begins ev then s.begun + 1 else s.begun
  endings := match s.state.ending ev with
    | none => s.endings
    | some e => s.endings.set s.begun e
  origins := match (s.state.apply ev).2 with
    | none => s.origins
    | some r => s.origins.set r ⟨s.begun, s.state.entriesOf ev⟩
  accepted := s.accepted ++ (s.accepts ev).toList

/-- What the requests are held to. -/
def book (s : Followed) : Book where
  step := s.begun
  outcome := fun k => (s.endings.find? k).map (·.succeeded)
  madeIn := fun r => (s.origins.find? r).map (·.step)
  accepted := s.accepted

/-- No file fails to close over the open requests of a step. -/
def Admissible (s : Followed) (ev : AsyncEvent) : Prop :=
  ev = .fileClose true → s.state.requests.currentCompletion = none

/-- The write a request is for has landed. -/
def Landed (s : Followed) (o : Origin) : Prop :=
  ∃ e, s.endings.find? o.step = some e ∧
    ∀ p ∈ o.entries, ∃ pe, e.pending[p.1]? = some pe ∧ pe.key = p.2 ∧ pe.LandedIn e.ops

/-! ## The invariant -/

structure Inv (s : Followed) : Prop where
  keeps : ∃ born, s.state.requests.Keeps s.book born s.state.stateFreed
  phase : s.state.writer.core.stepState = .notInStep ∨ s.state.writer.core.stepState = .inStep
  orderly : s.state.writer.core.Orderly
  closed : s.state.fileClosed = true → s.state.writer.core.stepState = .notInStep
  freed : s.state.stateFreed = true → s.state.fileClosed = true
  cell : s.state.requests.currentCompletion ≠ none →
    s.state.writer.core.stepState = .inStep ∨ s.state.fileClosed = true
  openStep : s.state.writer.core.stepState = .inStep → s.endings.find? s.begun = none
  originBy : ∀ r o, s.origins.find? r = some o → o.step ≤ s.begun
  places : s.state.writer.core.stepState = .inStep → ∀ r o, s.origins.find? r = some o → o.step = s.begun →
    ∀ p ∈ o.entries, s.state.writer.core.pending[p.1]?.map PendingEntry.key = some p.2
  ended : ∀ r o e, s.origins.find? r = some o → s.endings.find? o.step = some e →
    ∀ p ∈ o.entries, e.pending[p.1]?.map PendingEntry.key = some p.2
  replayed : ∀ k e, s.endings.find? k = some e → e.succeeded = true → e.fate = .replay →
    ∀ pe ∈ e.pending, pe.LandedIn e.ops

theorem inv_init (config : Config) : (init config).Inv where
  keeps := ⟨_, Requests.keeps_init⟩
  phase := .inl rfl
  orderly := orderly_run config []
  closed := fun hc => by cases hc
  freed := fun hf => by cases hf
  cell := fun hc => absurd rfl hc
  openStep := fun hs => by cases hs
  originBy := fun r o ho => by cases ho
  places := fun hs => by cases hs
  ended := fun r o e ho => by cases ho
  replayed := fun k e he => by cases he

/-! ### Steps that change one half -/

/-- The same record, next to another state. -/
def after (s : Followed) (state : AsyncWriter) : Followed := { s with state := state }

variable {s : Followed}

/-- The open step's entries grow, in place. -/
theorem Inv.writer (h : s.Inv) {w : Writer} (hphase : w.core.stepState = s.state.writer.core.stepState)
    (horderly : w.core.Orderly) (hplaces : s.state.writer.core.KeepsPlaces w.core) :
    (s.after { s.state with writer := w }).Inv where
  keeps := h.keeps
  phase := by
    show w.core.stepState = _ ∨ w.core.stepState = _
    rw [hphase]
    exact h.phase
  orderly := horderly
  closed := fun hc => hphase.trans (h.closed hc)
  freed := h.freed
  cell := fun hc => by
    show w.core.stepState = _ ∨ _
    rw [hphase]
    exact h.cell hc
  openStep := fun hs => h.openStep (hphase ▸ hs)
  originBy := h.originBy
  places := fun hs r o ho hstep p hp => hplaces.entry (h.places (hphase ▸ hs) r o ho hstep p hp)
  ended := h.ended
  replayed := h.replayed

/-- The requests change, and what is accepted with them; the step's cell stays. -/
theorem Inv.requests (h : s.Inv) (q : Requests) (accepted : List (Callback × Nat))
    (hkeeps : ∃ born, q.Keeps { s.book with accepted := accepted } born s.state.stateFreed)
    (hcurrent : q.currentCompletion = s.state.requests.currentCompletion) :
    ({ s with state := { s.state with requests := q }, accepted := accepted } : Followed).Inv where
  keeps := hkeeps
  phase := h.phase
  orderly := h.orderly
  closed := h.closed
  freed := h.freed
  cell := fun hc => h.cell (hcurrent ▸ hc)
  openStep := h.openStep
  originBy := h.originBy
  places := h.places
  ended := h.ended
  replayed := h.replayed

/-- The file closes, or fails to while no request is open. -/
theorem Inv.close (h : s.Inv) {underFails : Bool}
    (hcell : underFails = true → s.state.requests.currentCompletion = none) :
    (s.after (s.state.close underFails)).Inv := by
  have hidle : (fileClose s.state.writer).core.stepState = .notInStep := by
    unfold fileClose
    split
    · rfl
    · rename_i hopen
      rcases h.phase with hphase | hphase
      · exact hphase
      · exact absurd (.inl hphase) hopen
  constructor
  · exact h.keeps
  · exact .inl hidle
  · exact orderly_apply h.orderly .fileClose
  · exact fun _ => hidle
  · intro hf
    show (s.state.fileClosed || !underFails) = true
    rw [h.freed hf]
    rfl
  · intro hc
    right
    cases underFails with
    | true => exact absurd (hcell rfl) hc
    | false => exact Bool.or_true _
  · intro hs
    cases hidle.symm.trans hs
  · exact h.originBy
  · intro hs
    cases hidle.symm.trans hs
  · exact h.ended
  · exact h.replayed

/-! ### Beginning and ending a step -/

theorem Inv.begin (h : s.Inv) {ids : List Nat} {wall : Nat} {w : Writer}
    (hbegin : beginWriterStep s.state.writer ids wall = .ok w) (hopen : s.state.fileClosed = false) :
    ({ s with state := { s.state with writer := w }, begun := s.begun + 1 } : Followed).Inv := by
  unfold beginWriterStep at hbegin
  split at hbegin
  · cases hbegin
  · rename_i hidle
    rw [ne_eq, not_not] at hidle
    cases hbegin
    have hnone : s.state.requests.currentCompletion = none := by
      by_contra hc
      rcases h.cell hc with hin | hclosed
      · rw [hidle] at hin
        cases hin
      · rw [hopen] at hclosed
        cases hclosed
    obtain ⟨born, hkeeps⟩ := h.keeps
    have hnew : s.endings.find? (s.begun + 1) = none := by
      by_contra hsome
      have hle : s.begun + 1 ≤ s.begun := by
        refine hkeeps.endedBy _ ?_
        show (s.endings.find? (s.begun + 1)).map (·.succeeded) ≠ none
        rw [ne_eq, Option.map_eq_none_iff]
        exact hsome
      omega
    constructor
    · exact ⟨born, hkeeps.nextStep hnone⟩
    · exact .inr rfl
    · have horderly := orderly_apply h.orderly (.beginStep ids wall)
      rw [Writer.apply, beginWriterStep, if_neg (not_not_intro hidle)] at horderly
      exact horderly
    · intro hclosed
      rw [show _ = false from hopen] at hclosed
      cases hclosed
    · exact h.freed
    · exact fun _ => .inl rfl
    · exact fun _ => hnew
    · exact fun r o ho => Nat.le_succ_of_le (h.originBy r o ho)
    · intro _ r o ho hstep
      have hle := h.originBy r o ho
      rw [hstep] at hle
      exact absurd hle (by show ¬ s.begun + 1 ≤ s.begun; omega)
    · exact h.ended
    · exact h.replayed

theorem stepState_endStep (env : EndEnv) {w : Writer} (h : w.core.stepState = .inStep) :
    (endStep env w).state.core.stepState = .notInStep := by
  unfold endStep
  rw [if_neg (not_not_intro h)]
  simp only
  split
  · rfl
  · rfl

theorem Inv.endStep (h : s.Inv) (env : EndEnv) (hopen : s.state.fileClosed = false)
    (hin : s.state.writer.core.stepState = .inStep) {e : Ending}
    (he : e = ⟨(VolStream.endStep env s.state.writer).isOk, (s.state.writer.core.folded env).fate env.lag,
      (s.state.writer.core.folded env).pending,
      (VolStream.endStep env s.state.writer).state.core.file.ops s.state.writer.core.physicalStep⟩) :
    ({ s with state := s.state.endStep env, endings := s.endings.set s.begun e } : Followed).Inv := by
  have hidle := stepState_endStep env hin
  have hnone := h.openStep hin
  have hfreed : s.state.stateFreed = false := by
    cases hf : s.state.stateFreed with
    | false => rfl
    | true =>
      rw [h.freed hf] at hopen
      cases hopen
  obtain ⟨born, hkeeps⟩ := h.keeps
  rw [hfreed] at hkeeps
  have hstep : s.book.outcome s.book.step = none := by
    show (s.endings.find? s.begun).map (·.succeeded) = none
    rw [hnone]
    rfl
  have hbook : ({ s with state := s.state.endStep env, endings := s.endings.set s.begun e } : Followed).book
      = s.book.ended (VolStream.endStep env s.state.writer).isOk := by
    have houtcome : (fun k => ((s.endings.set s.begun e).find? k).map (·.succeeded))
        = Function.update s.book.outcome s.begun (some (VolStream.endStep env s.state.writer).isOk) := by
      funext k
      rw [Table.find?_set]
      by_cases hk : s.begun = k
      · rw [if_pos hk, ← hk, Function.update_self, he]
        rfl
      · rw [if_neg hk, Function.update_of_ne (Ne.symm hk)]
        rfl
    unfold book Book.ended
    rw [houtcome]
    rfl
  have hresolved : (s.state.endStep env).requests
      = s.state.requests.resolve (VolStream.endStep env s.state.writer).isOk := if_pos hin
  constructor
  · refine ⟨born, ?_⟩
    rw [hbook]
    show (s.state.endStep env).requests.Keeps _ born s.state.stateFreed
    rw [hresolved, hfreed]
    exact hkeeps.resolve hstep _
  · exact .inl hidle
  · exact orderly_endStep h.orderly
  · exact fun _ => hidle
  · exact h.freed
  · intro hc
    refine absurd ?_ hc
    show (s.state.endStep env).requests.currentCompletion = none
    rw [hresolved]
    unfold Requests.resolve
    split
    · assumption
    · split
      · rfl
      · rfl
  · intro hs
    cases hidle.symm.trans hs
  · exact h.originBy
  · intro hs
    cases hidle.symm.trans hs
  · intro r o e' ho he' p hp
    change (s.endings.set s.begun e).find? o.step = some e' at he'
    rw [Table.find?_set] at he'
    split at he'
    · rename_i hthis
      cases he'
      rw [he]
      exact (Core.KeepsPlaces.of_folded _ env).entry (h.places hin r o ho hthis.symm p hp)
    · exact h.ended r o e' ho he' p hp
  · intro k e' he' hok hfate pe hpe
    change (s.endings.set s.begun e).find? k = some e' at he'
    rw [Table.find?_set] at he'
    split at he'
    · cases he'
      rw [he] at hok hfate hpe ⊢
      cases hend : VolStream.endStep env s.state.writer with
      | fail w =>
        rw [hend] at hok
        cases hok
      | ok w => exact landed_endStep hend hfate hpe
    · exact h.replayed k e' he' hok hfate pe hpe

/-! ### Writes that hand out a request -/

/-- Outside a step a captured write fails: its placeholder's entry is gone. -/
theorem inStep_of_written {w w' : Writer} (hphase : w.core.stepState = .notInStep ∨ w.core.stepState = .inStep)
    (horderly : w.core.Orderly) {args : List WriteArg} (hall : AsyncWriter.capturesAll w args = true)
    (h : datasetWrite args w = .ok w') : w.core.stepState = .inStep := by
  rcases hphase with hidle | hin
  · exfalso
    have hpending := (horderly.idle hidle).1
    unfold AsyncWriter.capturesAll at hall
    rw [Bool.and_eq_true, List.all_eq_true] at hall
    obtain ⟨hne, hall⟩ := hall
    unfold datasetWrite at h
    simp only at h
    rw [if_pos (List.length_filter_eq_length_iff.mpr fun arg harg => hall arg harg)] at h
    cases args with
    | nil => cases hne
    | cons arg args =>
      have hfirst := hall arg List.mem_cons_self
      rw [Outcome.runAll_cons, Outcome.bind_eq_ok_iff] at h
      obtain ⟨w₁, hw₁, -⟩ := h
      unfold captureWrite at hw₁
      cases ho : w.wrappers arg.handle with
      | none =>
        rw [ho] at hw₁
        cases hw₁
      | some o =>
        rw [ho] at hw₁ hfirst
        have hcapture : dsetCapture w.core o = true := hfirst
        obtain ⟨idx, hidx⟩ := placeholder_of_capture hcapture (by rw [hidle]; exact nofun)
        simp only [stepIndex, hidx, hpending, List.getElem?_nil] at hw₁
        cases hw₁
  · exact hin

theorem inStep_of_attrWritten {w w' : Writer}
    (hphase : w.core.stepState = .notInStep ∨ w.core.stepState = .inStep) (horderly : w.core.Orderly) {k : Handle}
    {value : Option Bytes} {under : Option ObjInfo} (hcaptured : AsyncWriter.capturesAttr w k = true)
    (h : attrWrite w k value under = .ok w') : w.core.stepState = .inStep := by
  rcases hphase with hidle | hin
  · exfalso
    have hpending := (horderly.idle hidle).1
    unfold AsyncWriter.capturesAttr at hcaptured
    unfold attrWrite at h
    cases ho : w.wrappers k with
    | none =>
      rw [ho] at h
      cases h
    | some o =>
      rw [ho] at h hcaptured
      have hcapture : dsetCapture w.core o = true := hcaptured
      obtain ⟨idx, hidx⟩ := placeholder_of_capture hcapture (by rw [hidle]; exact nofun)
      simp only [hcapture, Bool.not_true, Bool.false_eq_true, if_false, stepIndex, hidx, hpending,
        List.getElem?_nil] at h
      cases h
  · exact hin

/-- A write, captured or not, whose request is made last. -/
theorem Inv.withRequest (h : s.Inv) {captured : Bool} {written : Outcome Writer} {a : Requests.Allocs}
    {entries : List (Nat × (Kind × Path))} (hfreed : s.state.stateFreed = false)
    (hphase : written.state.core.stepState = s.state.writer.core.stepState) (horderly : written.state.core.Orderly)
    (hplaces : s.state.writer.core.KeepsPlaces written.state.core)
    (hin : captured = true → ∀ w, written = .ok w → s.state.writer.core.stepState = .inStep)
    (hentries : ∀ p ∈ entries, written.state.core.pending[p.1]?.map PendingEntry.key = some p.2) :
    ({ s with
      state := (s.state.withRequest captured written a).1
      origins := match (s.state.withRequest captured written a).2 with
        | none => s.origins
        | some r => s.origins.set r ⟨s.begun, entries⟩ } : Followed).Inv := by
  have hplain := h.writer hphase horderly hplaces
  cases written with
  | fail w => exact hplain
  | ok w =>
    cases captured with
    | false => exact hplain
    | true =>
      have hopen := h.openStep (hin rfl w rfl)
      have hstep : s.book.outcome s.book.step = none := by
        show (s.endings.find? s.begun).map (·.succeeded) = none
        rw [hopen]
        rfl
      obtain ⟨born, hkeeps⟩ := h.keeps
      rw [hfreed] at hkeeps
      obtain ⟨born', hmade⟩ := hkeeps.make hstep a
      have hlater : w.core.stepState = .inStep := hphase.trans (hin rfl w rfl)
      -- the state, whatever the request
      have hstate : s.state.withRequest true (.ok w) a = ({ s.state with
          writer := w, requests := (s.state.requests.makeDeferredRequest a).1 },
          (s.state.requests.makeDeferredRequest a).2) := rfl
      rw [hstate]
      simp only
      cases hr : (s.state.requests.makeDeferredRequest a).2 with
      | none =>
        rw [hr] at hmade
        constructor
        · refine ⟨born', ?_⟩
          show (s.state.requests.makeDeferredRequest a).1.Keeps _ born' s.state.stateFreed
          rw [hfreed]
          exact hmade
        · exact hplain.phase
        · exact hplain.orderly
        · exact hplain.closed
        · exact hplain.freed
        · exact fun _ => .inl hlater
        · exact hplain.openStep
        · exact hplain.originBy
        · exact hplain.places
        · exact hplain.ended
        · exact hplain.replayed
      | some r =>
        rw [hr] at hmade
        have horigin : ∀ r' o, (s.origins.set r ⟨s.begun, entries⟩).find? r' = some o →
            o = ⟨s.begun, entries⟩ ∨ s.origins.find? r' = some o := by
          intro r' o ho
          rw [Table.find?_set] at ho
          split at ho
          · cases ho
            exact .inl rfl
          · exact .inr ho
        have hbook : (fun r' => ((s.origins.set r ⟨s.begun, entries⟩).find? r').map (·.step))
            = Function.update s.book.madeIn r (some s.book.step) := by
          funext r'
          rw [Table.find?_set]
          by_cases hrr : r = r'
          · rw [if_pos hrr, ← hrr, Function.update_self]
            rfl
          · rw [if_neg hrr, Function.update_of_ne (Ne.symm hrr)]
            rfl
        constructor
        · refine ⟨born', ?_⟩
          show (s.state.requests.makeDeferredRequest a).1.Keeps
            ⟨s.begun, _, fun r' => ((s.origins.set r ⟨s.begun, entries⟩).find? r').map (·.step), s.accepted⟩ born'
            s.state.stateFreed
          rw [hfreed, hbook]
          exact hmade
        · exact hplain.phase
        · exact hplain.orderly
        · exact hplain.closed
        · exact hplain.freed
        · exact fun _ => .inl hlater
        · exact hplain.openStep
        · intro r' o ho
          rcases horigin r' o ho with rfl | hold
          · exact Nat.le_refl _
          · exact h.originBy r' o hold
        · intro hs r' o ho hthis p hp
          rcases horigin r' o ho with rfl | hold
          · exact hentries p hp
          · exact hplain.places hs r' o hold hthis p hp
        · intro r' o e ho he p hp
          rcases horigin r' o ho with rfl | hold
          · rw [show _ = none from hopen] at he
            cases he
          · exact h.ended r' o e hold he p hp
        · exact hplain.replayed

/-! ### Every step -/

theorem step_eq_after {ev : AsyncEvent} (hbegins : s.state.begins ev = false) (hending : s.state.ending ev = none)
    (hmade : (s.state.apply ev).2 = none) (haccepts : s.accepts ev = none) :
    s.step ev = s.after (s.state.apply ev).1 := by
  unfold step
  rw [hbegins, hending, hmade, haccepts, Option.toList_none, List.append_nil]
  rfl

/-- Out of reach, nothing happens. -/
theorem step_unreachable {ev : AsyncEvent} (h : s.state.reachable ev = false) : s.step ev = s := by
  have happly : s.state.apply ev = (s.state, none) := by
    unfold AsyncWriter.apply
    rw [h]
    rfl
  rw [step_eq_after]
  · rw [happly]
    rfl
  · unfold AsyncWriter.begins
    split
    · rw [h, Bool.false_and]
    · rfl
  · unfold AsyncWriter.ending
    split
    · rw [h]
      exact if_neg (fun hand => Bool.false_ne_true hand.1)
    · rfl
  · rw [happly]
  · unfold accepts
    split
    · cases h
    · rfl

/-- Neither begins nor ends a step, nor closes the file. -/
structure Plain (ev : Event) : Prop where
  begins : ∀ ids wall, ev ≠ .beginStep ids wall
  ends : ∀ env, ev ≠ .endStep env
  closes : ev ≠ .fileClose

theorem plain_or (ev : Event) :
    (∃ ids wall, ev = .beginStep ids wall) ∨ (∃ env, ev = .endStep env) ∨ ev = .fileClose ∨ Plain ev := by
  by_cases hbegin : ∃ ids wall, ev = .beginStep ids wall
  · exact .inl hbegin
  · by_cases hend : ∃ env, ev = .endStep env
    · exact .inr (.inl hend)
    · by_cases hclose : ev = .fileClose
      · exact .inr (.inr (.inl hclose))
      · exact .inr (.inr (.inr ⟨fun ids wall heq => hbegin ⟨ids, wall, heq⟩, fun env heq => hend ⟨env, heq⟩, hclose⟩))

theorem Plain.call {ev : Event} (h : Plain ev) (w : AsyncWriter) :
    w.call ev = { w with writer := (w.writer.apply ev).state } := by
  unfold AsyncWriter.call
  split
  · exact absurd rfl (h.ends _)
  · exact absurd rfl h.closes
  · rfl

theorem Plain.not_begins {ev : Event} (h : Plain ev) (w : AsyncWriter) : w.begins (.call ev) = false := by
  unfold AsyncWriter.begins
  split
  · rename_i heq
    cases heq
    exact absurd rfl (h.begins _ _)
  · rfl

theorem Plain.not_ending {ev : Event} (h : Plain ev) (w : AsyncWriter) : w.ending (.call ev) = none := by
  unfold AsyncWriter.ending
  split
  · rename_i heq
    cases heq
    exact absurd rfl (h.ends _)
  · rfl

theorem Inv.plain (h : s.Inv) {ev : Event} (hplain : Plain ev) : (s.after (s.state.call ev)).Inv := by
  rw [hplain.call]
  have horderly := orderly_apply h.orderly ev
  cases hcap : ev.capture with
  | true => exact h.writer (stepState_apply_capture s.state.writer hcap).1 horderly (.of_capture _ hcap)
  | false =>
    cases ev with
    | beginStep ids wall => exact absurd rfl (hplain.begins ids wall)
    | endStep env => exact absurd rfl (hplain.ends env)
    | fileClose => exact absurd rfl hplain.closes
    | setQueuePolicy policy reserve => exact h.writer rfl horderly (.refl _)
    | noteGroupAttr path =>
      refine h.writer ?_ horderly ?_
      · simp only [Writer.apply, noteGroupAttr, Outcome.state_ok]
        split <;> rfl
      · simp only [Writer.apply, noteGroupAttr, Outcome.state_ok]
        split
        · exact .refl _
        · exact .refl _
    | datasetCreate => cases hcap
    | openLive => cases hcap
    | datasetWrite => cases hcap
    | setExtent => cases hcap
    | attrCreate => cases hcap
    | attrWrite => cases hcap
    | linkCreate => cases hcap
    | closeHandle => cases hcap

theorem Inv.call (h : s.Inv) (ev : Event) (hreach : s.state.reachable (.call ev) = true) : (s.step (.call ev)).Inv := by
  have hstate : s.state.apply (.call ev) = (s.state.call ev, none) := by
    unfold AsyncWriter.apply
    rw [hreach]
    rfl
  have hmade : (s.state.apply (.call ev)).2 = none := by rw [hstate]
  have hclosed : AsyncWriter.onFile ev = true → s.state.fileClosed = false := by
    intro hfile
    unfold AsyncWriter.reachable at hreach
    simp only [hfile, Bool.true_and, Bool.and_eq_true, Bool.not_eq_true'] at hreach
    exact hreach.2
  rcases plain_or ev with ⟨ids, wall, rfl⟩ | ⟨env, rfl⟩ | rfl | hplain
  · have hcall : s.state.call (.beginStep ids wall)
        = { s.state with writer := (beginWriterStep s.state.writer ids wall).state } := rfl
    have hbegins : s.state.begins (.call (.beginStep ids wall)) = (beginWriterStep s.state.writer ids wall).isOk := by
      show (s.state.reachable _ && _) = _
      rw [hreach, Bool.true_and]
    cases hbegin : beginWriterStep s.state.writer ids wall with
    | ok w =>
      have hinv := h.begin hbegin (hclosed rfl)
      rw [hbegin] at hcall hbegins
      unfold step
      rw [hstate, hcall, hbegins]
      simp only [Outcome.isOk_ok, if_true, AsyncWriter.ending, accepts, Option.toList_none, List.append_nil]
      exact hinv
    | fail w =>
      have hsame : w = s.state.writer := by
        unfold beginWriterStep at hbegin
        split at hbegin
        · cases hbegin
          rfl
        · cases hbegin
      rw [hbegin] at hcall hbegins
      rw [step_eq_after hbegins rfl hmade rfl, hstate, hcall, Outcome.state_fail, hsame]
      exact h
  · by_cases hin : s.state.writer.core.stepState = .inStep
    · have hinv := h.endStep env (hclosed rfl) hin rfl
      unfold step
      rw [hstate]
      simp only [AsyncWriter.begins, AsyncWriter.ending, hreach, hin, and_self, if_true, accepts, Option.toList_none,
        List.append_nil, Bool.false_eq_true, if_false]
      exact hinv
    · have hending : s.state.ending (.call (.endStep env)) = none := if_neg (fun hand => hin hand.2)
      have hsame : s.state.call (.endStep env) = s.state := by
        have hfail : VolStream.endStep env s.state.writer = .fail s.state.writer := by
          rw [VolStream.endStep, if_pos hin]
        show s.state.endStep env = _
        simp only [AsyncWriter.endStep, hfail, if_neg hin, Outcome.state_fail]
      rw [step_eq_after rfl hending hmade rfl, hstate, hsame]
      exact h
  · rw [step_eq_after rfl rfl hmade rfl, hstate]
    exact h.close (fun hf => by cases hf)
  · rw [step_eq_after (hplain.not_begins _) (hplain.not_ending _) hmade rfl, hstate]
    exact h.plain hplain

theorem withRequest_writer (s : AsyncWriter) (captured : Bool) (written : Outcome Writer) (a : Requests.Allocs) :
    (s.withRequest captured written a).1.writer = written.state := by
  unfold AsyncWriter.withRequest
  cases written with
  | fail w => rfl
  | ok w => cases captured <;> rfl

/-- The entries of a write are where the record says. -/
theorem entriesOf_spec (s : AsyncWriter) {ev : AsyncEvent} {p : Nat × (Kind × Path)} (hp : p ∈ s.entriesOf ev) :
    (s.apply ev).1.writer.core.pending[p.1]?.map PendingEntry.key = some p.2 := by
  unfold AsyncWriter.entriesOf at hp
  obtain ⟨i, -, hi⟩ := List.mem_filterMap.mp hp
  rw [Option.map_eq_some_iff] at hi
  obtain ⟨pe, hpe, rfl⟩ := hi
  rw [hpe]
  rfl

theorem Inv.write (h : s.Inv) {ev : AsyncEvent} (captured : Bool) (written : Outcome Writer) (a : Requests.Allocs)
    (happly : s.state.apply ev = s.state.withRequest captured written a) (hfreed : s.state.stateFreed = false)
    (hbegins : s.state.begins ev = false) (hending : s.state.ending ev = none) (haccepts : s.accepts ev = none)
    (hphase : written.state.core.stepState = s.state.writer.core.stepState) (horderly : written.state.core.Orderly)
    (hplaces : s.state.writer.core.KeepsPlaces written.state.core)
    (hin : captured = true → ∀ w, written = .ok w → s.state.writer.core.stepState = .inStep) : (s.step ev).Inv := by
  have hentries : ∀ p ∈ s.state.entriesOf ev, written.state.core.pending[p.1]?.map PendingEntry.key = some p.2 := by
    intro p hp
    have hspec := entriesOf_spec s.state hp
    rw [happly, withRequest_writer] at hspec
    exact hspec
  have hinv := h.withRequest (a := a) hfreed hphase horderly hplaces hin hentries
  unfold step
  rw [hbegins, hending, haccepts, happly, Option.toList_none, List.append_nil]
  exact hinv

/-- A request that is let go of. -/
theorem Inv.letGo (h : s.Inv) {r c : Addr} (hr : s.state.requests.live.find? r = some c) :
    (s.after { s.state with requests := s.state.requests.deferredRequestFree r c }).Inv := by
  obtain ⟨born, hkeeps⟩ := h.keeps
  have hmem : (r, c) ∈ s.state.requests.live := (Table.find?_eq_some_iff hkeeps.counted.nodup r c).mp hr
  exact h.requests (s.state.requests.deferredRequestFree r c) s.accepted
    ⟨born, hkeeps.requestFree hmem⟩ (Requests.decref_current _ c)

theorem Inv.notify (h : s.Inv) (r : Addr) (cb : Callback) (mallocFails : Bool) :
    (s.step (.notify r cb mallocFails)).Inv := by
  have hcurrent := Requests.requestNotify_current s.state.requests r cb mallocFails
  have happly : s.state.apply (.notify r cb mallocFails)
      = ({ s.state with requests := (s.state.requests.requestNotify r cb mallocFails).state }, none) := rfl
  obtain ⟨born, hkeeps⟩ := h.keeps
  cases hend : s.state.requests.requestNotify r cb mallocFails with
  | fail q =>
    have hsame : q = s.state.requests := by
      rcases Requests.requestNotify_cases s.state.requests r cb mallocFails with hfail | ⟨c, cell, -, -, ⟨-, hok⟩ | ⟨-, hok⟩⟩
      · rw [hend] at hfail
        cases hfail
        rfl
      · rw [hend] at hok
        cases hok
      · rw [hend] at hok
        cases hok
    have haccepts : s.accepts (.notify r cb mallocFails) = none := by
      simp only [accepts, hend, Outcome.isOk_fail, Bool.false_eq_true, if_false]
    rw [step_eq_after rfl rfl (by rw [happly]) haccepts, happly, hend, Outcome.state_fail, hsame]
    exact h
  | ok q =>
    obtain ⟨c, hc⟩ : ∃ c, s.state.requests.live.find? r = some c := by
      rcases Requests.requestNotify_cases s.state.requests r cb mallocFails with hfail | ⟨c, cell, hc, -, -⟩
      · rw [hend] at hfail
        cases hfail
      · exact ⟨c, hc⟩
    have hmem : (r, c) ∈ s.state.requests.live := (Table.find?_eq_some_iff hkeeps.counted.nodup r c).mp hc
    obtain ⟨o, ho, -⟩ := Option.map_eq_some_iff.mp (hkeeps.made r c hmem)
    have hmade : s.book.madeIn r = some o.step := by
      show (s.origins.find? r).map (·.step) = _
      rw [ho]
      rfl
    have haccepts : s.accepts (.notify r cb mallocFails) = some (cb, o.step) := by
      simp only [accepts, hend, Outcome.isOk_ok, if_true, ho, Option.map_some]
    rw [hend, Outcome.state_ok] at hcurrent
    have hinv := h.requests q (s.accepted ++ [(cb, o.step)]) ⟨born, hkeeps.notify hend hmade⟩ hcurrent
    unfold step
    rw [happly, haccepts, hend]
    exact hinv

/-- Every admissible event keeps the record true. -/
theorem inv_step (h : s.Inv) {ev : AsyncEvent} (hadm : s.Admissible ev) : (s.step ev).Inv := by
  cases hreach : s.state.reachable ev with
  | false =>
    rw [step_unreachable hreach]
    exact h
  | true =>
    cases ev with
    | call ev => exact h.call ev hreach
    | datasetWrite args a =>
      have hfreed : s.state.stateFreed = false := Bool.not_eq_true' _ ▸ hreach
      have hcap : Event.capture (.datasetWrite args) = true := rfl
      refine h.write (AsyncWriter.capturesAll s.state.writer args) (VolStream.datasetWrite args s.state.writer) a
        ?_ hfreed rfl rfl rfl (stepState_apply_capture s.state.writer hcap).1
        (orderly_apply h.orderly (.datasetWrite args)) (.of_datasetWrite args _)
        fun hall w hw => inStep_of_written h.phase h.orderly hall hw
      unfold AsyncWriter.apply
      rw [hreach]
      rfl
    | attrWrite k value under a =>
      have hfreed : s.state.stateFreed = false := Bool.not_eq_true' _ ▸ hreach
      have hcap : Event.capture (.attrWrite k value under) = true := rfl
      refine h.write (AsyncWriter.capturesAttr s.state.writer k) (VolStream.attrWrite s.state.writer k value under) a
        ?_ hfreed rfl rfl rfl (stepState_apply_capture s.state.writer hcap).1
        (orderly_apply h.orderly (.attrWrite k value under)) (.of_attrWrite _ k value under)
        fun hcaptured w hw => inStep_of_attrWritten h.phase h.orderly hcaptured hw
      unfold AsyncWriter.apply
      rw [hreach]
      rfl
    | notify r cb mallocFails => exact h.notify r cb mallocFails
    | cancel r =>
      have happly : s.state.apply (.cancel r) = ({ s.state with requests := (s.state.requests.requestCancel r).1 }, none) :=
        rfl
      rw [step_eq_after rfl rfl (by rw [happly]) rfl, happly]
      cases hr : s.state.requests.live.find? r with
      | none =>
        rw [Requests.requestCancel, hr]
        exact h
      | some c =>
        rw [Requests.requestCancel, hr]
        exact h.letGo hr
    | free r =>
      have happly : s.state.apply (.free r) = ({ s.state with requests := s.state.requests.requestFree r }, none) := rfl
      rw [step_eq_after rfl rfl (by rw [happly]) rfl, happly]
      cases hr : s.state.requests.live.find? r with
      | none =>
        rw [Requests.requestFree, hr]
        exact h
      | some c =>
        rw [Requests.requestFree, hr]
        exact h.letGo hr
    | fileClose underFails =>
      have happly : s.state.apply (.fileClose underFails) = (s.state.close underFails, none) := by
        unfold AsyncWriter.apply
        rw [hreach]
        rfl
      rw [step_eq_after rfl rfl (by rw [happly]) rfl, happly]
      exact h.close fun hfails => hadm (by rw [hfails])
    | stateFree =>
      have happly : s.state.apply .stateFree
          = ({ s.state with requests := s.state.requests.abandon, stateFreed := true }, none) := by
        unfold AsyncWriter.apply
        rw [hreach]
        rfl
      unfold AsyncWriter.reachable at hreach
      rw [Bool.and_eq_true, Bool.not_eq_true'] at hreach
      obtain ⟨hfreed, hclosed⟩ := hreach
      obtain ⟨born, hkeeps⟩ := h.keeps
      rw [hfreed] at hkeeps
      rw [step_eq_after rfl rfl (by rw [happly]) rfl, happly]
      constructor
      · exact ⟨born, hkeeps.abandon⟩
      · exact h.phase
      · exact h.orderly
      · exact h.closed
      · exact fun _ => hclosed
      · exact fun _ => .inr hclosed
      · exact h.openStep
      · exact h.originBy
      · exact h.places
      · exact h.ended
      · exact h.replayed

/-! ## Runs -/

theorem inv_run {config : Config} {events : List AsyncEvent} (hok : Runs.Meets step Admissible (init config) events) :
    (Runs.run step (init config) events).Inv :=
  Runs.run_inv (P := Inv) (fun _ _ h hadm => inv_step h hadm) (inv_init config) hok

/-- A step's end stays what it was. -/
theorem endings_step (h : s.Inv) (ev : AsyncEvent) {k : Nat} {e : Ending} (he : s.endings.find? k = some e) :
    (s.step ev).endings.find? k = some e := by
  show Table.find? (match s.state.ending ev with
    | none => s.endings
    | some e => s.endings.set s.begun e) k = some e
  cases hend : s.state.ending ev with
  | none => exact he
  | some e' =>
    have hin : s.state.writer.core.stepState = .inStep := by
      unfold AsyncWriter.ending at hend
      split at hend
      · simp only [Option.ite_none_right_eq_some] at hend
        exact hend.1.2
      · cases hend
    have hne : s.begun ≠ k := by
      intro hk
      rw [← hk, h.openStep hin] at he
      cases he
    rw [Table.find?_set, if_neg hne]
    exact he

theorem endings_run (h : s.Inv) {events : List AsyncEvent} (hok : Runs.Meets step Admissible s events) {k : Nat}
    {e : Ending} (he : s.endings.find? k = some e) : (Runs.run step s events).endings.find? k = some e := by
  induction events generalizing s with
  | nil => exact he
  | cons ev events ih => exact ih (inv_step h hok.1) hok.2 (endings_step h ev he)

/-- A one-byte write for a caller that wants a request. -/
def writeByteFor (h : Handle) (r c : Addr) : AsyncEvent :=
  .datasetWrite [⟨h, nativeUchar, none, none, [[7]], none, none⟩] ⟨some c, some r⟩

/-- Steps of one dataset each; a reader has acknowledged step 0 only. Request 1 is of the first step, with a
callback, and request 2 of the second, which is dropped. -/
def discardingRequests : List AsyncEvent :=
  [.call (.setQueuePolicy .discard 0),
    .call (.beginStep [] 0), .call (createByte 0 ['a']), writeByteFor 0 1 10, writeByteFor 0 3 12, .notify 3 7 false,
    .call (.closeHandle 0), .call (.endStep .lagging),
    .call (.beginStep [] 1), .call (createByte 1 ['a']), writeByteFor 1 2 11, .call (.closeHandle 1),
    .call (.endStep .lagging)]

theorem discardingRequests_admissible : Runs.Meets step Admissible (init .staging) discardingRequests :=
  ⟨nofun, nofun, nofun, nofun, nofun, nofun, nofun, nofun, nofun, nofun, nofun, nofun, nofun, trivial⟩

end Followed

end VolStream
