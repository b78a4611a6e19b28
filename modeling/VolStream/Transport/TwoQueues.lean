import VolStream.Transport.Diaspora

/-!
# One log, two queues

The Mercury transport keeps step markers and items in two FIFO queues, each drained by its own wait.
The log transport drains one log from both waits: `pump` parks the items it passes on the way to a
marker, but not the markers it passes on the way to an item. `diaspora_queues` says that the log
transport returns, call by call, what the two queues return, in every run whose waits for data pass no
marker.
-/

namespace VolStream

/-- What can happen to the two queues: an event arrives, or one of the waits is called. -/
inductive QueueAct where
  | arrive
  | waitStep
  | waitData
deriving DecidableEq, Repr

def QueueAct.act : QueueAct → DsaAct
  | .arrive => .arrive
  | .waitStep => .waitStep
  | .waitData => .waitData

variable {α : Type}

/-! ## The Mercury queues -/

/-- `pending` and `data_queue`. -/
structure Queues (α : Type) where
  pending : List (Nat × Nat)
  dataQueue : List (DsaItem α)

-- what an event brings is queued behind what is there
def Queues.enqueue (q : Queues α) (markers : List (Nat × Nat)) (items : List (DsaItem α)) : Queues α :=
  ⟨q.pending ++ markers, q.dataQueue ++ items⟩

/-- `vs_tr_reader_wait_step_ready` and `vs_tr_reader_wait_data` of `tr_mercury.c`: take the front, if there is
one. -/
def Queues.wait (q : Queues α) : QueueAct → Queues α
  | .arrive => q
  | .waitStep => { q with pending := q.pending.tail }
  | .waitData => { q with dataQueue := q.dataQueue.tail }

def Queues.markerReturned (q : Queues α) : QueueAct → List (Nat × Nat)
  | .waitStep => q.pending.head?.toList
  | _ => []

def Queues.itemReturned (q : Queues α) : QueueAct → List (DsaItem α)
  | .waitData => q.dataQueue.head?.toList
  | _ => []

/-! ## The log beside the queues -/

/-- The marker of an event. -/
def DsaEvent.marker : DsaEvent α → Option (Nat × Nat)
  | .step physicalStep wallTimeNs => some (physicalStep, wallTimeNs)
  | _ => none

variable [Zero α]

/-- The items an event brings to a reader subscribed as it is. -/
def DsaReader.brings (tr : DsaReader α) (event : DsaEvent α) : List (DsaItem α) := tr.itemsOf ⟨event, tr.select event⟩

/-- Both transports, fed the same events. -/
def bothStep (s : DsaReader α × Queues α) (act : QueueAct) : DsaReader α × Queues α :=
  (s.1.step act.act, match act, s.1.log with
    | .arrive, event :: _ => s.2.enqueue event.marker.toList (s.1.brings event)
    | _, _ => s.2.wait act)

/-- The queues hold what the log still has for each wait. -/
structure Beside (s : DsaReader α × Queues α) : Prop where
  pending : s.2.pending = s.1.arrived.filterMap (·.event.marker)
  dataQueue : s.2.dataQueue = s.1.ready ++ s.1.arrived.flatMap s.1.itemsOf

/-- A wait for data passes no marker. -/
def DsaReader.PassesNoMarker (tr : DsaReader α) : QueueAct → Prop
  | .waitData => tr.ready = [] → ∀ p ∈ tr.pumped false tr.arrived, p.event.marker = none
  | _ => True

omit [Zero α] in
theorem DsaReader.stops_true (tr : DsaReader α) (p : Pulled α) : tr.stops true p = p.event.marker.isSome := by
  unfold DsaReader.stops DsaEvent.marker
  cases p.event <;> simp

omit [Zero α] in
/-- Splitting by some runs gives items exactly when there are runs. -/
theorem splitRuns_eq_nil_iff {flat : List α} {label : List α → Run → DsaItem α} {cursor : Nat} {runs : List Run}
    (hroom : cursor + (runs.map Run.count).sum ≤ flat.length) : splitRuns flat label cursor runs = [] ↔ runs = [] := by
  cases runs with
  | nil => simp [splitRuns]
  | cons r runs =>
    rw [List.map_cons, List.sum_cons] at hroom
    rw [splitRuns, if_neg (by omega)]
    simp

theorem length_flatPayload (data : List α) (total : Nat) : (flatPayload data total).length = total := by
  rw [flatPayload, List.length_append, List.length_take, List.length_replicate]
  omega

/-- An event ends a wait for data exactly when it brings items. -/
theorem DsaReader.stops_false (tr : DsaReader α) (p : Pulled α) : tr.stops false p = !(tr.itemsOf p).isEmpty := by
  unfold DsaReader.stops DsaReader.itemsOf
  cases p.event with
  | step => rfl
  | other => rfl
  | data ev =>
    simp only [Bool.not_false, Bool.true_and]
    congr 1
    unfold DsaReader.runs DsaReader.split
    cases tr.subs ev.path with
    | none => rfl
    | some sub =>
      simp only [Option.map_some, Option.getD_some]
      have hiff := @splitRuns_eq_nil_iff _
        (flatPayload (pulledData ev p.asked) ((runsFor tr.selecting sub ev).1.map Run.count).sum)
        (fun buf r => ⟨ev.step, ev.path, buf, r.start, r.count, ev.typeEnc,
          ⟨(runsFor tr.selecting sub ev).2, sub.predEnc.isSome, false, sub.hasType⟩⟩)
        0 (runsFor tr.selecting sub ev).1 (by rw [Nat.zero_add, length_flatPayload])
      rw [Bool.eq_iff_iff, List.isEmpty_iff, List.isEmpty_iff]
      exact hiff.symm

omit [Zero α] in
/-- A call pumps everything, or up to the first event that ends it. -/
theorem DsaReader.pumped_cases (tr : DsaReader α) (wantStep : Bool) (l : List (Pulled α)) :
    (l.any (tr.stops wantStep) = true ∧ ∃ before p, tr.pumped wantStep l = before ++ [p] ∧
        tr.stops wantStep p = true ∧ ∀ p' ∈ before, tr.stops wantStep p' = false) ∨
      (l.any (tr.stops wantStep) = false ∧ tr.pumped wantStep l = l ∧ tr.kept wantStep l = [] ∧
        ∀ p ∈ l, tr.stops wantStep p = false) := by
  induction l with
  | nil => exact .inr ⟨rfl, rfl, rfl, List.forall_mem_nil _⟩
  | cons p l ih =>
    unfold pumped kept at ih ⊢
    rw [List.findIdx_cons, List.any_cons]
    cases hstop : tr.stops wantStep p with
    | true => exact .inl ⟨rfl, [], p, rfl, hstop, List.forall_mem_nil _⟩
    | false =>
      rw [cond_false, Bool.false_or, List.take_succ_cons, List.drop_succ_cons]
      rcases ih with ⟨hany, before, q, hpumped, hq, hbefore⟩ | ⟨hany, hpumped, hkept, hall⟩
      · exact .inl ⟨hany, p :: before, q, by rw [hpumped]; rfl, hq, List.forall_mem_cons.mpr ⟨hstop, hbefore⟩⟩
      · exact .inr ⟨hany, by rw [hpumped], hkept, List.forall_mem_cons.mpr ⟨hstop, hall⟩⟩

/-- A wait for a step that ends has stopped at the first marker. -/
theorem DsaReader.pump_marker (l : List (Pulled α)) (tr : DsaReader α) (h : (pump true l tr).2 = true) :
    (l.filterMap (·.event.marker)).head? = some ((pump true l tr).1.curStep, (pump true l tr).1.curWallNs) := by
  induction l generalizing tr with
  | nil => cases h
  | cons p rest ih =>
    have hpump : pump true (p :: rest) tr = if tr.stops true p then ({ tr.handle p with arrived := rest }, true)
        else pump true rest { tr.handle p with arrived := rest } := rfl
    rw [hpump] at h ⊢
    rw [stops_true] at h ⊢
    cases hevent : p.event with
    | step physicalStep wallTimeNs => simp [hevent, DsaEvent.marker, handle]
    | data ev =>
      simp only [hevent, DsaEvent.marker, Option.isSome_none, Bool.false_eq_true, if_false] at h ⊢
      rw [List.filterMap_cons_none (by simp [hevent])]
      exact ih _ h
    | other =>
      simp only [hevent, DsaEvent.marker, Option.isSome_none, Bool.false_eq_true, if_false] at h ⊢
      rw [List.filterMap_cons_none (by simp [hevent])]
      exact ih _ h

/-! ## The two waits -/

section Waits

variable {tr : DsaReader α} {q : Queues α}

/-- The wait for a step returns the front marker, and leaves the queues as taking it does. -/
theorem waitStep_beside (h : Beside (tr, q)) :
    Beside (tr.step .waitStep, q.wait .waitStep) ∧ tr.markerReturned .waitStep = q.markerReturned .waitStep := by
  obtain ⟨hsubs, hsel, -, harrived, hready, hdone⟩ := DsaReader.pump_spec true tr.arrived tr
  have hpart := tr.pumped_append_kept true tr.arrived
  have hpending : q.pending = (tr.pumped true tr.arrived ++ tr.kept true tr.arrived).filterMap (·.event.marker) := by
    rw [hpart]
    exact h.pending
  have hqueue : q.dataQueue = tr.ready ++ (tr.pumped true tr.arrived ++ tr.kept true tr.arrived).flatMap tr.itemsOf := by
    rw [hpart]
    exact h.dataQueue
  have hstate : tr.waitStepReady.1 = (DsaReader.pump true tr.arrived tr).1 := by
    unfold DsaReader.waitStepReady
    split <;> rename_i hresult <;> rw [hresult]
  have hresult : tr.waitStepReady.2 = if (DsaReader.pump true tr.arrived tr).2 then
      some ((DsaReader.pump true tr.arrived tr).1.curStep, (DsaReader.pump true tr.arrived tr).1.curWallNs) else none := by
    unfold DsaReader.waitStepReady
    split <;> rename_i hresult <;> rw [hresult] <;> rfl
  -- the items passed on the way stay in their queue
  have hitems : (Queues.wait q .waitStep).dataQueue = tr.waitStepReady.1.ready ++
      tr.waitStepReady.1.arrived.flatMap tr.waitStepReady.1.itemsOf := by
    rw [hstate, hready, harrived, DsaReader.itemsOf_congr hsubs hsel, List.append_assoc, ← List.flatMap_append]
    exact hqueue
  have hnoMarker : ∀ l : List (Pulled α), (∀ p ∈ l, tr.stops true p = false) → l.filterMap (·.event.marker) = [] := by
    intro l hl
    rw [List.filterMap_eq_nil_iff]
    intro p hp
    have := hl p hp
    rwa [DsaReader.stops_true, Option.isSome_eq_false_iff, Option.isNone_iff_eq_none] at this
  rcases tr.pumped_cases true tr.arrived with ⟨hany, before, p, hpumped, hp, hbefore⟩ | ⟨hany, hpumped, hkept, hall⟩
  · rw [DsaReader.stops_true, Option.isSome_iff_exists] at hp
    obtain ⟨m, hm⟩ := hp
    have hfront : q.pending = m :: (tr.kept true tr.arrived).filterMap (·.event.marker) := by
      rw [hpending, hpumped, List.filterMap_append, List.filterMap_append, hnoMarker before hbefore]
      simp [hm]
    have hmark := DsaReader.pump_marker tr.arrived tr (hdone.trans hany)
    rw [← h.pending, hfront] at hmark
    refine ⟨⟨?_, hitems⟩, ?_⟩
    · show q.pending.tail = tr.waitStepReady.1.arrived.filterMap _
      rw [hstate, harrived, hfront, List.tail_cons]
    · show tr.waitStepReady.2.toList = q.pending.head?.toList
      rw [hresult, hdone, hany, if_pos rfl, ← hmark, hfront]
  · have hnone : q.pending = [] := by
      rw [h.pending]
      exact hnoMarker tr.arrived hall
    refine ⟨⟨?_, hitems⟩, ?_⟩
    · show q.pending.tail = tr.waitStepReady.1.arrived.filterMap _
      rw [hstate, harrived, hkept, hnone]
      rfl
    · show tr.waitStepReady.2.toList = q.pending.head?.toList
      rw [hresult, hdone, hany, hnone]
      rfl

/-- The wait for data returns the front item, and leaves the queues as taking it does, if it passes no
marker. -/
theorem waitData_beside (h : Beside (tr, q)) (hpass : tr.PassesNoMarker .waitData) :
    Beside (tr.step .waitData, q.wait .waitData) ∧ tr.itemReturned .waitData = q.itemReturned .waitData := by
  by_cases hempty : tr.ready = []
  · obtain ⟨hsubs, hsel, -, harrived, hready, hdone⟩ := DsaReader.pump_spec false tr.arrived tr
    have hpart := tr.pumped_append_kept false tr.arrived
    have hmarkers : (tr.pumped false tr.arrived).filterMap (·.event.marker) = [] :=
      List.filterMap_eq_nil_iff.mpr (hpass hempty)
    have hpending : q.pending = (tr.kept false tr.arrived).filterMap (·.event.marker) := by
      have hp : q.pending = tr.arrived.filterMap (·.event.marker) := h.pending
      rw [hp, ← hpart, List.filterMap_append, hmarkers, hpart, List.nil_append]
    have hqueue : q.dataQueue = (tr.pumped false tr.arrived).flatMap tr.itemsOf ++
        (tr.kept false tr.arrived).flatMap tr.itemsOf := by
      have hq : q.dataQueue = tr.ready ++ tr.arrived.flatMap tr.itemsOf := h.dataQueue
      rw [hq, hempty, List.nil_append, ← List.flatMap_append, hpart]
    have hnoItem : ∀ l : List (Pulled α), (∀ p ∈ l, tr.stops false p = false) → l.flatMap tr.itemsOf = [] := by
      intro l hl
      rw [List.flatMap_eq_nil_iff]
      intro p hp
      have := hl p hp
      rwa [DsaReader.stops_false, Bool.not_eq_false', List.isEmpty_iff] at this
    rw [hempty, List.nil_append] at hready
    have hnone : tr.ready.isEmpty = true := by rw [hempty, List.isEmpty_nil]
    rcases tr.pumped_cases false tr.arrived with ⟨hany, before, p, hpumped, hp, hbefore⟩ | ⟨hany, hpumped, hkept, hall⟩
    · have hitems : (tr.pumped false tr.arrived).flatMap tr.itemsOf = tr.itemsOf p := by
        rw [hpumped, List.flatMap_append, hnoItem before hbefore]
        simp
      rw [DsaReader.stops_false] at hp
      obtain ⟨it, its, hits⟩ : ∃ it its, tr.itemsOf p = it :: its := by
        apply List.exists_cons_of_ne_nil
        rintro hnil
        rw [hnil] at hp
        cases hp
      have hpop : tr.waitData = (DsaReader.pump false tr.arrived tr).1.popReady := by
        rw [DsaReader.waitData, if_pos hnone]
        split
        · rename_i hresult
          rw [hresult]
        · rename_i hresult
          rw [hresult] at hdone
          rw [hany] at hdone
          cases hdone
      rw [hitems, hits] at hready hqueue
      refine ⟨⟨?_, ?_⟩, ?_⟩
      · show q.pending = tr.waitData.1.arrived.filterMap _
        rw [hpop, hpending]
        show _ = (DsaReader.pump false tr.arrived tr).1.arrived.filterMap _
        rw [harrived]
      · show q.dataQueue.tail = tr.waitData.1.ready ++ tr.waitData.1.arrived.flatMap tr.waitData.1.itemsOf
        rw [hpop]
        show q.dataQueue.tail = (DsaReader.pump false tr.arrived tr).1.ready.tail ++
          (DsaReader.pump false tr.arrived tr).1.arrived.flatMap
            (DsaReader.itemsOf (DsaReader.pump false tr.arrived tr).1.popReady.1)
        rw [hready, harrived, hqueue, @DsaReader.itemsOf_congr _ _ tr
          (DsaReader.pump false tr.arrived tr).1.popReady.1 hsubs hsel]
        rfl
      · show tr.waitData.2.toList = q.dataQueue.head?.toList
        rw [hpop, hqueue]
        show (DsaReader.pump false tr.arrived tr).1.ready.head?.toList = _
        rw [hready]
        rfl
    · have hfail : tr.waitData = ((DsaReader.pump false tr.arrived tr).1, none) := by
        rw [DsaReader.waitData, if_pos hnone]
        split
        · rename_i hresult
          rw [hresult, hany] at hdone
          cases hdone
        · rename_i hresult
          rw [hresult]
      rw [hpumped, hnoItem tr.arrived hall] at hready
      rw [hpumped, hnoItem tr.arrived hall, hkept] at hqueue
      refine ⟨⟨?_, ?_⟩, ?_⟩
      · show q.pending = tr.waitData.1.arrived.filterMap _
        rw [hfail, hpending, harrived]
      · show q.dataQueue.tail = tr.waitData.1.ready ++ tr.waitData.1.arrived.flatMap tr.waitData.1.itemsOf
        rw [hfail, hqueue, hready, harrived, hkept]
        rfl
      · show tr.waitData.2.toList = q.dataQueue.head?.toList
        rw [hfail, hqueue]
        rfl
  · obtain ⟨it, its, hits⟩ := List.exists_cons_of_ne_nil hempty
    have hpop : tr.waitData = tr.popReady := by
      unfold DsaReader.waitData
      rw [hits]
      rfl
    have hqueue : q.dataQueue = (it :: its) ++ tr.arrived.flatMap tr.itemsOf := hits ▸ h.dataQueue
    refine ⟨⟨?_, ?_⟩, ?_⟩
    · show q.pending = tr.waitData.1.arrived.filterMap _
      rw [hpop]
      exact h.pending
    · show q.dataQueue.tail = tr.waitData.1.ready ++ tr.waitData.1.arrived.flatMap tr.waitData.1.itemsOf
      rw [hpop, hqueue]
      show its ++ _ = tr.ready.tail ++ tr.arrived.flatMap (DsaReader.itemsOf tr.popReady.1)
      rw [hits, @DsaReader.itemsOf_congr _ _ tr tr.popReady.1 rfl rfl]
      rfl
    · show tr.waitData.2.toList = q.dataQueue.head?.toList
      rw [hpop, hqueue]
      show tr.ready.head?.toList = _
      rw [hits]
      rfl

end Waits

/-! ## A whole run -/

/-- No act of the queues changes the subscriptions, and only an arrival the log. -/
theorem QueueAct.frame (tr : DsaReader α) (act : QueueAct) :
    (tr.step act.act).subs = tr.subs ∧ (tr.step act.act).selecting = tr.selecting ∧
      (act ≠ .arrive → (tr.step act.act).log = tr.log) := by
  have hpump : ∀ wantStep, (DsaReader.pump wantStep tr.arrived tr).1.subs = tr.subs ∧
      (DsaReader.pump wantStep tr.arrived tr).1.selecting = tr.selecting ∧
      (DsaReader.pump wantStep tr.arrived tr).1.log = tr.log := fun wantStep =>
    let ⟨hsubs, hsel, hlog, _⟩ := DsaReader.pump_spec wantStep tr.arrived tr
    ⟨hsubs, hsel, hlog⟩
  cases act with
  | arrive =>
    refine ⟨?_, ?_, fun hne => absurd rfl hne⟩
    · show tr.arrive.subs = tr.subs
      unfold DsaReader.arrive
      split <;> rfl
    · show tr.arrive.selecting = tr.selecting
      unfold DsaReader.arrive
      split <;> rfl
  | waitStep =>
    obtain ⟨hsubs, hsel, hlog⟩ := hpump true
    have hstate : (tr.step .waitStep) = (DsaReader.pump true tr.arrived tr).1 := by
      show tr.waitStepReady.1 = _
      unfold DsaReader.waitStepReady
      split <;> rename_i hresult <;> rw [hresult]
    exact hstate ▸ ⟨hsubs, hsel, fun _ => hlog⟩
  | waitData =>
    obtain ⟨hsubs, hsel, hlog⟩ := hpump false
    show tr.waitData.1.subs = tr.subs ∧ tr.waitData.1.selecting = tr.selecting ∧ (_ → tr.waitData.1.log = tr.log)
    unfold DsaReader.waitData
    split
    · split
      · rename_i hresult
        rw [hresult] at hsubs hsel hlog
        exact ⟨hsubs, hsel, fun _ => hlog⟩
      · rename_i hresult
        rw [hresult] at hsubs hsel hlog
        exact ⟨hsubs, hsel, fun _ => hlog⟩
    · exact ⟨rfl, rfl, fun _ => rfl⟩

theorem DsaReader.brings_congr {tr tr' : DsaReader α} (hsubs : tr'.subs = tr.subs)
    (hsel : tr'.selecting = tr.selecting) : tr'.brings = tr.brings := by
  funext event
  have hselect : tr'.select event = tr.select event := by
    cases event with
    | data ev => exact congrFun (DsaReader.runs_congr hsubs hsel) ev
    | step => rfl
    | other => rfl
  rw [DsaReader.brings, DsaReader.brings, DsaReader.itemsOf_congr hsubs hsel, hselect]

/-- The markers a reader has not been given yet, and the items. -/
def DsaReader.markersLeft (tr : DsaReader α) : List (Nat × Nat) :=
  tr.arrived.filterMap (·.event.marker) ++ tr.log.filterMap DsaEvent.marker

def DsaReader.itemsLeft (tr : DsaReader α) : List (DsaItem α) :=
  tr.ready ++ tr.arrived.flatMap tr.itemsOf ++ tr.log.flatMap tr.brings

/-- What the two transports return at one act. -/
def SameReturned (s : DsaReader α × Queues α) (act : QueueAct) : Prop :=
  s.1.markerReturned act.act = s.2.markerReturned act ∧ s.1.itemReturned act.act = s.2.itemReturned act

omit [Zero α] in
theorem head_append_tail {β : Type} (l : List β) : l.head?.toList ++ l.tail = l := by
  cases l <;> rfl

/-- One act: the transports return the same and stay beside each other, and what is returned is taken off what
is left, from the front. -/
theorem bothStep_beside {s : DsaReader α × Queues α} (h : Beside s) {act : QueueAct}
    (hpass : s.1.PassesNoMarker act) :
    Beside (bothStep s act) ∧ SameReturned s act ∧
      s.1.markerReturned act.act ++ (bothStep s act).1.markersLeft = s.1.markersLeft ∧
      s.1.itemReturned act.act ++ (bothStep s act).1.itemsLeft = s.1.itemsLeft := by
  obtain ⟨tr, q⟩ := s
  obtain ⟨hsubs, hsel, hlog⟩ := act.frame tr
  have hbrings := DsaReader.brings_congr hsubs hsel
  -- what is left, by the queues
  have hleft : ∀ s : DsaReader α × Queues α, Beside s →
      s.1.markersLeft = s.2.pending ++ s.1.log.filterMap DsaEvent.marker ∧
        s.1.itemsLeft = s.2.dataQueue ++ s.1.log.flatMap s.1.brings := by
    intro s hs
    rw [DsaReader.markersLeft, DsaReader.itemsLeft, hs.pending, hs.dataQueue]
    exact ⟨rfl, rfl⟩
  obtain ⟨hmarkers, hitems⟩ := hleft (tr, q) h
  cases act with
  | arrive =>
    cases hevents : tr.log with
    | nil =>
      have hsame : bothStep (tr, q) .arrive = (tr, q) := by
        simp only [bothStep, QueueAct.act, DsaReader.step, DsaReader.arrive, hevents, Queues.wait]
      rw [hsame]
      exact ⟨h, ⟨rfl, rfl⟩, rfl, rfl⟩
    | cons event rest =>
      have hstep : bothStep (tr, q) .arrive =
          ({ tr with log := rest, arrived := tr.arrived ++ [⟨event, tr.select event⟩] },
            q.enqueue event.marker.toList (tr.brings event)) := by
        simp only [bothStep, QueueAct.act, DsaReader.step, DsaReader.arrive, hevents]
      have hbeside : Beside (bothStep (tr, q) .arrive) := by
        rw [hstep]
        constructor
        · show q.pending ++ event.marker.toList = (tr.arrived ++ [_]).filterMap _
          have hp : q.pending = tr.arrived.filterMap (·.event.marker) := h.pending
          rw [List.filterMap_append, hp]
          cases hm : event.marker <;> simp [hm]
        · show q.dataQueue ++ tr.brings event = tr.ready ++ (tr.arrived ++ [_]).flatMap tr.itemsOf
          have hq : q.dataQueue = tr.ready ++ tr.arrived.flatMap tr.itemsOf := h.dataQueue
          rw [List.flatMap_append, hq, List.append_assoc]
          simp [DsaReader.brings]
      obtain ⟨hmarkers', hitems'⟩ := hleft _ hbeside
      refine ⟨hbeside, ⟨rfl, rfl⟩, ?_, ?_⟩
      · rw [hmarkers', hmarkers, hstep, hevents]
        show q.pending ++ event.marker.toList ++ _ = _
        cases hm : event.marker <;> simp [hm]
      · rw [hitems', hitems, hstep, hevents]
        show q.dataQueue ++ tr.brings event ++ rest.flatMap tr.brings = _
        rw [List.flatMap_cons, List.append_assoc]
  | waitStep =>
    obtain ⟨hbeside, hreturned⟩ := waitStep_beside h
    have hstep : bothStep (tr, q) .waitStep = (tr.step .waitStep, q.wait .waitStep) := rfl
    obtain ⟨hmarkers', hitems'⟩ := hleft _ hbeside
    have hlog' : (tr.step .waitStep).log = tr.log := hlog (by decide)
    have hbrings' : (tr.step .waitStep).brings = tr.brings := hbrings
    refine ⟨hbeside, ⟨hreturned, rfl⟩, ?_, ?_⟩
    · show tr.markerReturned .waitStep ++ (tr.step .waitStep).markersLeft = _
      rw [hmarkers, hmarkers', hreturned, hlog', ← List.append_assoc]
      exact congrArg (· ++ _) (head_append_tail q.pending)
    · show (tr.step .waitStep).itemsLeft = _
      rw [hitems, hitems', hlog', hbrings']
      rfl
  | waitData =>
    obtain ⟨hbeside, hreturned⟩ := waitData_beside h hpass
    have hstep : bothStep (tr, q) .waitData = (tr.step .waitData, q.wait .waitData) := rfl
    obtain ⟨hmarkers', hitems'⟩ := hleft _ hbeside
    have hlog' : (tr.step .waitData).log = tr.log := hlog (by decide)
    have hbrings' : (tr.step .waitData).brings = tr.brings := hbrings
    refine ⟨hbeside, ⟨rfl, hreturned⟩, ?_, ?_⟩
    · show (tr.step .waitData).markersLeft = _
      rw [hmarkers, hmarkers', hlog']
      rfl
    · show tr.itemReturned .waitData ++ (tr.step .waitData).itemsLeft = _
      rw [hitems, hitems', hreturned, hlog', hbrings', ← List.append_assoc]
      exact congrArg (· ++ _) (head_append_tail q.dataQueue)

/-- In every run whose waits for data pass no marker, the log transport returns at each call what the two queues
return; the markers it has returned and those left, in order, are the markers of the log, and so for the items. -/
theorem diaspora_queues {s : DsaReader α × Queues α} (h : Beside s) {acts : List QueueAct}
    (hpass : Runs.Meets bothStep (fun s act => s.1.PassesNoMarker act) s acts) :
    Runs.Meets bothStep SameReturned s acts ∧
      Runs.observed bothStep (fun s act => s.1.markerReturned act.act) s acts ++
        (Runs.run bothStep s acts).1.markersLeft = s.1.markersLeft ∧
      Runs.observed bothStep (fun s act => s.1.itemReturned act.act) s acts ++
        (Runs.run bothStep s acts).1.itemsLeft = s.1.itemsLeft := by
  induction acts generalizing s with
  | nil => exact ⟨trivial, rfl, rfl⟩
  | cons act acts ih =>
    obtain ⟨hbeside, hsame, hmarkers, hitems⟩ := bothStep_beside h hpass.1
    obtain ⟨hrest, hmarkers', hitems'⟩ := ih hbeside hpass.2
    refine ⟨⟨hsame, hrest⟩, ?_, ?_⟩
    · rw [Runs.observed, Runs.run_cons, List.append_assoc, hmarkers', hmarkers]
    · rw [Runs.observed, Runs.run_cons, List.append_assoc, hitems', hitems]

/-- A reader of a log that holds a step marker and then a write, subscribed to all of it. -/
def markedReader : DsaReader Nat :=
  ⟨false, fun path => if path = ['/', 'x'] then some ⟨0, uint64Max, none, false, none⟩ else none,
    [.step 0 0, .data fourWritten], [], [], 0, 0, false⟩

theorem markedReader_beside : Beside (markedReader, ⟨[], []⟩) := ⟨rfl, rfl⟩

/-- Waiting for the step first, it is given both. -/
theorem markedReader_stepFirst : Runs.Meets bothStep SameReturned (markedReader, ⟨[], []⟩)
    [.arrive, .arrive, .waitStep, .waitData] := by
  have hpass : Runs.Meets bothStep (fun s act => s.1.PassesNoMarker act) (markedReader, ⟨[], []⟩)
      [.arrive, .arrive, .waitStep, .waitData] := by
    refine ⟨trivial, trivial, trivial, fun _ p hp => ?_, trivial⟩
    have hp : p ∈ [(⟨.data fourWritten, [⟨0, 4⟩]⟩ : Pulled Nat)] := hp
    rw [List.mem_singleton.mp hp]
    rfl
  exact (diaspora_queues markedReader_beside hpass).1

/-- Waiting for data first, it is never given the step. -/
theorem markedReader_dataFirst : ¬Runs.Meets bothStep SameReturned (markedReader, ⟨[], []⟩)
    [.arrive, .arrive, .waitData, .waitStep] := by
  rintro ⟨-, -, -, hstep, -⟩
  have hreturned := hstep.1
  revert hreturned
  decide

end VolStream
