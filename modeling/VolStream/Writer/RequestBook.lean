import VolStream.Writer.Requests

/-!
# What is to be said about requests

`Book` records, apart from how the code goes about it, which step each request was made in, how each step that
reached its `H5Fend_step` ended, and which callbacks were accepted for which step. From that follows what a
request must report (`Book.report`) and which callbacks must have been made (`Book.calls`). `Requests.Keeps`
says that cells, counts and lists agree with the book; each routine keeps it so.
-/

namespace VolStream

/-- `outcome k` is how the `H5Fend_step` of step `k` returned, once it has. -/
structure Book where
  step : Nat
  outcome : Nat → Option Bool
  madeIn : Addr → Option Nat
  accepted : List (Callback × Nat)

namespace Book

/-- What a request of step `k` reports. -/
def report (b : Book) (k : Nat) : RequestStatus :=
  match b.outcome k with
  | none => .inProgress
  | some true => .succeed
  | some false => .fail

/-- The callbacks to be made: those accepted for steps that have ended. -/
def calls (b : Book) : List (Callback × RequestStatus) :=
  b.accepted.filterMap fun p => (b.outcome p.2).map fun _ => (p.1, b.report p.2)

/-- The callbacks accepted for the present step. -/
def pending (b : Book) : List Callback := (b.accepted.filter fun p => p.2 = b.step).map (·.1)

-- the status word of a cell of step `k`
def statusWord (b : Book) (k : Nat) : Int :=
  match b.outcome k with
  | none => 0
  | some true => 1
  | some false => -1

/-- A request made in the present step. -/
def request (b : Book) (r : Addr) : Book := { b with madeIn := Function.update b.madeIn r (some b.step) }

/-- A callback accepted for step `k`. -/
def accept (b : Book) (cb : Callback) (k : Nat) : Book := { b with accepted := b.accepted ++ [(cb, k)] }

/-- The present step's `H5Fend_step` has returned. -/
def ended (b : Book) (ok : Bool) : Book := { b with outcome := Function.update b.outcome b.step (some ok) }

def nextStep (b : Book) : Book := { b with step := b.step + 1 }

theorem statusWord_eq_zero_iff (b : Book) (k : Nat) : b.statusWord k = 0 ↔ b.outcome k = none := by
  unfold statusWord
  cases b.outcome k with
  | none => simp
  | some ok => cases ok <;> simp

theorem toldStatus_statusWord {b : Book} {k : Nat} (h : b.outcome k ≠ none) :
    toldStatus (b.statusWord k) = b.report k := by
  unfold statusWord report toldStatus
  cases hk : b.outcome k with
  | none => exact absurd hk h
  | some ok => cases ok <;> rfl

theorem calls_accept (b : Book) (cb : Callback) (k : Nat) :
    (b.accept cb k).calls = b.calls ++ ((b.outcome k).map fun _ => (cb, b.report k)).toList := by
  show List.filterMap _ (b.accepted ++ [(cb, k)]) = _
  rw [List.filterMap_append]
  rfl

theorem pending_accept (b : Book) (cb : Callback) (k : Nat) :
    (b.accept cb k).pending = b.pending ++ if k = b.step then [cb] else [] := by
  show ((b.accepted ++ [(cb, k)]).filter fun p => decide (p.2 = b.step)).map (·.1) = _
  rw [List.filter_append, List.map_append]
  congr 1
  by_cases hk : k = b.step
  · simp [hk]
  · simp [hk]

theorem report_ended {b : Book} {k : Nat} (ok : Bool) (h : k ≠ b.step) : (b.ended ok).report k = b.report k := by
  have hout : (b.ended ok).outcome k = b.outcome k := Function.update_of_ne h _ _
  rw [report, report, hout]

theorem statusWord_ended {b : Book} {k : Nat} (ok : Bool) (h : k ≠ b.step) :
    (b.ended ok).statusWord k = b.statusWord k := by
  have hout : (b.ended ok).outcome k = b.outcome k := Function.update_of_ne h _ _
  rw [statusWord, statusWord, hout]

/-- The end of a step makes the callbacks of that step due, and no others. -/
theorem calls_ended {b : Book} (h : b.outcome b.step = none) (ok : Bool) :
    (b.ended ok).calls.Perm (b.calls ++ b.pending.map fun cb => (cb, (b.ended ok).report b.step)) := by
  have hstep : ∀ l : List (Callback × Nat),
      (l.filterMap fun p => ((b.ended ok).outcome p.2).map fun _ => (p.1, (b.ended ok).report p.2)).Perm
        ((l.filterMap fun p => (b.outcome p.2).map fun _ => (p.1, b.report p.2)) ++
          ((l.filter fun p => decide (p.2 = b.step)).map (·.1)).map fun cb => (cb, (b.ended ok).report b.step)) := by
    intro l
    induction l with
    | nil => exact .refl _
    | cons p l ih =>
      by_cases hp : p.2 = b.step
      · have hnew : (b.ended ok).outcome p.2 = some ok := by
          rw [hp]
          exact Function.update_self _ _ _
        have hold : b.outcome p.2 = none := by rw [hp, h]
        rw [List.filterMap_cons_some (by rw [hnew]; rfl), List.filterMap_cons_none (by rw [hold]; rfl),
          List.filter_cons_of_pos (by simpa using hp), List.map_cons, List.map_cons, hp]
        exact (ih.cons _).trans List.perm_middle.symm
      · have hsame : (b.ended ok).outcome p.2 = b.outcome p.2 := Function.update_of_ne hp _ _
        rw [List.filter_cons_of_neg (by simpa using hp)]
        cases hout : b.outcome p.2 with
        | none =>
          rw [List.filterMap_cons_none (by rw [hsame, hout]; rfl), List.filterMap_cons_none (by rw [hout]; rfl)]
          exact ih
        | some ok' =>
          rw [List.filterMap_cons_some (by rw [hsame, hout]; rfl), List.filterMap_cons_some (by rw [hout]; rfl),
            report_ended ok hp]
          exact ih.cons _
  exact hstep b.accepted

end Book

namespace Requests

/-! ## References -/

/-- The count of a cell, 0 where there is none. -/
def count (q : Requests) (c : Addr) : Nat := ((q.cells c).map (·.refcount)).getD 0

/-- The references there are: the requests' and the file state's. -/
def refs (q : Requests) (c : Addr) : Nat :=
  (q.live.map (·.2)).count c + if q.currentCompletion = some c then 1 else 0

/-- What a cell holds besides its count. -/
def view (q : Requests) (c : Addr) : Option (Int × List Callback) :=
  (q.cells c).map fun cell => (cell.status, cell.notifyList)

theorem view_isSome (q : Requests) (c : Addr) : (q.view c).isSome = (q.cells c).isSome := Option.isSome_map

/-- Each request object is one, every cell has as many references as it counts, and none goes on without. -/
structure Counted (q : Requests) : Prop where
  nodup : q.live.keys.Nodup
  exact : ∀ c, q.count c = q.refs c
  positive : ∀ c, (q.cells c).isSome → 0 < q.count c

theorem isSome_of_count {q : Requests} {c : Addr} (h : 0 < q.count c) : (q.view c).isSome := by
  unfold count at h
  rw [view_isSome]
  cases hc : q.cells c with
  | none =>
    rw [hc] at h
    cases h
  | some cell => rfl

/-- A request's cell is there. -/
theorem Counted.held {q : Requests} (h : q.Counted) {r c : Addr} (hr : (r, c) ∈ q.live) : (q.view c).isSome := by
  have hcount : 0 < (q.live.map (·.2)).count c := List.count_pos_iff.mpr (List.mem_map_of_mem hr)
  refine isSome_of_count ?_
  rw [h.exact, refs]
  omega

/-- So is the step's. -/
theorem Counted.current {q : Requests} (h : q.Counted) {c : Addr} (hc : q.currentCompletion = some c) :
    (q.view c).isSome := by
  refine isSome_of_count ?_
  rw [h.exact, refs, if_pos hc]
  omega

theorem count_decref (q : Requests) (c c' : Addr) :
    (q.stepCompletionDecref c).count c' = q.count c' - if c = c' then 1 else 0 := by
  unfold stepCompletionDecref count
  cases hc : q.cells c with
  | none =>
    by_cases h : c = c'
    · subst h
      simp [hc]
    · simp [h]
  | some cell =>
    simp only [put]
    by_cases h : c = c'
    · subst h
      rw [Function.update_self, hc, if_pos rfl]
      by_cases hlast : cell.refcount - 1 = 0
      · simp [hlast]
      · simp [hlast]
    · rw [Function.update_of_ne (Ne.symm h), if_neg h]
      rfl

/-- Letting go of the last reference removes the cell; nothing else is seen to change. -/
theorem view_decref (q : Requests) (c c' : Addr) :
    (q.stepCompletionDecref c).view c' = if c = c' ∧ q.count c ≤ 1 then none else q.view c' := by
  unfold stepCompletionDecref count view
  cases hc : q.cells c with
  | none =>
    by_cases h : c = c'
    · subst h
      simp [hc]
    · simp [h]
  | some cell =>
    simp only [put]
    by_cases h : c = c'
    · subst h
      rw [Function.update_self, hc]
      by_cases hlast : cell.refcount ≤ 1
      · rw [if_pos (by omega), if_pos ⟨rfl, hlast⟩]
        rfl
      · rw [if_neg (by omega), if_neg (fun h => hlast h.2)]
        rfl
    · rw [Function.update_of_ne (Ne.symm h), if_neg (fun hand => h hand.1)]

theorem positive_decref {q : Requests} (h : q.Counted) (c c' : Addr) (hsome : ((q.stepCompletionDecref c).cells c').isSome) :
    0 < (q.stepCompletionDecref c).count c' := by
  rw [← view_isSome, view_decref] at hsome
  rw [count_decref]
  split at hsome
  · cases hsome
  · rename_i hkept
    rw [view_isSome] at hsome
    have hpos := h.positive c' hsome
    by_cases hcc : c = c'
    · subst hcc
      rw [if_pos rfl]
      have hmany : ¬ q.count c ≤ 1 := fun hle => hkept ⟨rfl, hle⟩
      omega
    · rw [if_neg hcc]
      omega

@[simp] theorem decref_live (q : Requests) (c : Addr) : (q.stepCompletionDecref c).live = q.live := by
  unfold stepCompletionDecref
  split <;> rfl

@[simp] theorem decref_current (q : Requests) (c : Addr) :
    (q.stepCompletionDecref c).currentCompletion = q.currentCompletion := by
  unfold stepCompletionDecref
  split <;> rfl

@[simp] theorem decref_called (q : Requests) (c : Addr) : (q.stepCompletionDecref c).called = q.called := by
  unfold stepCompletionDecref
  split <;> rfl

theorem counted_init : init.Counted := by
  refine ⟨List.nodup_nil, fun c => rfl, fun c hc => ?_⟩
  cases hc

/-- A request that goes takes its reference along. -/
theorem Counted.requestFree {q : Requests} (h : q.Counted) {r c : Addr} (hr : (r, c) ∈ q.live) :
    (q.deferredRequestFree r c).Counted := by
  refine ⟨Table.nodup_keys_filter h.nodup _, fun c' => ?_, fun c' hc' => positive_decref h c c' hc'⟩
  have hperm := ((Table.perm_cons_filter h.nodup hr).map (·.2)).count_eq c'
  rw [List.map_cons, List.count_cons] at hperm
  show (q.stepCompletionDecref c).count c' = _
  rw [count_decref, h.exact, refs, refs]
  simp only [deferredRequestFree, decref_current]
  by_cases hcc : c = c'
  · simp only [hcc, beq_self_eq_true, if_true] at hperm ⊢
    omega
  · simp only [beq_eq_false_iff_ne.mpr hcc, Bool.false_eq_true, if_false, hcc] at hperm ⊢
    omega

/-- The file state lets go of its cell. -/
theorem Counted.letGo {q : Requests} (h : q.Counted) {c : Addr} (hc : q.currentCompletion = some c) :
    { q.stepCompletionDecref c with currentCompletion := none }.Counted := by
  refine ⟨by simpa using h.nodup, fun c' => ?_, fun c' hc' => positive_decref h c c' hc'⟩
  show (q.stepCompletionDecref c).count c' = _
  rw [count_decref, h.exact, refs, refs, hc]
  simp only [decref_live, Option.some.injEq, reduceCtorEq, if_false]
  split
  · omega
  · omega

/-- Contents of cells do not matter to the counts. -/
theorem Counted.congr {q q' : Requests} (h : q.Counted) (hlive : q'.live = q.live)
    (hcurrent : q'.currentCompletion = q.currentCompletion) (hcount : ∀ c, q'.count c = q.count c)
    (hcells : ∀ c, (q'.cells c).isSome = (q.cells c).isSome) : q'.Counted := by
  refine ⟨by rw [hlive]; exact h.nodup, fun c => ?_, fun c hc => ?_⟩
  · rw [hcount, h.exact, refs, refs, hlive, hcurrent]
  · rw [hcount]
    exact h.positive c (by rw [← hcells]; exact hc)

/-! ## The requests and the book -/

/-- The callbacks on the list of the step's cell. -/
def waiting (q : Requests) : List Callback := ((q.currentCompletion.bind q.view).map (·.2)).getD []

/-- The requests agree with the book; `born` is the step each cell was made in, `freed` whether the file state
is gone. -/
structure Keeps (q : Requests) (b : Book) (born : Addr → Nat) (freed : Bool) : Prop where
  counted : q.Counted
  made : ∀ r c, (r, c) ∈ q.live → b.madeIn r = some (born c)
  status : ∀ c v, q.view c = some v → v.1 = b.statusWord (born c)
  current : ∀ c, q.currentCompletion = some c → born c = b.step ∧ b.outcome b.step = none
  gone : freed = true → q.currentCompletion = none
  -- only the step's own cell is without a status
  lone : freed = false → ∀ c, (q.view c).isSome → b.outcome (born c) = none → q.currentCompletion = some c
  bornBy : ∀ c, (q.view c).isSome → born c ≤ b.step
  endedBy : ∀ k, b.outcome k ≠ none → k ≤ b.step
  acceptedBy : ∀ p ∈ b.accepted, p.2 ≤ b.step
  waiting : freed = false → b.outcome b.step = none → b.pending.Perm q.waiting
  called : q.called.Perm b.calls

theorem keeps_init : init.Keeps ⟨0, fun _ => none, fun _ => none, []⟩ (fun _ => 0) false where
  counted := counted_init
  made := fun r c hr => by cases hr
  status := fun c v hv => by cases hv
  current := fun c hc => by cases hc
  gone := fun hf => by cases hf
  lone := fun _ c hc => by cases hc
  bornBy := fun c hc => by cases hc
  endedBy := fun k hk => absurd rfl hk
  acceptedBy := fun p hp => by cases hp
  waiting := fun _ _ => .refl _
  called := .refl _

section Keeps

variable {q : Requests} {b : Book} {born : Addr → Nat} {freed : Bool}

/-- A live request reports what the book says of its step. -/
theorem Keeps.reports (h : q.Keeps b born freed) {r c : Addr} (hr : q.live.find? r = some c) {k : Nat}
    (hk : b.madeIn r = some k) : q.requestWait r = some (b.report k) := by
  have hmem : (r, c) ∈ q.live := (Table.find?_eq_some_iff h.counted.nodup r c).mp hr
  have hborn : k = born c := Option.some.inj (hk.symm.trans (h.made r c hmem))
  have hsome := h.counted.held hmem
  rw [view_isSome] at hsome
  obtain ⟨cell, hcell⟩ := Option.isSome_iff_exists.mp hsome
  have hstatus : cell.status = b.statusWord (born c) := h.status c _ (by rw [view, hcell]; rfl)
  unfold requestWait
  rw [hr, Option.bind_some, hcell, Option.map_some, hstatus, hborn]
  by_cases hopen : b.outcome (born c) = none
  · rw [if_pos ((b.statusWord_eq_zero_iff _).mpr hopen), Book.report, hopen]
  · rw [if_neg (fun hzero => hopen ((b.statusWord_eq_zero_iff _).mp hzero)), Book.toldStatus_statusWord hopen]

/-- What is seen of the step's own cell survives as long as the file state holds it. -/
theorem waiting_congr {q q' : Requests} (hcurrent : q'.currentCompletion = q.currentCompletion)
    (hview : ∀ c, q.currentCompletion = some c → q'.view c = q.view c) : q'.waiting = q.waiting := by
  unfold waiting
  rw [hcurrent]
  cases hc : q.currentCompletion with
  | none => rfl
  | some c => rw [Option.bind_some, Option.bind_some, hview c hc]

/-- A request goes. -/
theorem Keeps.requestFree (h : q.Keeps b born freed) {r c : Addr} (hr : (r, c) ∈ q.live) :
    (q.deferredRequestFree r c).Keeps b born freed := by
  have hcounted := h.counted.requestFree hr
  have hview : ∀ c', (q.deferredRequestFree r c).view c' = if c = c' ∧ q.count c ≤ 1 then none else q.view c' :=
    view_decref q c
  have hsub : ∀ c' v, (q.deferredRequestFree r c).view c' = some v → q.view c' = some v := by
    intro c' v hv
    rw [hview] at hv
    split at hv
    · cases hv
    · exact hv
  have hcurrent : (q.deferredRequestFree r c).currentCompletion = q.currentCompletion := decref_current q c
  constructor
  · exact hcounted
  · exact fun r' c' hr' => h.made r' c' (List.mem_of_mem_filter hr')
  · exact fun c' v hv => h.status c' v (hsub c' v hv)
  · rw [hcurrent]
    exact h.current
  · rw [hcurrent]
    exact h.gone
  · intro hf c' hc' hopen
    obtain ⟨v, hv⟩ := Option.isSome_iff_exists.mp hc'
    rw [hcurrent]
    exact h.lone hf c' (by rw [hsub c' v hv]; rfl) hopen
  · intro c' hc'
    obtain ⟨v, hv⟩ := Option.isSome_iff_exists.mp hc'
    exact h.bornBy c' (by rw [hsub c' v hv]; rfl)
  · exact h.endedBy
  · exact h.acceptedBy
  · intro hf hopen
    rw [waiting_congr hcurrent]
    · exact h.waiting hf hopen
    · intro c' hc'
      have hsome := hcounted.current (hcurrent.trans hc')
      rw [hview] at hsome ⊢
      split at hsome
      · cases hsome
      · rename_i hkept
        exact if_neg hkept
  · show (q.stepCompletionDecref c).called.Perm _
    rw [decref_called]
    exact h.called

theorem view_put (q : Requests) (c c' : Addr) (cell : StepCompletion) :
    (q.put c (some cell)).view c' = if c = c' then some (cell.status, cell.notifyList) else q.view c' := by
  simp only [view, put]
  by_cases h : c = c'
  · subst h
    rw [Function.update_self, if_pos rfl, Option.map_some]
  · rw [Function.update_of_ne (Ne.symm h), if_neg h]

theorem count_put (q : Requests) (c c' : Addr) (cell : StepCompletion) :
    (q.put c (some cell)).count c' = if c = c' then cell.refcount else q.count c' := by
  simp only [count, put]
  by_cases h : c = c'
  · subst h
    rw [Function.update_self, if_pos rfl]
    rfl
  · rw [Function.update_of_ne (Ne.symm h), if_neg h]

theorem view_eq {q : Requests} {c : Addr} {cell : StepCompletion} (h : q.cells c = some cell) :
    q.view c = some (cell.status, cell.notifyList) := by
  rw [view, h]
  rfl

theorem count_eq {q : Requests} {c : Addr} {cell : StepCompletion} (h : q.cells c = some cell) :
    q.count c = cell.refcount := by
  rw [count, h]
  rfl

/-- Other contents in a cell, with the same count. -/
theorem Counted.put {q : Requests} (h : q.Counted) {c : Addr} {cell cell' : StepCompletion}
    (hc : q.cells c = some cell) (hcount : cell'.refcount = cell.refcount) : (q.put c (some cell')).Counted := by
  refine h.congr rfl rfl (fun c' => ?_) fun c' => ?_
  · rw [count_put]
    split
    · rename_i hcc
      rw [← hcc, hcount, count_eq hc]
    · rfl
  · rw [← view_isSome, ← view_isSome, view_put]
    split
    · rename_i hcc
      rw [← hcc, view_eq hc]
      rfl
    · rfl

/-! ### Notify -/

theorem requestNotify_cases (q : Requests) (r : Addr) (cb : Callback) (mallocFails : Bool) :
    q.requestNotify r cb mallocFails = .fail q ∨
      ∃ c cell, q.live.find? r = some c ∧ q.cells c = some cell ∧
        (cell.status = 0 ∧ q.requestNotify r cb mallocFails
            = .ok ((q.put c (some { cell with notifyList := cb :: cell.notifyList })).deferredRequestFree r c) ∨
          cell.status ≠ 0 ∧ q.requestNotify r cb mallocFails
            = .ok ({ q with called := q.called ++ [(cb, toldStatus cell.status)] }.deferredRequestFree r c)) := by
  unfold requestNotify
  cases hr : q.live.find? r with
  | none => exact .inl rfl
  | some c =>
    simp only
    cases hc : q.cells c with
    | none => exact .inl rfl
    | some cell =>
      simp only
      by_cases hopen : cell.status = 0
      · rw [if_pos hopen]
        cases mallocFails with
        | true => exact .inl rfl
        | false => exact .inr ⟨c, cell, rfl, hc, .inl ⟨hopen, rfl⟩⟩
      · rw [if_neg hopen]
        exact .inr ⟨c, cell, rfl, hc, .inr ⟨hopen, rfl⟩⟩

theorem requestNotify_current (q : Requests) (r : Addr) (cb : Callback) (mallocFails : Bool) :
    (q.requestNotify r cb mallocFails).state.currentCompletion = q.currentCompletion := by
  rcases requestNotify_cases q r cb mallocFails with hfail | ⟨c, cell, -, -, ⟨-, hend⟩ | ⟨-, hend⟩⟩
  · rw [hfail]
    rfl
  · rw [hend]
    exact decref_current _ c
  · rw [hend]
    exact decref_current _ c

/-- A callback is put on the list of an open step's cell. -/
theorem Keeps.queue (h : q.Keeps b born freed) {c : Addr} {cell : StepCompletion} (hc : q.cells c = some cell)
    (hopen : b.outcome (born c) = none) (cb : Callback) :
    (q.put c (some { cell with notifyList := cb :: cell.notifyList })).Keeps (b.accept cb (born c)) born freed := by
  have hsome : (q.view c).isSome := by rw [view_eq hc]; rfl
  have hview := view_put q c
  constructor
  · exact h.counted.put hc rfl
  · exact h.made
  · intro c' v hv
    rw [hview] at hv
    split at hv
    · rename_i hcc
      cases hv
      have hstatus : cell.status = b.statusWord (born c) := h.status c _ (view_eq hc)
      exact hcc ▸ hstatus
    · exact h.status c' v hv
  · exact h.current
  · exact h.gone
  · intro hf c' hc' hopen'
    rw [hview] at hc'
    split at hc'
    · rename_i hcc
      exact hcc ▸ h.lone hf c hsome hopen
    · exact h.lone hf c' hc' hopen'
  · intro c' hc'
    rw [hview] at hc'
    split at hc'
    · rename_i hcc
      exact hcc ▸ h.bornBy c hsome
    · exact h.bornBy c' hc'
  · exact h.endedBy
  · intro p hp
    rcases List.mem_append.mp hp with hp | hp
    · exact h.acceptedBy p hp
    · rw [List.mem_singleton.mp hp]
      exact h.bornBy c hsome
  · intro hf hstep
    -- the cell is the open step's
    have hcurrent := h.lone hf c hsome hopen
    have hold : q.waiting = cell.notifyList := by
      unfold Requests.waiting
      rw [hcurrent, Option.bind_some, view_eq hc]
      rfl
    have hnew : (q.put c (some { cell with notifyList := cb :: cell.notifyList })).waiting = cb :: cell.notifyList := by
      unfold Requests.waiting
      rw [show (q.put c _).currentCompletion = some c from hcurrent, Option.bind_some, hview, if_pos rfl]
      rfl
    rw [Book.pending_accept, if_pos (h.current c hcurrent).1, hnew, ← hold]
    exact List.perm_append_singleton cb _ |>.trans ((h.waiting hf hstep).cons cb)
  · rw [Book.calls_accept, hopen, Option.map_none, Option.toList_none, List.append_nil]
    exact h.called

/-- A callback of a step that has ended is made at once. -/
theorem Keeps.tell (h : q.Keeps b born freed) {c : Addr} {cell : StepCompletion} (hc : q.cells c = some cell)
    (hended : b.outcome (born c) ≠ none) (cb : Callback) :
    { q with called := q.called ++ [(cb, toldStatus cell.status)] }.Keeps (b.accept cb (born c)) born freed := by
  have hstatus : cell.status = b.statusWord (born c) := h.status c _ (view_eq hc)
  constructor
  · exact h.counted.congr rfl rfl (fun _ => rfl) fun _ => rfl
  · exact h.made
  · exact h.status
  · exact h.current
  · exact h.gone
  · exact h.lone
  · exact h.bornBy
  · exact h.endedBy
  · intro p hp
    rcases List.mem_append.mp hp with hp | hp
    · exact h.acceptedBy p hp
    · rw [List.mem_singleton.mp hp]
      exact h.endedBy _ hended
  · intro hf hstep
    have hpast : born c ≠ b.step := fun heq => hended (heq ▸ hstep)
    rw [Book.pending_accept, if_neg hpast, List.append_nil]
    exact h.waiting hf hstep
  · obtain ⟨ok, hok⟩ := Option.ne_none_iff_exists'.mp hended
    rw [Book.calls_accept, hok, hstatus, Book.toldStatus_statusWord hended]
    exact h.called.append_right _

/-- A `notify` that is accepted. -/
theorem Keeps.notify (h : q.Keeps b born freed) {r : Addr} {cb : Callback} {mallocFails : Bool} {q' : Requests}
    (hok : q.requestNotify r cb mallocFails = .ok q') {k : Nat} (hk : b.madeIn r = some k) :
    q'.Keeps (b.accept cb k) born freed := by
  rcases requestNotify_cases q r cb mallocFails with hfail | ⟨c, cell, hr, hc, hends⟩
  · rw [hfail] at hok
    cases hok
  · have hmem : (r, c) ∈ q.live := (Table.find?_eq_some_iff h.counted.nodup r c).mp hr
    have hborn : k = born c := Option.some.inj (hk.symm.trans (h.made r c hmem))
    have hstatus : cell.status = b.statusWord (born c) := h.status c _ (view_eq hc)
    subst hborn
    rcases hends with ⟨hzero, hend⟩ | ⟨hset, hend⟩
    · rw [hend] at hok
      cases hok
      rw [hstatus, Book.statusWord_eq_zero_iff] at hzero
      exact (h.queue hc hzero cb).requestFree hmem
    · rw [hend] at hok
      cases hok
      rw [hstatus, Ne, Book.statusWord_eq_zero_iff] at hset
      exact (h.tell hc hset cb).requestFree hmem

/-! ### Making a request -/

/-- The cell of a step's first request. -/
theorem Keeps.newCell (h : q.Keeps b born false) (hstep : b.outcome b.step = none) (hnone : q.currentCompletion = none)
    {a : Addr} (ha : q.cells a = none) :
    { q.put a (some ⟨1, 0, []⟩) with currentCompletion := some a }.Keeps b (Function.update born a b.step) false := by
  have hviewa : q.view a = none := by rw [view, ha]; rfl
  have hview : ∀ c, { q.put a (some ⟨1, 0, []⟩) with currentCompletion := some a }.view c
      = if a = c then some (0, []) else q.view c := fun c => view_put q a c ⟨1, 0, []⟩
  -- nothing refers to the address yet
  have hfree : ∀ r c, (r, c) ∈ q.live → c ≠ a := by
    intro r c hr hca
    have hheld := h.counted.held hr
    rw [hca, hviewa] at hheld
    cases hheld
  have hwaiting : q.waiting = [] := by
    unfold Requests.waiting
    rw [hnone]
    rfl
  constructor
  · refine ⟨h.counted.nodup, fun c => ?_, fun c hc => ?_⟩
    · show (q.put a _).count c = (q.live.map (·.2)).count c + _
      rw [count_put]
      by_cases hac : a = c
      · subst hac
        have hcount : (q.live.map (·.2)).count a = 0 := by
          rw [List.count_eq_zero]
          intro hmem
          obtain ⟨⟨r, c⟩, hr, hca⟩ := List.mem_map.mp hmem
          exact hfree r c hr hca
        simp [hcount]
      · have hexact := h.counted.exact c
        rw [refs, hnone] at hexact
        rw [if_neg hac, hexact]
        simp [hac]
    · show 0 < (q.put a _).count c
      rw [← view_isSome, hview] at hc
      rw [count_put]
      by_cases hac : a = c
      · rw [if_pos hac]
        exact Nat.one_pos
      · rw [if_neg hac, view_isSome] at hc
        rw [if_neg hac]
        exact h.counted.positive c hc
  · intro r c hr
    rw [Function.update_of_ne (hfree r c hr)]
    exact h.made r c hr
  · intro c v hv
    rw [hview] at hv
    by_cases hac : a = c
    · rw [if_pos hac] at hv
      cases hv
      rw [← hac, Function.update_self, eq_comm, Book.statusWord_eq_zero_iff]
      exact hstep
    · rw [if_neg hac] at hv
      rw [Function.update_of_ne (Ne.symm hac)]
      exact h.status c v hv
  · intro c hc
    cases hc
    exact ⟨Function.update_self _ _ _, hstep⟩
  · intro hf
    cases hf
  · intro hf c hc hopen
    rw [hview] at hc
    by_cases hac : a = c
    · rw [hac]
    · rw [if_neg hac] at hc
      rw [Function.update_of_ne (Ne.symm hac)] at hopen
      have hcurrent := h.lone hf c hc hopen
      rw [hnone] at hcurrent
      cases hcurrent
  · intro c hc
    rw [hview] at hc
    by_cases hac : a = c
    · rw [hac, Function.update_self]
    · rw [if_neg hac] at hc
      rw [Function.update_of_ne (Ne.symm hac)]
      exact h.bornBy c hc
  · exact h.endedBy
  · exact h.acceptedBy
  · intro hf hopen
    have hold := h.waiting hf hopen
    rw [hwaiting] at hold
    unfold Requests.waiting
    rw [Option.bind_some, hview, if_pos rfl]
    exact hold
  · exact h.called

/-- A request of the open step, with its reference. -/
theorem Keeps.attach (h : q.Keeps b born false) {c r : Addr} (hc : q.currentCompletion = some c)
    (hr : q.live.find? r = none) :
    { q.stepCompletionIncref c with live := q.live.set r c }.Keeps (b.request r) born false := by
  obtain ⟨cell, hcell⟩ : ∃ cell, q.cells c = some cell := by
    rw [← Option.isSome_iff_exists, ← view_isSome]
    exact h.counted.current hc
  have hincref : q.stepCompletionIncref c = q.put c (some { cell with refcount := cell.refcount + 1 }) := by
    rw [stepCompletionIncref, hcell]
  have hfresh : r ∉ q.live.keys := by
    rw [Table.mem_keys_iff, hr]
    exact Bool.false_ne_true
  have hlive : q.live.set r c = q.live ++ [(r, c)] := Table.set_of_not_mem hfresh c
  have hview : ∀ c', { q.stepCompletionIncref c with live := q.live.set r c }.view c' = q.view c' := by
    intro c'
    show (q.stepCompletionIncref c).view c' = _
    rw [hincref, view_put]
    split
    · rename_i hcc
      rw [← hcc, view_eq hcell]
    · rfl
  have hcurrent : { q.stepCompletionIncref c with live := q.live.set r c }.currentCompletion = q.currentCompletion := by
    rw [hincref]
    rfl
  have hcalled : { q.stepCompletionIncref c with live := q.live.set r c }.called = q.called := by
    rw [hincref]
    rfl
  constructor
  · refine ⟨Table.nodup_keys_set h.counted.nodup r c, fun c' => ?_, fun c' hc' => ?_⟩
    · show (q.stepCompletionIncref c).count c' = ((q.live.set r c).map (·.2)).count c' + _
      rw [hincref, hlive, count_put, List.map_append, List.count_append]
      show _ = _ + _ + if q.currentCompletion = some c' then 1 else 0
      have hexact := h.counted.exact c'
      rw [refs] at hexact
      by_cases hcc : c = c'
      · subst hcc
        rw [count_eq hcell] at hexact
        simp only [if_true, List.map_cons, List.map_nil, List.count_singleton_self]
        omega
      · rw [if_neg hcc, hexact]
        simp [hcc]
    · show 0 < (q.stepCompletionIncref c).count c'
      rw [← view_isSome, hview, view_isSome] at hc'
      rw [hincref, count_put]
      split
      · exact Nat.succ_pos _
      · exact h.counted.positive c' hc'
  · intro r' c' hr'
    show (Function.update b.madeIn r (some b.step)) r' = _
    rw [show _ = q.live ++ [(r, c)] from hlive, List.mem_append] at hr'
    rcases hr' with hr' | hr'
    · have hne : r' ≠ r := fun heq => hfresh (heq ▸ List.mem_map_of_mem hr')
      rw [Function.update_of_ne hne]
      exact h.made r' c' hr'
    · cases List.mem_singleton.mp hr'
      rw [Function.update_self, (h.current c hc).1]
  · intro c' v hv
    rw [hview] at hv
    exact h.status c' v hv
  · rw [hcurrent]
    exact h.current
  · rw [hcurrent]
    exact h.gone
  · intro hf c' hc' hopen
    rw [hview] at hc'
    rw [hcurrent]
    exact h.lone hf c' hc' hopen
  · intro c' hc'
    rw [hview] at hc'
    exact h.bornBy c' hc'
  · exact h.endedBy
  · exact h.acceptedBy
  · intro hf hopen
    rw [waiting_congr hcurrent fun c' _ => hview c']
    exact h.waiting hf hopen
  · rw [hcalled]
    exact h.called

/-- A write that asks for a request gets one of the open step, or none; the cell may have been made for it. -/
theorem Keeps.make (h : q.Keeps b born false) (hstep : b.outcome b.step = none) (a : Allocs) :
    ∃ born', (q.makeDeferredRequest a).1.Keeps
      (((q.makeDeferredRequest a).2.map b.request).getD b) born' false := by
  have hcell : q.stepCell a.cell = none ∨
      ∃ q' c born', q.stepCell a.cell = some (q', c) ∧ q'.Keeps b born' false ∧ q'.currentCompletion = some c := by
    unfold stepCell
    cases hc : q.currentCompletion with
    | some c => exact .inr ⟨q, c, born, rfl, h, hc⟩
    | none =>
      simp only
      cases ha : a.cell.filter fun a => (q.cells a).isNone with
      | none => exact .inl rfl
      | some a' =>
        have hnone : q.cells a' = none := Option.isNone_iff_eq_none.mp (Option.filter_eq_some_iff.mp ha).2
        exact .inr ⟨_, a', _, rfl, h.newCell hstep hc hnone, rfl⟩
  unfold makeDeferredRequest
  rcases hcell with hnone | ⟨q', c, born', hsome, hkeeps, hc⟩
  · rw [hnone]
    exact ⟨born, h⟩
  · rw [hsome]
    simp only
    cases hr : a.request.filter fun r => (q'.live.find? r).isNone with
    | none => exact ⟨born', hkeeps⟩
    | some r =>
      have hnone : q'.live.find? r = none := Option.isNone_iff_eq_none.mp (Option.filter_eq_some_iff.mp hr).2
      exact ⟨born', hkeeps.attach hc hnone⟩

/-! ### The end of a step -/

/-- Without a cell no request is of the present step. -/
theorem Keeps.born_ne (h : q.Keeps b born false) (hstep : b.outcome b.step = none) {c : Addr} (hc : (q.view c).isSome)
    (hother : q.currentCompletion ≠ some c) : born c ≠ b.step :=
  fun heq => hother (h.lone rfl c hc (heq ▸ hstep))

/-- `H5Fend_step` resolves the step's requests. -/
theorem Keeps.resolve (h : q.Keeps b born false) (hstep : b.outcome b.step = none) (ok : Bool) :
    (q.resolve ok).Keeps (b.ended ok) born false := by
  have hended : (b.ended ok).outcome b.step = some ok := Function.update_self _ _ _
  have hpast : ∀ k, k ≠ b.step → (b.ended ok).outcome k = b.outcome k := fun k hk => Function.update_of_ne hk _ _
  have hby : ∀ k, (b.ended ok).outcome k ≠ none → k ≤ b.step := by
    intro k hk
    by_cases hkb : k = b.step
    · exact Nat.le_of_eq hkb
    · rw [hpast k hkb] at hk
      exact h.endedBy k hk
  have hcalls := Book.calls_ended hstep ok
  unfold Requests.resolve
  cases hc : q.currentCompletion with
  | none =>
    have hpending : b.pending = [] := by
      have hwaiting := h.waiting rfl hstep
      unfold Requests.waiting at hwaiting
      rw [hc] at hwaiting
      exact List.perm_nil.mp hwaiting
    have hother : ∀ c, q.currentCompletion ≠ some c := by
      intro c
      rw [hc]
      exact Option.some_ne_none c ∘ Eq.symm
    constructor
    · exact h.counted
    · exact h.made
    · intro c v hv
      rw [Book.statusWord_ended ok (h.born_ne hstep (by rw [hv]; rfl) (hother c))]
      exact h.status c v hv
    · intro c hcurrent
      exact absurd hcurrent (hother c)
    · exact h.gone
    · intro hf c hview hopen
      rw [hpast _ (h.born_ne hstep hview (hother c))] at hopen
      exact h.lone hf c hview hopen
    · exact h.bornBy
    · exact hby
    · exact h.acceptedBy
    · intro _ hopen
      rw [show (b.ended ok).outcome (b.ended ok).step = some ok from hended] at hopen
      cases hopen
    · rw [hpending] at hcalls
      exact h.called.trans (by simpa using hcalls.symm)
  | some c =>
    obtain ⟨cell, hcell⟩ : ∃ cell, q.cells c = some cell := by
      rw [← Option.isSome_iff_exists, ← view_isSome]
      exact h.counted.current hc
    simp only [hcell]
    generalize hstatus : (if ok = true then (1 : Int) else -1) = status
    have htold : toldStatus status = (b.ended ok).report b.step := by
      rw [← hstatus, Book.report, hended]
      cases ok <;> rfl
    obtain ⟨q₁, hq₁⟩ : ∃ q₁ : Requests, q₁ = { q.put c (some { cell with status := status, notifyList := [] }) with
        called := q.called ++ cell.notifyList.map fun cb => (cb, toldStatus status) } := ⟨_, rfl⟩
    rw [← hq₁]
    have hcounted : q₁.Counted := by
      rw [hq₁]
      have hput : (q.put c (some { cell with status := status, notifyList := [] })).Counted := h.counted.put hcell rfl
      exact hput.congr rfl rfl (fun _ => rfl) fun _ => rfl
    have hcurrent₁ : q₁.currentCompletion = some c := by
      rw [hq₁]
      exact hc
    have hview₁ : ∀ c', q₁.view c' = if c = c' then some (status, []) else q.view c' := by
      intro c'
      rw [hq₁]
      exact view_put q c c' _
    have hview : ∀ c' v, { q₁.stepCompletionDecref c with currentCompletion := none }.view c' = some v →
        (c' = c ∧ v = (status, [])) ∨ c' ≠ c ∧ q.view c' = some v := by
      intro c' v hv
      change (q₁.stepCompletionDecref c).view c' = some v at hv
      rw [view_decref] at hv
      split at hv
      · cases hv
      · rw [hview₁] at hv
        split at hv
        · rename_i hcc
          cases hv
          exact .inl ⟨hcc.symm, rfl⟩
        · rename_i hcc
          exact .inr ⟨Ne.symm hcc, hv⟩
    have hborn : born c = b.step := (h.current c hc).1
    have hother : ∀ c', c' ≠ c → (q.view c').isSome → born c' ≠ b.step := by
      intro c' hcc hsome
      refine h.born_ne hstep hsome ?_
      rw [hc]
      exact fun heq => hcc (Option.some.inj heq).symm
    constructor
    · exact hcounted.letGo hcurrent₁
    · intro r c' hr
      have hlive : { q₁.stepCompletionDecref c with currentCompletion := none }.live = q.live := by
        show (q₁.stepCompletionDecref c).live = _
        rw [decref_live, hq₁]
        rfl
      rw [hlive] at hr
      exact h.made r c' hr
    · intro c' v hv
      rcases hview c' v hv with ⟨rfl, rfl⟩ | ⟨hcc, hv⟩
      · rw [hborn, Book.statusWord, hended, ← hstatus]
        cases ok <;> rfl
      · rw [Book.statusWord_ended ok (hother c' hcc (by rw [hv]; rfl))]
        exact h.status c' v hv
    · intro c' hc'
      cases hc'
    · intro _
      rfl
    · intro hf c' hsome hopen
      obtain ⟨v, hv⟩ := Option.isSome_iff_exists.mp hsome
      rcases hview c' v hv with ⟨rfl, -⟩ | ⟨hcc, hv⟩
      · rw [hborn, hended] at hopen
        cases hopen
      · have hsome' : (q.view c').isSome := by rw [hv]; rfl
        rw [hpast _ (hother c' hcc hsome')] at hopen
        have hcurrent := h.lone hf c' hsome' hopen
        rw [hc] at hcurrent
        exact absurd (Option.some.inj hcurrent).symm hcc
    · intro c' hsome
      obtain ⟨v, hv⟩ := Option.isSome_iff_exists.mp hsome
      rcases hview c' v hv with ⟨rfl, -⟩ | ⟨hcc, hv⟩
      · exact h.bornBy c' (h.counted.current hc)
      · exact h.bornBy c' (by rw [hv]; rfl)
    · exact hby
    · exact h.acceptedBy
    · intro _ hopen
      rw [show (b.ended ok).outcome (b.ended ok).step = some ok from hended] at hopen
      cases hopen
    · -- the list is what the book has for the step
      have hwaiting : b.pending.Perm cell.notifyList := by
        have hperm := h.waiting rfl hstep
        unfold Requests.waiting at hperm
        rw [hc, Option.bind_some, view_eq hcell] at hperm
        exact hperm
      have hcalled : { q₁.stepCompletionDecref c with currentCompletion := none }.called
          = q.called ++ cell.notifyList.map fun cb => (cb, toldStatus status) := by
        show (q₁.stepCompletionDecref c).called = _
        rw [decref_called, hq₁]
      rw [hcalled, htold]
      exact (h.called.append (hwaiting.symm.map _)).trans hcalls.symm

/-- The file state goes with the step unresolved: its requests stay as they are. -/
theorem Keeps.abandon (h : q.Keeps b born false) : q.abandon.Keeps b born true := by
  unfold Requests.abandon
  cases hc : q.currentCompletion with
  | none =>
    exact ⟨h.counted, h.made, h.status, h.current, fun _ => hc, fun hf => (by cases hf), h.bornBy,
      h.endedBy, h.acceptedBy, fun hf => (by cases hf), h.called⟩
  | some c =>
    have hsub : ∀ c' v, { q.stepCompletionDecref c with currentCompletion := none }.view c' = some v →
        q.view c' = some v := by
      intro c' v hv
      change (q.stepCompletionDecref c).view c' = some v at hv
      rw [view_decref] at hv
      split at hv
      · cases hv
      · exact hv
    constructor
    · exact h.counted.letGo hc
    · intro r c' hr
      change (r, c') ∈ (q.stepCompletionDecref c).live at hr
      rw [decref_live] at hr
      exact h.made r c' hr
    · exact fun c' v hv => h.status c' v (hsub c' v hv)
    · intro c' hc'
      cases hc'
    · intro _
      rfl
    · intro hf
      cases hf
    · intro c' hsome
      obtain ⟨v, hv⟩ := Option.isSome_iff_exists.mp hsome
      exact h.bornBy c' (by rw [hsub c' v hv]; rfl)
    · exact h.endedBy
    · exact h.acceptedBy
    · intro hf
      cases hf
    · show (q.stepCompletionDecref c).called.Perm _
      rw [decref_called]
      exact h.called

/-- The next step begins without a cell. -/
theorem Keeps.nextStep (h : q.Keeps b born freed) (hnone : q.currentCompletion = none) :
    q.Keeps b.nextStep born freed := by
  have hnew : b.nextStep.pending = [] := by
    show (b.accepted.filter fun p => decide (p.2 = b.step + 1)).map (·.1) = []
    rw [List.map_eq_nil_iff, List.filter_eq_nil_iff]
    intro p hp heq
    have hle := h.acceptedBy p hp
    rw [of_decide_eq_true heq] at hle
    omega
  constructor
  · exact h.counted
  · exact h.made
  · exact h.status
  · intro c hc
    rw [hnone] at hc
    cases hc
  · exact h.gone
  · exact h.lone
  · exact fun c hc => Nat.le_succ_of_le (h.bornBy c hc)
  · exact fun k hk => Nat.le_succ_of_le (h.endedBy k hk)
  · exact fun p hp => Nat.le_succ_of_le (h.acceptedBy p hp)
  · intro _ _
    rw [hnew]
    unfold Requests.waiting
    rw [hnone]
    exact .refl _
  · exact h.called

end Keeps

end Requests

end VolStream
