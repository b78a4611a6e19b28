import VolStream.Transport.Routing
import VolStream.Lib.Run

/-!
# The reader of the log transport

`tr_diaspora.cpp` carries the same events over an append-only log. A reader's subscription is applied
twice: when an event arrives, by the `DataSelector` that asks the server for part of its payload, and
when `pump` splits what came back into items. The two see the subscription as it is at their own time,
and subscribe calls may come in between. `diaspora_items_exact` says when the items still carry the
writer's values.

Buffers are lists of elements, `α` being one element's bytes and `0` an element of zero bytes.
-/

namespace VolStream

open RowMajor

/-! ## Events, subscriptions, items -/

/-- `sub_t`, as the reader uses it. -/
structure DsaSub where
  selStart : Nat
  selCount : Nat
  predEnc : Option Bytes
  hasType : Bool
  spaceEnc : Option Dataspace
deriving DecidableEq, Repr

/-- The event of one `vs_tr_writer_push_data` call: its metadata, and the values of its elements. -/
structure DataEvent (α : Type) where
  step : Nat
  path : Path
  start : Nat
  count : Nat
  typeEnc : Option Datatype
  spaceEnc : Option Dataspace
  payload : List α
  length_payload : payload.length = count

/-- An event of the log, by its kind. -/
inductive DsaEvent (α : Type) where
  | step (physicalStep wallTimeNs : Nat)
  | data (ev : DataEvent α)
  | other

/-- `item_t`. -/
structure DsaItem (α : Type) where
  step : Nat
  path : Path
  buf : List α
  elemStart : Nat
  elemCount : Nat
  typeEnc : Option Datatype
  delivery : DeliveryFlags
deriving DecidableEq, Repr

/-- A pulled event, with the runs its selector asked for. -/
structure Pulled (α : Type) where
  event : DsaEvent α
  asked : List Run

variable {α : Type}

/-- The elements of a run in an event's payload, by their offset in it. -/
def DataEvent.segment (ev : DataEvent α) (r : Run) : List α := (ev.payload.drop (r.start - ev.start)).take r.count

/-- The reader side of `vs_tr_t`, with the part of the log that has not arrived yet. -/
structure DsaReader (α : Type) where
  selecting : Bool
  subs : Path → Option DsaSub
  log : List (DsaEvent α)
  arrived : List (Pulled α)
  ready : List (DsaItem α)
  curStep : Nat
  curWallNs : Nat
  haveStep : Bool

/-! ## `runs_for` -/

-- the end of a range, saturating
def rangeEnd64 (start count : Nat) : Nat := if count > uint64Max - start then uint64Max else start + count

/-- `overlap`. -/
def overlap (wStart wCount sStart sCount : Nat) : Option Run :=
  let lo := max wStart sStart
  let hi := min (rangeEnd64 wStart wCount) (rangeEnd64 sStart sCount)
  if lo ≥ hi then none else some ⟨lo, hi - lo⟩

/-- `DSA_MAX_RUNS`. -/
def dsaMaxRuns : Nat := 64

/-- `runs_for`: the runs of a subscription within one write, and whether the bounding span stands in for
the selection. -/
def runsFor (selecting : Bool) (sub : DsaSub) (ev : DataEvent α) : List Run × Bool :=
  match overlap ev.start ev.count sub.selStart sub.selCount with
  | none => ([], false)
  | some bounding =>
      match sub.spaceEnc with
      | none => ([bounding], false)
      | some space =>
          if selecting then
            match ev.spaceEnc with
            | none => ([bounding], true)
            | some write =>
                match selectionRuns space (some write) bounding.start bounding.count dsaMaxRuns with
                | none => ([bounding], true)
                | some runs => (runs.map fun r => ⟨bounding.start + r.start, r.count⟩, false)
          else ([bounding], true)

/-- The runs the reader's current subscription has in an event; none for a path it has not subscribed. -/
def DsaReader.runs (tr : DsaReader α) (ev : DataEvent α) : List Run :=
  ((tr.subs ev.path).map fun sub => (runsFor tr.selecting sub ev).1).getD []

/-! ## Arrival -/

/-- What the `DataSelector` asks for: nothing of an event that is not data. -/
def DsaReader.select (tr : DsaReader α) : DsaEvent α → List Run
  | .data ev => tr.runs ev
  | _ => []

/-- The next event of the log arrives. -/
def DsaReader.arrive (tr : DsaReader α) : DsaReader α :=
  match tr.log with
  | [] => tr
  | event :: rest => { tr with log := rest, arrived := tr.arrived ++ [⟨event, tr.select event⟩] }

/-! ## The runs lie in the write -/

-- the run is part of the write
def DataEvent.Holds (ev : DataEvent α) (r : Run) : Prop := ev.start ≤ r.start ∧ r.start + r.count ≤ ev.start + ev.count

theorem overlap_inside {wStart wCount sStart sCount : Nat} {r : Run}
    (h : overlap wStart wCount sStart sCount = some r) :
    wStart ≤ r.start ∧ r.start + r.count ≤ wStart + wCount := by
  unfold overlap at h
  simp only at h
  split at h
  · cases h
  · cases h
    have hend : rangeEnd64 wStart wCount ≤ wStart + wCount := by
      unfold rangeEnd64
      split <;> omega
    simp only
    omega

theorem runsFor_inside (selecting : Bool) (sub : DsaSub) (ev : DataEvent α) :
    ∀ r ∈ (runsFor selecting sub ev).1, ev.Holds r := by
  unfold runsFor
  split
  · exact fun r hr => absurd hr List.not_mem_nil
  · rename_i bounding hover
    have hin := overlap_inside hover
    have hspan : ∀ r ∈ [bounding], ev.Holds r := fun r hr => by
      rw [List.mem_singleton.mp hr]
      exact hin
    split
    · exact hspan
    · split
      · split
        · exact hspan
        · split
          · exact hspan
          · rename_i runs hruns
            intro r hr
            obtain ⟨q, hq, rfl⟩ := List.mem_map.mp hr
            unfold selectionRuns at hruns
            split at hruns
            · cases hruns
            · simp only at hruns
              split at hruns
              · obtain ⟨runs', hruns', rfl⟩ := Option.map_eq_some_iff.mp hruns
                obtain ⟨q', hq', rfl⟩ := List.mem_map.mp hq
                have hbound := spaceFlatRunsRange_inside hruns' q' hq'
                constructor
                · show ev.start ≤ bounding.start + (q'.start - bounding.start)
                  omega
                · show bounding.start + (q'.start - bounding.start) + q'.count ≤ ev.start + ev.count
                  omega
              · cases hruns
      · exact hspan

theorem DsaReader.runs_inside (tr : DsaReader α) (ev : DataEvent α) : ∀ r ∈ tr.runs ev, ev.Holds r := by
  unfold DsaReader.runs
  cases tr.subs ev.path with
  | none => exact fun r hr => absurd hr List.not_mem_nil
  | some sub => exact runsFor_inside tr.selecting sub ev

/-! ## Splitting a payload by runs -/

/-- The data of a pulled event: the segments asked for, one after another. -/
def pulledData (ev : DataEvent α) (asked : List Run) : List α := asked.flatMap ev.segment

/-- The items of the runs, from the payload behind `cursor`. -/
def splitRuns (flat : List α) (label : List α → Run → DsaItem α) : Nat → List Run → List (DsaItem α)
  | _, [] => []
  | cursor, r :: rs =>
      -- a short payload ends the split
      if cursor + r.count > flat.length then []
      else label ((flat.drop cursor).take r.count) r :: splitRuns flat label (cursor + r.count) rs

theorem DataEvent.length_segment {ev : DataEvent α} {r : Run} (h : ev.Holds r) : (ev.segment r).length = r.count := by
  have hlen := ev.length_payload
  obtain ⟨hlow, hhigh⟩ := h
  rw [DataEvent.segment, List.length_take, List.length_drop]
  omega

theorem DataEvent.segment_map_some {ev : DataEvent α} {r : Run} (h : ev.Holds r) :
    (ev.segment r).map some = r.elems.map fun k => ev.payload[k - ev.start]? := by
  have hlen := ev.length_payload
  obtain ⟨hlow, hhigh⟩ := h
  have hin : ∀ k ∈ List.range' (r.start - ev.start) r.count, k < ev.payload.length := by
    intro k hk
    have := List.mem_range'_1.mp hk
    omega
  rw [DataEvent.segment, take_drop_map_some _ _ _ hin, Run.elems]
  apply List.ext_getElem?
  intro i
  by_cases hi : i < r.count
  · simp [hi, show r.start + i - ev.start = r.start - ev.start + i from by omega]
  · simp [hi]

/-- The segments asked for, element by element. -/
theorem pulledData_map_some {ev : DataEvent α} {asked : List Run} (h : ∀ r ∈ asked, ev.Holds r) :
    (pulledData ev asked).map some = (asked.flatMap Run.elems).map fun k => ev.payload[k - ev.start]? := by
  rw [pulledData, List.map_flatMap, List.map_flatMap]
  exact List.flatMap_congr fun r hr => DataEvent.segment_map_some (h r hr)

theorem length_flatMap_elems (runs : List Run) : (runs.flatMap Run.elems).length = (runs.map Run.count).sum := by
  rw [List.length_flatMap]
  congr 1
  apply List.map_congr_left
  intro r _
  rw [Run.elems, List.length_range']

theorem splitRuns_segments {seg : Run → List α} {label : List α → Run → DsaItem α} {runs : List Run}
    (hseg : ∀ r ∈ runs, (seg r).length = r.count) (before : List α) :
    splitRuns (before ++ runs.flatMap seg) label before.length runs = runs.map fun r => label (seg r) r := by
  induction runs generalizing before with
  | nil => rfl
  | cons r runs ih =>
    have hr := hseg r List.mem_cons_self
    have hfits : ¬before.length + r.count > (before ++ (r :: runs).flatMap seg).length := by
      rw [List.flatMap_cons, List.length_append, List.length_append, hr]
      omega
    have hrest := ih (fun r' hr' => hseg r' (List.mem_cons_of_mem _ hr')) (before ++ seg r)
    rw [List.length_append, hr, List.append_assoc] at hrest
    rw [splitRuns, if_neg hfits, List.flatMap_cons, hrest, List.map_cons]
    congr 2
    rw [List.drop_left, ← hr, List.take_left]

/-! ## What ends a call -/

/-- Whether `pump` returns after an event: a marker ends the wait for a step, an event with something for
the reader the wait for data. -/
def DsaReader.stops (tr : DsaReader α) (wantStep : Bool) (p : Pulled α) : Bool :=
  match p.event with
  | .step _ _ => wantStep
  | .data ev => !wantStep && !(tr.runs ev).isEmpty
  | .other => false

/-- The events of `l` a call pumps: up to the first that ends it. -/
def DsaReader.pumped (tr : DsaReader α) (wantStep : Bool) (l : List (Pulled α)) : List (Pulled α) :=
  l.take (l.findIdx (tr.stops wantStep) + 1)

-- the events left for later calls
def DsaReader.kept (tr : DsaReader α) (wantStep : Bool) (l : List (Pulled α)) : List (Pulled α) :=
  l.drop (l.findIdx (tr.stops wantStep) + 1)

theorem DsaReader.pumped_append_kept (tr : DsaReader α) (wantStep : Bool) (l : List (Pulled α)) :
    tr.pumped wantStep l ++ tr.kept wantStep l = l :=
  List.take_append_drop _ _

theorem DsaReader.runs_congr {tr tr' : DsaReader α} (hsubs : tr'.subs = tr.subs) (hsel : tr'.selecting = tr.selecting) :
    tr'.runs = tr.runs := by
  funext ev
  rw [DsaReader.runs, DsaReader.runs, hsubs, hsel]

theorem DsaReader.stops_congr {tr tr' : DsaReader α} (hsubs : tr'.subs = tr.subs) (hsel : tr'.selecting = tr.selecting) (wantStep : Bool) :
    tr'.stops wantStep = tr.stops wantStep := by
  funext p
  rw [DsaReader.stops, DsaReader.stops, DsaReader.runs_congr hsubs hsel]

/-! ## Delivery -/

section Pump

variable [Zero α]

/-- `flat`: the payload cut to what the runs need, or filled up to it. -/
def flatPayload (data : List α) (total : Nat) : List α := data.take total ++ List.replicate (total - data.length) 0

/-- Where the runs are the first elements asked for, each run gets its own segment. -/
theorem split_segments {ev : DataEvent α} {asked runs : List Run} (hasked : ∀ r ∈ asked, ev.Holds r)
    (hruns : ∀ r ∈ runs, ev.Holds r) (hfirst : runs.flatMap Run.elems <+: asked.flatMap Run.elems)
    (label : List α → Run → DsaItem α) :
    splitRuns (flatPayload (pulledData ev asked) (runs.map Run.count).sum) label 0 runs =
      runs.map fun r => label (ev.segment r) r := by
  have htake : (pulledData ev asked).take (runs.map Run.count).sum = runs.flatMap ev.segment := by
    apply List.map_injective_iff.mpr (Option.some_injective α)
    rw [List.map_take, pulledData_map_some hasked, ← pulledData, pulledData_map_some hruns, ← List.map_take,
      ← length_flatMap_elems, List.prefix_iff_eq_take.mp hfirst]
    simp
  have hlen : (runs.map Run.count).sum ≤ (pulledData ev asked).length := by
    have h := congrArg List.length (pulledData_map_some hasked)
    rw [List.length_map, List.length_map] at h
    rw [h, ← length_flatMap_elems]
    exact hfirst.length_le
  rw [flatPayload, htake, Nat.sub_eq_zero_of_le hlen, List.replicate_zero, List.append_nil]
  exact splitRuns_segments (fun r hr => DataEvent.length_segment (hruns r hr)) []

/-- The items `pump` makes of a data event under a subscription. -/
def DsaReader.split (tr : DsaReader α) (ev : DataEvent α) (asked : List Run) : List (DsaItem α) :=
  match tr.subs ev.path with
  | none => []
  | some sub =>
      let (runs, span) := runsFor tr.selecting sub ev
      let delivery : DeliveryFlags := ⟨span, sub.predEnc.isSome, false, sub.hasType⟩
      splitRuns (flatPayload (pulledData ev asked) (runs.map Run.count).sum)
        (fun buf r => ⟨ev.step, ev.path, buf, r.start, r.count, ev.typeEnc, delivery⟩) 0 runs

def DsaReader.itemsOf (tr : DsaReader α) (p : Pulled α) : List (DsaItem α) :=
  match p.event with
  | .data ev => tr.split ev p.asked
  | _ => []

/-- One round of `pump`. -/
def DsaReader.handle (tr : DsaReader α) (p : Pulled α) : DsaReader α :=
  match p.event with
  | .step physicalStep wallTimeNs => { tr with curStep := physicalStep, curWallNs := wallTimeNs, haveStep := true }
  | _ => { tr with ready := tr.ready ++ tr.itemsOf p }

/-- `pump`, over what has arrived; running out of it is the timeout. -/
def DsaReader.pump (wantStep : Bool) : List (Pulled α) → DsaReader α → DsaReader α × Bool
  | [], tr => ({ tr with arrived := [] }, false)
  | p :: rest, tr =>
      let tr' := { tr.handle p with arrived := rest }
      if tr.stops wantStep p then (tr', true) else pump wantStep rest tr'

/-- `vs_tr_reader_wait_step_ready`. -/
def DsaReader.waitStepReady (tr : DsaReader α) : DsaReader α × Option (Nat × Nat) :=
  match DsaReader.pump true tr.arrived tr with
  | (tr', true) => (tr', some (tr'.curStep, tr'.curWallNs))
  | (tr', false) => (tr', none)

-- take the front item
def DsaReader.popReady (tr : DsaReader α) : DsaReader α × Option (DsaItem α) :=
  ({ tr with ready := tr.ready.tail }, tr.ready.head?)

/-- `vs_tr_reader_wait_data`. -/
def DsaReader.waitData (tr : DsaReader α) : DsaReader α × Option (DsaItem α) :=
  if tr.ready.isEmpty then
    match DsaReader.pump false tr.arrived tr with
    | (tr', true) => tr'.popReady
    | (tr', false) => (tr', none)
  else tr.popReady

/-! ## The reader as a system -/

/-- What can happen to a reader: an event arrives, or the application makes a call. -/
inductive DsaAct where
  | arrive
  | subscribe (path : Path) (selStart selCount : Nat) (spaceEnc : Option Dataspace)
  | subscribeType (path : Path) (given : Bool)
  | subscribePredicate (path : Path) (predEnc : Option Bytes)
  | waitStep
  | waitData
deriving DecidableEq, Repr

/-- `vs_tr_reader_subscribe`: a new path starts from no predicate and no type, a known one keeps them. -/
def DsaReader.subscribe (tr : DsaReader α) (path : Path) (selStart selCount : Nat) (spaceEnc : Option Dataspace) :
    DsaReader α :=
  let sub := (tr.subs path).getD ⟨0, uint64Max, none, false, none⟩
  { tr with subs := Function.update tr.subs path (some { sub with selStart, selCount, spaceEnc }) }

def DsaReader.step (tr : DsaReader α) : DsaAct → DsaReader α
  | .arrive => tr.arrive
  | .subscribe path selStart selCount spaceEnc => tr.subscribe path selStart selCount spaceEnc
  | .subscribeType path given =>
      { tr with subs := Function.update tr.subs path ((tr.subs path).map fun s => { s with hasType := given }) }
  | .subscribePredicate path predEnc =>
      { tr with subs := Function.update tr.subs path ((tr.subs path).map fun s => { s with predEnc }) }
  | .waitStep => tr.waitStepReady.1
  | .waitData => tr.waitData.1

/-- The marker a call returns. -/
def DsaReader.markerReturned (tr : DsaReader α) : DsaAct → List (Nat × Nat)
  | .waitStep => tr.waitStepReady.2.toList
  | _ => []

/-- The item a call returns. -/
def DsaReader.itemReturned (tr : DsaReader α) : DsaAct → List (DsaItem α)
  | .waitData => tr.waitData.2.toList
  | _ => []

/-- Handling an event changes neither the subscriptions nor the log. -/
theorem DsaReader.handle_frame (tr : DsaReader α) (p : Pulled α) :
    (tr.handle p).subs = tr.subs ∧ (tr.handle p).selecting = tr.selecting ∧ (tr.handle p).log = tr.log := by
  unfold DsaReader.handle
  split <;> exact ⟨rfl, rfl, rfl⟩

theorem DsaReader.handle_ready (tr : DsaReader α) (p : Pulled α) :
    (tr.handle p).ready = tr.ready ++ tr.itemsOf p := by
  unfold DsaReader.handle
  split
  · rename_i hevent
    simp [DsaReader.itemsOf, hevent]
  · rfl

theorem DsaReader.itemsOf_congr {tr tr' : DsaReader α} (hsubs : tr'.subs = tr.subs) (hsel : tr'.selecting = tr.selecting) :
    tr'.itemsOf = tr.itemsOf := by
  funext p
  unfold DsaReader.itemsOf DsaReader.split
  rw [hsubs, hsel]

/-- A call pumps the events up to the first that ends it: their items are ready, the rest stays. -/
theorem DsaReader.pump_spec (wantStep : Bool) (l : List (Pulled α)) (tr : DsaReader α) :
    (pump wantStep l tr).1.subs = tr.subs ∧ (pump wantStep l tr).1.selecting = tr.selecting ∧
      (pump wantStep l tr).1.log = tr.log ∧ (pump wantStep l tr).1.arrived = tr.kept wantStep l ∧
      (pump wantStep l tr).1.ready = tr.ready ++ (tr.pumped wantStep l).flatMap tr.itemsOf ∧
      (pump wantStep l tr).2 = l.any (tr.stops wantStep) := by
  induction l generalizing tr with
  | nil => simp [pump, kept, pumped]
  | cons p rest ih =>
    obtain ⟨hsubs, hsel, hlog⟩ := tr.handle_frame p
    have hready := tr.handle_ready p
    have hpump : pump wantStep (p :: rest) tr = if tr.stops wantStep p then ({ tr.handle p with arrived := rest }, true)
        else pump wantStep rest { tr.handle p with arrived := rest } := rfl
    rw [hpump, kept, pumped, List.findIdx_cons]
    by_cases hstop : tr.stops wantStep p = true
    · simp only [hstop, if_true, cond_true, List.any_cons, Bool.true_or]
      exact ⟨hsubs, hsel, hlog, rfl, by simpa using hready, trivial⟩
    · rw [Bool.not_eq_true] at hstop
      simp only [hstop, Bool.false_eq_true, if_false, cond_false, List.any_cons, Bool.false_or]
      obtain ⟨h₁, h₂, h₃, h₄, h₅, h₆⟩ := ih { tr.handle p with arrived := rest }
      have hstops : DsaReader.stops { tr.handle p with arrived := rest } wantStep = tr.stops wantStep :=
        @stops_congr _ tr _ hsubs hsel wantStep
      have hitems : DsaReader.itemsOf { tr.handle p with arrived := rest } = tr.itemsOf :=
        @itemsOf_congr _ _ tr _ hsubs hsel
      rw [kept, hstops] at h₄
      rw [pumped, hstops, hitems] at h₅
      rw [hstops] at h₆
      refine ⟨h₁.trans hsubs, h₂.trans hsel, h₃.trans hlog, h₄, ?_, h₆⟩
      rw [h₅, List.take_succ_cons, List.flatMap_cons, ← List.append_assoc]
      exact congrArg (· ++ _) hready

/-! ## Items carry the writer's values -/

/-- The item is labelled as elements the event wrote, and holds their values. -/
structure DsaItem.From (ev : DataEvent α) (it : DsaItem α) : Prop where
  path : it.path = ev.path
  step : it.step = ev.step
  inside : ev.Holds ⟨it.elemStart, it.elemCount⟩
  buf : it.buf = ev.segment ⟨it.elemStart, it.elemCount⟩

/-- The item holds what one of the events of the log wrote. -/
def DsaItem.Exact (log : List (DsaEvent α)) (it : DsaItem α) : Prop := ∃ ev, .data ev ∈ log ∧ it.From ev

/-- The elements the reader's subscription has in the event now are the first of those its selector asked
for when it arrived. -/
def DsaReader.Agrees (tr : DsaReader α) (p : Pulled α) : Prop :=
  ∀ ev, p.event = .data ev → (tr.runs ev).flatMap Run.elems <+: p.asked.flatMap Run.elems

/-- Every event a call pumps agrees with the subscription it is split by. -/
def DsaReader.Agreeing (tr : DsaReader α) : DsaAct → Prop
  | .waitStep => ∀ p ∈ tr.pumped true tr.arrived, tr.Agrees p
  | .waitData => tr.ready = [] → ∀ p ∈ tr.pumped false tr.arrived, tr.Agrees p
  | _ => True

/-- What was asked of an event lies in it. -/
def Pulled.Asked (p : Pulled α) : Prop := ∀ ev, p.event = .data ev → ∀ r ∈ p.asked, ev.Holds r

theorem DsaReader.itemsOf_from {tr : DsaReader α} {p : Pulled α} (hasked : p.Asked) (hagree : tr.Agrees p) :
    ∀ it ∈ tr.itemsOf p, ∃ ev, p.event = .data ev ∧ it.From ev := by
  intro it hit
  unfold itemsOf at hit
  split at hit
  · rename_i ev hevent
    refine ⟨ev, hevent, ?_⟩
    unfold split at hit
    split at hit
    · exact absurd hit List.not_mem_nil
    · rename_i sub hsub
      have hinside := runsFor_inside tr.selecting sub ev
      have hfirst : (runsFor tr.selecting sub ev).1.flatMap Run.elems <+: p.asked.flatMap Run.elems := by
        have := hagree ev hevent
        rwa [runs, hsub] at this
      simp only at hit
      rw [split_segments (hasked ev hevent) hinside hfirst] at hit
      obtain ⟨r, hr, rfl⟩ := List.mem_map.mp hit
      exact ⟨rfl, rfl, hinside r hr, rfl⟩
  · exact absurd hit List.not_mem_nil

/-- What holds along a run: everything still comes from the log, and everything ready is exact. -/
structure DsaReader.Sound (written : List (DsaEvent α)) (tr : DsaReader α) : Prop where
  log : ∀ event ∈ tr.log, event ∈ written
  arrived : ∀ p ∈ tr.arrived, p.event ∈ written ∧ p.Asked
  ready : ∀ it ∈ tr.ready, it.Exact written

theorem DsaReader.Sound.pump {log : List (DsaEvent α)} {tr : DsaReader α} (h : tr.Sound log) {wantStep : Bool}
    (hagree : ∀ p ∈ tr.pumped wantStep tr.arrived, tr.Agrees p) :
    (DsaReader.pump wantStep tr.arrived tr).1.Sound log := by
  obtain ⟨-, -, hlog, harrived, hready, -⟩ := DsaReader.pump_spec wantStep tr.arrived tr
  have hpart := tr.pumped_append_kept wantStep tr.arrived
  refine ⟨hlog ▸ h.log, fun p hp => ?_, fun it hit => ?_⟩
  · rw [harrived] at hp
    exact h.arrived p (hpart ▸ List.mem_append_right _ hp)
  · rw [hready] at hit
    rcases List.mem_append.mp hit with hit | hit
    · exact h.ready it hit
    · obtain ⟨p, hp, hit⟩ := List.mem_flatMap.mp hit
      obtain ⟨hin, hasked⟩ := h.arrived p (hpart ▸ List.mem_append_left _ hp)
      obtain ⟨ev, hevent, hfrom⟩ := DsaReader.itemsOf_from hasked (hagree p hp) it hit
      exact ⟨ev, hevent ▸ hin, hfrom⟩

omit [Zero α] in
theorem DsaReader.Sound.popReady {log : List (DsaEvent α)} {tr : DsaReader α} (h : tr.Sound log) :
    tr.popReady.1.Sound log ∧ ∀ it ∈ tr.popReady.2, it.Exact log :=
  ⟨⟨h.log, h.arrived, fun it hit => h.ready it (List.mem_of_mem_tail hit)⟩,
    fun it hit => h.ready it (List.mem_of_head? hit)⟩

theorem DsaReader.Sound.waitData {log : List (DsaEvent α)} {tr : DsaReader α} (h : tr.Sound log)
    (hagree : tr.Agreeing .waitData) : tr.waitData.1.Sound log ∧ ∀ it ∈ tr.waitData.2, it.Exact log := by
  unfold DsaReader.waitData
  split
  · rename_i hempty
    have hpump := h.pump (hagree (List.isEmpty_iff.mp hempty))
    split
    · rename_i tr' hresult
      rw [hresult] at hpump
      exact hpump.popReady
    · rename_i tr' hresult
      rw [hresult] at hpump
      exact ⟨hpump, fun it hit => by cases hit⟩
  · exact h.popReady

/-- One act keeps what holds along a run. -/
theorem DsaReader.Sound.step {log : List (DsaEvent α)} {tr : DsaReader α} (h : tr.Sound log) {act : DsaAct}
    (hagree : tr.Agreeing act) : (tr.step act).Sound log ∧ ∀ it ∈ tr.itemReturned act, it.Exact log := by
  have hnone : ∀ it ∈ ([] : List (DsaItem α)), it.Exact log := fun it hit => absurd hit List.not_mem_nil
  cases act with
  | arrive =>
    refine ⟨?_, hnone⟩
    show tr.arrive.Sound log
    unfold DsaReader.arrive
    split
    · exact h
    · rename_i event rest hlog
      have hin := h.log
      rw [hlog] at hin
      refine ⟨fun e he => hin e (List.mem_cons_of_mem _ he), fun p hp => ?_, h.ready⟩
      rcases List.mem_append.mp hp with hp | hp
      · exact h.arrived p hp
      · rw [List.mem_singleton.mp hp]
        refine ⟨hin event List.mem_cons_self, ?_⟩
        rintro ev rfl
        exact tr.runs_inside ev
  | subscribe path selStart selCount spaceEnc => exact ⟨⟨h.log, h.arrived, h.ready⟩, hnone⟩
  | subscribeType path given => exact ⟨⟨h.log, h.arrived, h.ready⟩, hnone⟩
  | subscribePredicate path predEnc => exact ⟨⟨h.log, h.arrived, h.ready⟩, hnone⟩
  | waitStep =>
    refine ⟨?_, hnone⟩
    have hpump : (DsaReader.pump true tr.arrived tr).1.Sound log := h.pump hagree
    show tr.waitStepReady.1.Sound log
    unfold DsaReader.waitStepReady
    split
    · rename_i tr' hresult
      rw [hresult] at hpump
      exact hpump
    · rename_i tr' hresult
      rw [hresult] at hpump
      exact hpump
  | waitData =>
    obtain ⟨hsound, hexact⟩ := h.waitData hagree
    exact ⟨hsound, fun it hit => hexact it (Option.mem_toList.mp hit)⟩

/-- Every item a reader is given holds the writer's values for the elements it is labelled with, in every run
in which whatever is pumped was asked for by runs that start with those it is split by. -/
theorem diaspora_items_exact {tr : DsaReader α} (harrived : tr.arrived = []) (hready : tr.ready = [])
    {acts : List DsaAct} (hagree : Runs.Meets DsaReader.step DsaReader.Agreeing tr acts) :
    ∀ it ∈ Runs.observed DsaReader.step DsaReader.itemReturned tr acts, it.Exact tr.log := by
  have hstart : tr.Sound tr.log := by
    refine ⟨fun _ he => he, fun p hp => ?_, fun it hit => ?_⟩
    · rw [harrived] at hp
      exact absurd hp List.not_mem_nil
    · rw [hready] at hit
      exact absurd hit List.not_mem_nil
  refine (Runs.run_keeps (P := fun s h => s.Sound tr.log ∧ ∀ it ∈ h, DsaItem.Exact tr.log it) (h := []) ?_
    ⟨hstart, fun it hit => absurd hit List.not_mem_nil⟩ hagree).2
  rintro s h act ⟨hs, hh⟩ hok
  obtain ⟨hstep, hitems⟩ := hs.step hok
  refine ⟨hstep, fun it hit => ?_⟩
  rcases List.mem_append.mp hit with hit | hit
  · exact hh it hit
  · exact hitems it hit

end Pump

/-- A write of four elements. -/
def fourWritten : DataEvent Nat := ⟨0, ['/', 'x'], 0, 4, none, none, [1, 2, 3, 4], rfl⟩

/-- A reader that has joined before the write arrives. -/
def joined : DsaReader Nat := ⟨false, fun _ => none, [.data fourWritten], [], [], 0, 0, false⟩

/-- Subscribed to the first two elements, the reader is given them. -/
theorem joined_exact : (joined.arrived = [] ∧ joined.ready = []) ∧
    ∀ it ∈ Runs.observed DsaReader.step DsaReader.itemReturned joined
      [.subscribe ['/', 'x'] 0 2 none, .arrive, .waitData], it.Exact joined.log := by
  refine ⟨⟨rfl, rfl⟩, diaspora_items_exact rfl rfl ⟨trivial, trivial, fun _ p hp => ?_, trivial⟩⟩
  have hp : p ∈ [(⟨.data fourWritten, [⟨0, 2⟩]⟩ : Pulled Nat)] := hp
  rw [List.mem_singleton.mp hp]
  rintro ev ⟨⟩
  exact List.prefix_rfl

/-- Re-subscribed to the last two after the event has arrived, it is given the first two as the last. -/
theorem joined_inexact : ¬∀ it ∈ Runs.observed DsaReader.step DsaReader.itemReturned joined
    [.subscribe ['/', 'x'] 0 2 none, .arrive, .subscribe ['/', 'x'] 2 2 none, .waitData], it.Exact joined.log := by
  intro hexact
  have hgiven : Runs.observed DsaReader.step DsaReader.itemReturned joined
      [.subscribe ['/', 'x'] 0 2 none, .arrive, .subscribe ['/', 'x'] 2 2 none, .waitData] =
        [⟨0, ['/', 'x'], [1, 2], 2, 2, none, ⟨false, false, false, false⟩⟩] := by decide
  rw [hgiven] at hexact
  obtain ⟨ev, hev, hfrom⟩ := hexact _ List.mem_cons_self
  have hev : DsaEvent.data ev = .data fourWritten := List.mem_singleton.mp hev
  cases hev
  exact absurd hfrom.buf (by decide)

end VolStream
