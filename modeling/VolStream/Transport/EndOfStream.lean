import Mathlib.Data.List.Nodup

/-!
# End of stream, as a subscriber sees it

A subscriber takes the stream to be over when every writer it knows has left the group and every
announced step has been consumed (`vs_tr_reader_end_of_stream`), or when the writer left its
"closed" marker. The group's updates, the announcements and the pushes arrive on handlers of
their own, the calls of the application in between, in any order.

`vs_membership_cb` sets a writer's gone flag when it leaves or is declared dead, and the data side's
`data_eos` with the last of them. Neither is cleared again, and `H5Fget_subscribed_data` looks at
`data_eos` alone. So a writer that comes back, a writer first heard of when the others had gone, and
a call for data before the last announcement is consumed all find the stream over too early. Away
from these, the end of the stream is sound.
-/

namespace VolStream

-- `vs_member_id_t`
abbrev MemberId := Nat

/-- The part of a reader's `vs_tr_t` that decides the end of the stream, with two facts about the
writer's side: whether the marker is on disk, and whether the writer has closed its file. -/
structure Subscriber where
  inGroup : Bool
  members : List MemberId
  -- `eos_writers` with `eos_writer_gone`
  eosWriters : List (MemberId × Bool)
  eosUntracked : Bool
  pending : List Nat
  data : List Nat
  dataEos : Bool
  stopped : Bool
  writerDone : Bool
  marker : Bool
  closed : Bool
deriving DecidableEq, Repr

/-- `H5VL__stream_transport_start_reader`, up to joining: a marker already there ends the stream
at once. -/
def Subscriber.start (alreadyDone : Bool) : Subscriber :=
  ⟨false, [], [], false, [], [], false, false, alreadyDone, alreadyDone, false⟩

/-- `flock_update_t`. -/
inductive Update where
  | joined
  | left
  | died
  | moved
deriving DecidableEq, Repr

/-! ## The handlers -/

-- `vs_tr_member_add`
def Subscriber.memberAdd (s : Subscriber) (id : MemberId) : Subscriber :=
  if id ∈ s.members then s else { s with members := s.members ++ [id] }

-- `vs_tr_member_remove`
def Subscriber.memberRemove (s : Subscriber) (id : MemberId) : Subscriber :=
  { s with members := s.members.erase id }

def Subscriber.knows (s : Subscriber) (id : MemberId) : Bool := s.eosWriters.any (·.1 = id)

/-- `vs_note_writer`; a writer that cannot be recorded is never known to have gone. -/
def Subscriber.noteWriter (s : Subscriber) (id : MemberId) (recorded : Bool) : Subscriber :=
  if s.knows id then s
  else if recorded then { s with eosWriters := s.eosWriters ++ [(id, false)] }
  else { s with eosUntracked := true }

/-- `vs_all_writers_gone`. -/
def Subscriber.allWritersGone (s : Subscriber) : Bool :=
  !s.eosWriters.isEmpty && !s.eosUntracked && s.eosWriters.all (·.2)

/-- `vs_writer_marked_done`. -/
def Subscriber.writerMarkedDone (s : Subscriber) : Bool := s.writerDone || s.marker

-- the gone flag of one member
def Subscriber.flagGone (s : Subscriber) (id : MemberId) : Subscriber :=
  { s with eosWriters := s.eosWriters.map fun w => if w.1 = id then (w.1, true) else w }

/-- `vs_membership_cb`, as far as a reader goes. -/
def Subscriber.membershipCb (s : Subscriber) (id : MemberId) : Update → Subscriber
  | .joined => s.memberAdd id
  | .moved => (s.memberRemove id).memberAdd id
  | _ =>
      let s := (s.memberRemove id).flagGone id
      if s.allWritersGone then { s with dataEos := true } else s

/-! ## The calls -/

inductive WaitResult where
  | got (physicalStep : Nat)
  | stopped
  | ended
  | waiting
deriving DecidableEq, Repr

/-- `vs_tr_reader_wait_step_ready`: one look at the condition it waits on. -/
def Subscriber.waitStepReady (s : Subscriber) : Subscriber × WaitResult :=
  match s.pending with
  | n :: rest => ({ s with pending := rest }, .got n)
  | [] =>
      if s.stopped then (s, .stopped)
      else if s.allWritersGone || s.writerMarkedDone then (s, .ended)
      else (s, .waiting)

/-- `vs_tr_reader_wait_data`: one look at the condition it waits on. -/
def Subscriber.waitData (s : Subscriber) : Subscriber × WaitResult :=
  match s.data with
  | n :: rest => ({ s with data := rest }, .got n)
  | [] => if s.stopped then (s, .stopped) else if s.dataEos then (s, .ended) else (s, .waiting)

/-- `vs_tr_reader_end_of_stream`, which `H5Fstep_status` reports as `H5F_STEP_EOS`. -/
def Subscriber.endOfStream (s : Subscriber) : Bool :=
  (s.allWritersGone || s.writerMarkedDone) && s.pending.isEmpty

/-! ## Runs -/

/-- What can happen to a subscriber. `recorded` and `queued` are the answers of the allocator,
`sender` the process an RPC comes from. -/
inductive GroupEvent where
  | joinGroup (view : List MemberId)
  | update (id : MemberId) (update : Update)
  | probeAnswered (id : MemberId) (recorded : Bool)
  | seeded (physicalStep : Nat) (queued : Bool)
  | stepReady (sender : MemberId) (physicalStep : Nat) (recorded queued : Bool)
  | dataPush (sender : MemberId) (physicalStep : Nat) (queued : Bool)
  | writerCloses (markerWritten : Bool)
  | markerRemoved
  | stepStatus
  | waitStepReady
  | waitData
  | stop
deriving DecidableEq, Repr

-- `vs_push_pending`
def Subscriber.pushPending (s : Subscriber) (n : Nat) (queued : Bool) : Subscriber :=
  if queued then { s with pending := s.pending ++ [n] } else s

/-- One event. A writer whose file is closed ends no further step, and a process that joined no
group is sent nothing. -/
def Subscriber.apply (s : Subscriber) : GroupEvent → Subscriber
  | .joinGroup view =>
      if s.inGroup || s.writerDone then s else view.foldl Subscriber.memberAdd { s with inGroup := true }
  | .update id u => if s.inGroup then s.membershipCb id u else s
  | .probeAnswered id recorded => if s.inGroup then s.noteWriter id recorded else s
  | .seeded n queued => if s.inGroup then s.pushPending n queued else s
  | .stepReady sender n recorded queued =>
      if s.inGroup && !s.closed then (s.noteWriter sender recorded).pushPending n queued else s
  | .dataPush _ n queued =>
      if s.inGroup && !s.closed && queued then { s with data := s.data ++ [n] } else s
  | .writerCloses written => { s with closed := true, marker := s.marker || written }
  | .markerRemoved => { s with marker := false }
  | .stepStatus => s
  | .waitStepReady => s.waitStepReady.1
  | .waitData => s.waitData.1
  | .stop => { s with stopped := true }

def Subscriber.run (s : Subscriber) (events : List GroupEvent) : Subscriber := events.foldl Subscriber.apply s

/-- The call tells the application that the stream is over. -/
def Subscriber.reportsEnd (s : Subscriber) : GroupEvent → Bool
  | .stepStatus => s.endOfStream
  | .waitStepReady => s.waitStepReady.2 = .ended
  | .waitData => s.waitData.2 = .ended
  | _ => false

/-- A step announced or data pushed by a member of the group. -/
def Subscriber.hears (s : Subscriber) : GroupEvent → Bool
  | .stepReady sender _ _ _ => s.inGroup && !s.closed && decide (sender ∈ s.members)
  | .dataPush sender _ _ => s.inGroup && !s.closed && decide (sender ∈ s.members)
  | _ => false

/-- No known writer is a member, or the marker is there, and nothing announced waits. -/
def Subscriber.Over (s : Subscriber) : Prop :=
  (s.marker ∨ ∀ id ∈ s.members, s.knows id = false) ∧ s.pending = []

/-- The end of the stream is sound along a run: it is reported only when the stream is over, and
after a report no member is heard of. `reported` says whether the end was reported before. -/
def Subscriber.SoundFrom : Bool → Subscriber → List GroupEvent → Prop
  | _, _, [] => True
  | reported, s, ev :: events =>
      (s.reportsEnd ev → s.Over) ∧ (s.hears ev → reported = false) ∧
        (s.apply ev).SoundFrom (reported || s.reportsEnd ev) events

/-! ## When the end is sound -/

/-- The writer is a member the reader has not heard of, although every writer it knew has gone. -/
def Subscriber.unheardOf (s : Subscriber) (id : MemberId) : Bool :=
  s.dataEos && decide (id ∈ s.members) && !s.knows id

/-- The event neither brings back a writer that had gone, nor is the first word of a writer after
all the known ones had gone, nor asks for data with announcements unconsumed after that. -/
def Subscriber.steady (s : Subscriber) : GroupEvent → Bool
  | .update id .joined => !s.eosWriters.contains (id, true) && !(s.dataEos && s.knows id)
  | .update id .moved => !s.eosWriters.contains (id, true) && !(s.dataEos && s.knows id)
  | .probeAnswered id _ => !s.unheardOf id
  | .stepReady sender _ _ _ => !s.unheardOf sender
  | .dataPush sender _ _ => !s.unheardOf sender
  | .waitData => !(s.dataEos && s.data.isEmpty && !s.stopped && !s.pending.isEmpty)
  | _ => true

/-- Every event of the run is steady in the state it finds. -/
def Subscriber.SteadyFrom : Subscriber → List GroupEvent → Prop
  | _, [] => True
  | s, ev :: events => s.steady ev ∧ (s.apply ev).SteadyFrom events

/-- What a steady run keeps: the flags agree with the membership. -/
structure Subscriber.Consistent (reported : Bool) (s : Subscriber) : Prop where
  nodup : s.members.Nodup
  gone : ∀ id, (id, true) ∈ s.eosWriters → id ∉ s.members
  ended : s.dataEos → ∀ id ∈ s.members, s.knows id = false
  latched : s.allWritersGone → s.dataEos
  outside : s.inGroup = false → s.members = [] ∧ s.eosWriters = []
  done : s.writerDone → s.inGroup = false
  marked : s.marker → s.closed ∨ s.writerDone
  reported : reported → s.closed ∨ s.writerDone ∨ s.dataEos

theorem Subscriber.consistent_start (alreadyDone : Bool) : (Subscriber.start alreadyDone).Consistent false where
  nodup := List.nodup_nil
  gone := fun _ h => nomatch h
  ended := fun h => nomatch h
  latched := fun h => nomatch h
  outside := fun _ => ⟨rfl, rfl⟩
  done := fun _ => rfl
  marked := fun h => .inr h
  reported := fun h => nomatch h

theorem Subscriber.knows_iff (s : Subscriber) (id : MemberId) : s.knows id ↔ ∃ gone, (id, gone) ∈ s.eosWriters := by
  unfold Subscriber.knows
  rw [List.any_eq_true]
  constructor
  · rintro ⟨⟨id', gone⟩, hmem, hid⟩
    obtain rfl : id' = id := by simpa using hid
    exact ⟨gone, hmem⟩
  · rintro ⟨gone, hmem⟩
    exact ⟨(id, gone), hmem, by simp⟩

/-- A writer that all known ones have outlived is known and gone. -/
theorem Subscriber.gone_of_allWritersGone {s : Subscriber} (h : s.allWritersGone) {id : MemberId}
    (hid : s.knows id) : (id, true) ∈ s.eosWriters := by
  obtain ⟨gone, hmem⟩ := (s.knows_iff id).mp hid
  unfold Subscriber.allWritersGone at h
  simp only [Bool.and_eq_true, List.all_eq_true] at h
  have hgone : gone = true := h.2 (id, gone) hmem
  rw [← hgone]
  exact hmem

/-- The end as the flags give it is the end of the stream. -/
theorem Subscriber.Consistent.over {reported : Bool} {s : Subscriber} (h : s.Consistent reported)
    (hend : s.allWritersGone ∨ s.writerMarkedDone) (hpending : s.pending = []) : s.Over := by
  refine ⟨?_, hpending⟩
  rcases hend with hgone | hdone
  · refine .inr (fun id hid => ?_)
    rw [Bool.eq_false_iff]
    intro hknown
    exact h.gone id (s.gone_of_allWritersGone hgone hknown) hid
  · unfold Subscriber.writerMarkedDone at hdone
    rw [Bool.or_eq_true] at hdone
    rcases hdone with hdone | hmarker
    · refine .inr (fun id hid => ?_)
      rw [(h.outside (h.done hdone)).1] at hid
      cases hid
    · exact .inl hmarker

/-! ### The handlers keep the flags consistent -/

theorem Subscriber.Consistent.memberAdd {reported : Bool} {s : Subscriber} (h : s.Consistent reported)
    (hin : s.inGroup = true) {id : MemberId} (hgone : (id, true) ∉ s.eosWriters)
    (hended : s.dataEos → s.knows id = false) : (s.memberAdd id).Consistent reported := by
  unfold Subscriber.memberAdd
  split
  · exact h
  · rename_i hnew
    refine ⟨?_, ?_, ?_, h.latched, ?_, h.done, h.marked, h.reported⟩
    · exact List.nodup_append.mpr ⟨h.nodup, List.nodup_singleton id, by
        rintro a ha b hb rfl
        exact hnew (List.mem_singleton.mp hb ▸ ha)⟩
    · intro id' hid' hmem
      rcases List.mem_append.mp hmem with hmem | hmem
      · exact h.gone id' hid' hmem
      · rw [List.mem_singleton.mp hmem] at hid'
        exact hgone hid'
    · intro hd id' hmem
      rcases List.mem_append.mp hmem with hmem | hmem
      · exact h.ended hd id' hmem
      · rw [List.mem_singleton.mp hmem]
        exact hended hd
    · intro hout
      have hfalse : s.inGroup = false := hout
      rw [hin] at hfalse
      cases hfalse

theorem Subscriber.Consistent.memberRemove {reported : Bool} {s : Subscriber} (h : s.Consistent reported)
    (id : MemberId) : (s.memberRemove id).Consistent reported where
  nodup := h.nodup.erase id
  gone := fun id' hid' hmem => h.gone id' hid' (List.mem_of_mem_erase hmem)
  ended := fun hd id' hmem => h.ended hd id' (List.mem_of_mem_erase hmem)
  latched := h.latched
  outside := fun hout => ⟨by
    show s.members.erase id = []
    rw [(h.outside hout).1]
    rfl, (h.outside hout).2⟩
  done := h.done
  marked := h.marked
  reported := h.reported

/-- A writer heard of when the end is not reached yet, or not a member, may be noted. -/
theorem Subscriber.Consistent.noteWriter {reported : Bool} {s : Subscriber} (h : s.Consistent reported)
    (hin : s.inGroup = true) {id : MemberId} (hheard : s.unheardOf id = false) (recorded : Bool) :
    (s.noteWriter id recorded).Consistent reported := by
  unfold Subscriber.noteWriter
  split
  · exact h
  · rename_i hunknown
    split
    · refine ⟨h.nodup, ?_, ?_, ?_, ?_, h.done, h.marked, h.reported⟩
      · intro id' hid'
        rcases List.mem_append.mp hid' with hid' | hid'
        · exact h.gone id' hid'
        · -- the new flag is not set
          have hfalse := congrArg Prod.snd (List.mem_singleton.mp hid')
          cases hfalse
      · intro hd id' hmem
        have hold := h.ended hd id' hmem
        show (s.eosWriters ++ [(id, false)]).any (·.1 = id') = false
        rw [List.any_append, Bool.or_eq_false_iff]
        refine ⟨hold, ?_⟩
        have hne : id ≠ id' := by
          rintro rfl
          have hd' : s.dataEos = true := hd
          have hmem' : id ∈ s.members := hmem
          unfold Subscriber.unheardOf at hheard
          simp [hd', hmem', hunknown] at hheard
        simpa using hne
      · intro hall
        unfold Subscriber.allWritersGone at hall
        simp at hall
      · intro hout
        have hfalse : s.inGroup = false := hout
        rw [hin] at hfalse
        cases hfalse
    · refine ⟨h.nodup, h.gone, h.ended, ?_, h.outside, h.done, h.marked, h.reported⟩
      intro hall
      unfold Subscriber.allWritersGone at hall
      simp at hall

theorem Subscriber.knows_flagGone (s : Subscriber) (id id' : MemberId) :
    (s.flagGone id).knows id' = s.knows id' := by
  unfold Subscriber.flagGone Subscriber.knows
  rw [List.any_map]
  congr 1
  funext w
  show decide ((if w.1 = id then (w.1, true) else w).1 = id') = _
  split <;> rfl

/-- A departure, with the flags and the latch it sets. -/
theorem Subscriber.Consistent.depart {reported : Bool} {s : Subscriber} (h : s.Consistent reported)
    (hin : s.inGroup = true) (id : MemberId) :
    (let s := (s.memberRemove id).flagGone id
      if s.allWritersGone then { s with dataEos := true } else s).Consistent reported := by
  have hremoved := h.memberRemove id
  have hgone : ∀ id', (id', true) ∈ ((s.memberRemove id).flagGone id).eosWriters →
      id' ∉ (s.memberRemove id).members := by
    intro id' hid'
    obtain ⟨⟨w, flag⟩, hw, heq⟩ := List.mem_map.mp hid'
    by_cases hwid : w = id
    · simp only [hwid, if_pos, Prod.mk.injEq, and_true] at heq
      subst heq
      exact h.nodup.not_mem_erase
    · simp only [if_neg hwid, Prod.mk.injEq] at heq
      obtain ⟨rfl, rfl⟩ := heq
      exact hremoved.gone w hw
  have hout : s.inGroup ≠ false := by
    rw [hin]
    exact Bool.noConfusion
  simp only
  split
  · rename_i hall
    refine ⟨hremoved.nodup, hgone, ?_, fun _ => rfl, fun hf => absurd hf hout, h.done, h.marked, ?_⟩
    · -- everyone known is flagged, and nobody flagged is a member
      intro _ id' hmem
      rw [Bool.eq_false_iff]
      intro hknown
      exact hgone id' (Subscriber.gone_of_allWritersGone hall hknown) hmem
    · exact fun _ => .inr (.inr rfl)
  · rename_i hall
    refine ⟨hremoved.nodup, hgone, ?_, fun hf => absurd hf hall, fun hf => absurd hf hout, h.done, h.marked,
      h.reported⟩
    intro hd id' hmem
    rw [Subscriber.knows_flagGone]
    exact hremoved.ended hd id' hmem

-- the queues are not looked at
theorem Subscriber.Consistent.queues {reported : Bool} {s : Subscriber} (h : s.Consistent reported)
    (pending data : List Nat) (stopped : Bool) :
    { s with pending := pending, data := data, stopped := stopped }.Consistent reported :=
  ⟨h.nodup, h.gone, h.ended, h.latched, h.outside, h.done, h.marked, h.reported⟩

theorem Subscriber.Consistent.pushPending {reported : Bool} {s : Subscriber} (h : s.Consistent reported)
    (n : Nat) (queued : Bool) : (s.pushPending n queued).Consistent reported := by
  unfold Subscriber.pushPending
  split
  · exact h.queues _ _ _
  · exact h

theorem Subscriber.inGroup_memberAdd (s : Subscriber) (id : MemberId) : (s.memberAdd id).inGroup = s.inGroup := by
  unfold Subscriber.memberAdd
  split <;> rfl

theorem Subscriber.eosWriters_memberAdd (s : Subscriber) (id : MemberId) :
    (s.memberAdd id).eosWriters = s.eosWriters := by
  unfold Subscriber.memberAdd
  split <;> rfl

-- the members found on joining, when no writer is known yet
theorem Subscriber.Consistent.addView {reported : Bool} (view : List MemberId) {s : Subscriber}
    (h : s.Consistent reported) (hin : s.inGroup = true) (hnone : s.eosWriters = []) :
    (view.foldl Subscriber.memberAdd s).Consistent reported := by
  induction view generalizing s with
  | nil => exact h
  | cons id view ih =>
    have hgone : (id, true) ∉ s.eosWriters := by
      rw [hnone]
      exact List.not_mem_nil
    have hknown : s.knows id = false := by
      unfold Subscriber.knows
      rw [hnone]
      rfl
    exact ih (h.memberAdd hin hgone (fun _ => hknown)) ((s.inGroup_memberAdd id).trans hin)
      ((s.eosWriters_memberAdd id).trans hnone)

/-- The membership callback, when it brings back no writer that had gone. -/
theorem Subscriber.Consistent.membershipCb {reported : Bool} {s : Subscriber} (h : s.Consistent reported)
    (hin : s.inGroup = true) {id : MemberId} {u : Update} (hsteady : s.steady (.update id u)) :
    (s.membershipCb id u).Consistent reported := by
  have hback : ∀ flag : Bool, (!s.eosWriters.contains (id, true) && !(s.dataEos && flag)) = true →
      (id, true) ∉ s.eosWriters ∧ (s.dataEos → flag = false) := by
    intro flag hflag
    rw [Bool.and_eq_true, Bool.not_eq_true', Bool.not_eq_true'] at hflag
    refine ⟨fun hmem => ?_, fun hd => ?_⟩
    · rw [List.contains_iff_mem.mpr hmem] at hflag
      cases hflag.1
    · rw [hd] at hflag
      exact hflag.2
  cases u with
  | joined =>
    obtain ⟨hgone, hended⟩ := hback (s.knows id) hsteady
    exact h.memberAdd hin hgone hended
  | moved =>
    obtain ⟨hgone, hended⟩ := hback (s.knows id) hsteady
    exact (h.memberRemove id).memberAdd hin hgone hended
  | left => exact h.depart hin id
  | died => exact h.depart hin id

theorem Subscriber.Consistent.apply {reported : Bool} {s : Subscriber} (h : s.Consistent reported)
    {ev : GroupEvent} (hsteady : s.steady ev) : (s.apply ev).Consistent reported := by
  have hheard : ∀ id, (!s.unheardOf id) = true → s.unheardOf id = false := fun id hid => by simpa using hid
  cases ev with
  | joinGroup view =>
    simp only [Subscriber.apply]
    split
    · exact h
    · rename_i hnot
      rw [Bool.not_eq_true, Bool.or_eq_false_iff] at hnot
      obtain ⟨hmembers, hwriters⟩ := h.outside hnot.1
      have hdone : ¬ s.writerDone = true := by
        rw [hnot.2]
        exact Bool.noConfusion
      exact Subscriber.Consistent.addView view
        ⟨h.nodup, h.gone, h.ended, h.latched, fun hf => (Bool.noConfusion hf), fun hd => absurd hd hdone,
          h.marked, h.reported⟩ rfl hwriters
  | update id u =>
    simp only [Subscriber.apply]
    split
    · rename_i hin
      exact h.membershipCb hin hsteady
    · exact h
  | probeAnswered id recorded =>
    simp only [Subscriber.apply]
    split
    · rename_i hin
      exact h.noteWriter hin (hheard id hsteady) recorded
    · exact h
  | seeded n queued =>
    simp only [Subscriber.apply]
    split
    · exact h.pushPending n queued
    · exact h
  | stepReady sender n recorded queued =>
    simp only [Subscriber.apply]
    split
    · rename_i hin
      rw [Bool.and_eq_true] at hin
      exact (h.noteWriter hin.1 (hheard sender hsteady) recorded).pushPending n queued
    · exact h
  | dataPush sender n queued =>
    simp only [Subscriber.apply]
    split
    · exact h.queues _ _ _
    · exact h
  | writerCloses written =>
    exact ⟨h.nodup, h.gone, h.ended, h.latched, h.outside, h.done, fun _ => .inl rfl, fun _ => .inl rfl⟩
  | markerRemoved =>
    exact ⟨h.nodup, h.gone, h.ended, h.latched, h.outside, h.done, fun hf => Bool.noConfusion hf, h.reported⟩
  | stepStatus => exact h
  | waitStepReady =>
    simp only [Subscriber.apply, Subscriber.waitStepReady]
    split
    · exact h.queues _ _ _
    · split
      · exact h
      · split
        · exact h
        · exact h
  | waitData =>
    simp only [Subscriber.apply, Subscriber.waitData]
    split
    · exact h.queues _ _ _
    · split
      · exact h
      · split
        · exact h
        · exact h
  | stop => exact h.queues _ _ _

/-! ### What a report and a message tell -/

theorem Subscriber.of_waitStepReady_ended (s : Subscriber) (h : s.waitStepReady.2 = .ended) :
    s.pending = [] ∧ (s.allWritersGone ∨ s.writerMarkedDone) := by
  unfold Subscriber.waitStepReady at h
  split at h
  · cases h
  · rename_i hpending
    split at h
    · cases h
    · split at h
      · rename_i hover
        rw [Bool.or_eq_true] at hover
        exact ⟨hpending, hover⟩
      · cases h

theorem Subscriber.of_waitData_ended (s : Subscriber) (h : s.waitData.2 = .ended) :
    s.data = [] ∧ s.stopped = false ∧ s.dataEos = true := by
  unfold Subscriber.waitData at h
  split at h
  · cases h
  · rename_i hdata
    split at h
    · cases h
    · rename_i hstopped
      split at h
      · rename_i hd
        exact ⟨hdata, Bool.eq_false_iff.mpr hstopped, hd⟩
      · cases h

/-- A steady call reports the end only when the stream is over, by the flags that stay set. -/
theorem Subscriber.Consistent.of_reportsEnd {reported : Bool} {s : Subscriber} (h : s.Consistent reported)
    {ev : GroupEvent} (hsteady : s.steady ev) (hend : s.reportsEnd ev) :
    s.Over ∧ (s.closed ∨ s.writerDone ∨ s.dataEos) := by
  have hlatched : s.allWritersGone ∨ s.writerMarkedDone → s.closed ∨ s.writerDone ∨ s.dataEos := by
    rintro (hgone | hdone)
    · exact .inr (.inr (h.latched hgone))
    · unfold Subscriber.writerMarkedDone at hdone
      rw [Bool.or_eq_true] at hdone
      rcases hdone with hdone | hmarker
      · exact .inr (.inl hdone)
      · rcases h.marked hmarker with hclosed | hdone
        · exact .inl hclosed
        · exact .inr (.inl hdone)
  cases ev with
  | stepStatus =>
    simp only [Subscriber.reportsEnd, Subscriber.endOfStream, Bool.and_eq_true, Bool.or_eq_true,
      List.isEmpty_iff] at hend
    exact ⟨h.over hend.1 hend.2, hlatched hend.1⟩
  | waitStepReady =>
    obtain ⟨hpending, hover⟩ := s.of_waitStepReady_ended (of_decide_eq_true hend)
    exact ⟨h.over hover hpending, hlatched hover⟩
  | waitData =>
    obtain ⟨hdata, hstopped, hd⟩ := s.of_waitData_ended (of_decide_eq_true hend)
    have hpending : s.pending = [] := by simpa [Subscriber.steady, hdata, hd, hstopped] using hsteady
    exact ⟨⟨.inr (h.ended hd), hpending⟩, .inr (.inr hd)⟩
  | _ => cases hend

/-- After a report no member of the group is heard of. -/
theorem Subscriber.Consistent.of_hears {reported : Bool} {s : Subscriber} (h : s.Consistent reported)
    {ev : GroupEvent} (hsteady : s.steady ev) (hhears : s.hears ev) : reported = false := by
  have hmember : ∀ id, (!s.unheardOf id) = true →
      (s.inGroup && !s.closed && decide (id ∈ s.members)) = true → reported = false := by
    intro id hid hin
    simp only [Bool.and_eq_true, Bool.not_eq_true', decide_eq_true_eq] at hin
    obtain ⟨⟨hgroup, hopen⟩, hmem⟩ := hin
    rw [Bool.eq_false_iff]
    intro hreported
    rcases h.reported hreported with hclosed | hdone | hd
    · rw [hopen] at hclosed
      cases hclosed
    · rw [h.done hdone] at hgroup
      cases hgroup
    · -- the end was latched: a known member contradicts it, an unknown one is not steady
      have hunknown := h.ended hd id hmem
      unfold Subscriber.unheardOf at hid
      simp [hd, hmem, hunknown] at hid
  cases ev with
  | stepReady sender n recorded queued => exact hmember sender hsteady hhears
  | dataPush sender n queued => exact hmember sender hsteady hhears
  | _ => cases hhears

/-- A steady event, with whether it reports the end remembered. -/
theorem Subscriber.Consistent.next {reported : Bool} {s : Subscriber} (h : s.Consistent reported)
    {ev : GroupEvent} (hsteady : s.steady ev) :
    (s.apply ev).Consistent (reported || s.reportsEnd ev) := by
  cases hend : s.reportsEnd ev with
  | false =>
    rw [Bool.or_false]
    exact h.apply hsteady
  | true =>
    have hlatched := (h.of_reportsEnd hsteady hend).2
    have hnow : s.Consistent true :=
      ⟨h.nodup, h.gone, h.ended, h.latched, h.outside, h.done, h.marked, fun _ => hlatched⟩
    rw [Bool.or_true]
    exact hnow.apply hsteady

theorem Subscriber.Consistent.sound {reported : Bool} {s : Subscriber} (h : s.Consistent reported)
    {events : List GroupEvent} (hsteady : s.SteadyFrom events) : Subscriber.SoundFrom reported s events := by
  induction events generalizing reported s with
  | nil => trivial
  | cons ev events ih =>
    obtain ⟨hev, hrest⟩ := hsteady
    exact ⟨fun hend => (h.of_reportsEnd hev hend).1, fun hhears => h.of_hears hev hhears, ih (h.next hev) hrest⟩

/-- **The end of the stream is sound in every steady run**, whatever the order of updates,
announcements, pushes, probe answers and calls. -/
theorem endOfStream_sound (alreadyDone : Bool) (events : List GroupEvent)
    (hsteady : (Subscriber.start alreadyDone).SteadyFrom events) :
    Subscriber.SoundFrom false (Subscriber.start alreadyDone) events :=
  (Subscriber.consistent_start alreadyDone).sound hsteady

instance Subscriber.decidableSteadyFrom : ∀ (s : Subscriber) (events : List GroupEvent),
    Decidable (s.SteadyFrom events)
  | _, [] => .isTrue trivial
  | s, ev :: events =>
      haveI := Subscriber.decidableSteadyFrom (s.apply ev) events
      inferInstanceAs (Decidable (_ ∧ _))

-- a writer announces two steps, pushes data of one and leaves; the subscriber consumes them
def departingWriter : List GroupEvent :=
  [.joinGroup [5], .stepReady 5 0 true true, .dataPush 5 0 true, .stepReady 5 1 true true, .update 5 .left,
    .waitStepReady, .waitData, .stepStatus, .waitStepReady, .stepStatus, .waitStepReady, .waitData]

theorem departingWriter_sound :
    (Subscriber.start false).SteadyFrom departingWriter ∧
      Subscriber.SoundFrom false (Subscriber.start false) departingWriter :=
  ⟨by decide, endOfStream_sound false departingWriter (by decide)⟩

-- a writer falsely declared dead joins again, and the flag stays
def returningWriter : List GroupEvent :=
  [.joinGroup [5], .stepReady 5 0 true true, .waitStepReady, .update 5 .died, .update 5 .joined, .stepStatus]

/-- A writer falsely declared dead that joins again is in the group when the end is reported. -/
theorem returningWriter_not_sound :
    ¬ ∀ (alreadyDone : Bool) (events : List GroupEvent),
      Subscriber.SoundFrom false (Subscriber.start alreadyDone) events := by
  intro h
  have hover := (h false returningWriter).2.2.2.2.2.2.2.2.2.2.1 (by decide)
  rcases hover.1 with hmarker | hmembers
  · exact absurd hmarker (by decide)
  · exact absurd (hmembers 5 (by decide)) (by decide)

end VolStream
