import Mathlib.Logic.Function.Basic
import VolStream.Lib.HighWater
import VolStream.Lib.Run
import VolStream.Transport.EndOfStream

/-!
# Acknowledgements

A reader acknowledges the steps it has read to one writer of its group: to the one it knows, or to every member in
turn until one answers as a writer (`vs_tr_reader_ack_step`). A request may be lost, and it may be handled after the
reader has stopped waiting for the answer; the reader then asks again, perhaps another writer. `vs_reader_ack_ult`
keeps the greatest step of each reader, and `vs_tr_writer_min_acked_step` finds the least of the readers that are still
there. An event is one call's next action, or the handling of one request, so that anything may happen in between.
-/

namespace VolStream

open HighWater

/-- Where a call of `vs_tr_reader_ack_step` is: about to forward to the writer it knows, about to take the snapshot,
or about to forward to the first member that is left. -/
inductive AckCall where
  | idle
  | cached (step : Nat) (writer : MemberId)
  | fallback (step : Nat)
  | probing (step : Nat) (left : List MemberId)
deriving DecidableEq, Repr

/-- The part of a process's `vs_tr_t` that acknowledgements use; `writer` is `writer_member_id`, once known. -/
structure AckPeer where
  isWriter : Bool
  inGroup : Bool
  members : List MemberId
  writer : Option MemberId
  lag : Table MemberId Nat
  call : AckCall
deriving DecidableEq, Repr

/-- `vs_reader_ack_in_t`, on its way to a member. -/
structure AckMsg where
  target : MemberId
  member : MemberId
  step : Nat
deriving DecidableEq, Repr

/-- The processes by their member ids, and the requests that nobody waits for any more. -/
structure AckGroup where
  peers : MemberId → Option AckPeer
  flight : List AckMsg

def AckGroup.start : AckGroup := ⟨fun _ => none, []⟩

-- one process
def AckGroup.amend (g : AckGroup) (id : MemberId) (f : AckPeer → AckPeer) : AckGroup :=
  { g with peers := Function.update g.peers id ((g.peers id).map f) }

def AckPeer.at (p : AckPeer) (call : AckCall) : AckPeer := { p with call := call }

/-! ## The writer's side -/

/-- `vs_reader_ack_ult`, and whether it answers 0. `room` is the allocator's answer. -/
def AckGroup.readerAckUlt (g : AckGroup) (m : AckMsg) (room : Bool) : AckGroup × Bool :=
  match g.peers m.target with
  | none => (g, false)
  | some p =>
    if p.isWriter then
      (g.amend m.target fun p => { p with lag := report room p.lag m.member m.step }, true)
    else (g, false)

-- the lag table of a process
def AckGroup.lag (g : AckGroup) (id : MemberId) : Table MemberId Nat := ((g.peers id).map (·.lag)).getD []

/-- `vs_tr_member_is_present`. -/
def AckGroup.present (g : AckGroup) (id member : MemberId) : Bool :=
  (g.peers id).any fun p => decide (member ∈ p.members)

/-- `vs_tr_writer_min_acked_step`. -/
def AckGroup.minAckedStep (g : AckGroup) (id : MemberId) : Option Nat := least (g.present id) (g.lag id)

/-! ## The reader's side -/

/-- How one forward ends. A request that is late is handled later, or never. -/
inductive Forward where
  | lost
  | late
  | unheard (room : Bool)
  | answered (room : Bool)
deriving DecidableEq, Repr

/-- One forward of a request, and whether the answer 0 was heard. -/
def AckGroup.send (g : AckGroup) (m : AckMsg) : Forward → AckGroup × Bool
  | .lost => (g, false)
  | .late => ({ g with flight := g.flight ++ [m] }, false)
  | .unheard room => ((g.readerAckUlt m room).1, false)
  | .answered room => g.readerAckUlt m room

/-- The same to a member, which may have left (`vs_tr_member_addr`). -/
def AckGroup.forwardTo (g : AckGroup) (members : List MemberId) (m : AckMsg) (outcome : Forward) : AckGroup × Bool :=
  if m.target ∈ members then g.send m outcome else (g, false)

/-- The call begins. -/
def AckPeer.readerAckStep (p : AckPeer) (step : Nat) : AckPeer :=
  if p.call = .idle ∧ p.inGroup then
    match p.writer with
    | some writer => p.at (.cached step writer)
    | none => p.at (.fallback step)
  else p

/-- `vs_tr_snapshot_members`, after the known writer has not answered. -/
def AckPeer.snapshotMembers (p : AckPeer) (self : MemberId) (room : Bool) : AckPeer :=
  match p.call with
  | .fallback step =>
    if p.inGroup ∧ room then p.at (.probing step (p.members.filter (· ≠ self))) else p.at .idle
  | _ => p

/-- The call's next forward, and the member that answered it with 0. -/
def AckGroup.forward (g : AckGroup) (id : MemberId) (outcome : Forward) : AckGroup × Option (MemberId × Nat) :=
  match g.peers id with
  | none => (g, none)
  | some p =>
    match p.call with
    | .cached step writer =>
      let (g, heard) := g.forwardTo p.members ⟨writer, id, step⟩ outcome
      if heard then (g.amend id (·.at .idle), some (writer, step))
      else (g.amend id (·.at (.fallback step)), none)
    | .probing step (member :: left) =>
      let (g, heard) := g.forwardTo p.members ⟨member, id, step⟩ outcome
      -- `vs_learn_writer`
      if heard then (g.amend id fun p => { p.at .idle with writer := some member }, some (member, step))
      else (g.amend id (·.at (.probing step left)), none)
    | .probing _ [] => (g.amend id (·.at .idle), none)
    | _ => (g, none)

/-! ## Runs -/

/-- `learn` stands for the other calls that find a writer. -/
inductive AckEvent where
  | start (id : MemberId) (isWriter : Bool) (members : List MemberId)
  | stop (id : MemberId)
  | leave (id : MemberId)
  | update (id member : MemberId) (update : Update)
  | learn (id writer : MemberId)
  | ack (id : MemberId) (step : Nat)
  | snapshot (id : MemberId) (room : Bool)
  | forward (id : MemberId) (outcome : Forward)
  | arrive (i : Nat) (room : Bool)
deriving DecidableEq, Repr

-- `vs_membership_cb`, as far as the member table goes
def membersAfter (self : MemberId) (members : List MemberId) (member : MemberId) : Update → List MemberId
  | .joined => if member = self ∨ member ∈ members then members else members ++ [member]
  | .moved =>
    let members := members.erase member
    if member = self ∨ member ∈ members then members else members ++ [member]
  | _ => members.erase member

-- a late request is handled after all
def AckGroup.arrive (g : AckGroup) (i : Nat) (room : Bool) : AckGroup :=
  match g.flight[i]? with
  | none => g
  | some m => ({ g with flight := g.flight.eraseIdx i }.readerAckUlt m room).1

def AckGroup.apply (g : AckGroup) : AckEvent → AckGroup
  | .start id isWriter members =>
    { g with peers := Function.update g.peers id (some ⟨isWriter, true, members, none, [], .idle⟩) }
  | .stop id => { g with peers := Function.update g.peers id none }
  | .leave id => g.amend id fun p => { p with inGroup := false }
  | .update id member update => g.amend id fun p => { p with members := membersAfter id p.members member update }
  | .learn id writer => g.amend id fun p => { p with writer := some writer }
  | .ack id step => g.amend id (·.readerAckStep step)
  | .snapshot id room => g.amend id (·.snapshotMembers id room)
  | .forward id outcome => (g.forward id outcome).1
  | .arrive i room => g.arrive i room

def AckGroup.run (events : List AckEvent) : AckGroup := Runs.run AckGroup.apply .start events

/-- The member and the step that an event finds acknowledged. -/
def AckGroup.answer (g : AckGroup) : AckEvent → Option (MemberId × Nat)
  | .forward id outcome => (g.forward id outcome).2
  | _ => none

/-! ## What an event does -/

-- the step a call acknowledges
def AckCall.step? : AckCall → Option Nat
  | .idle => none
  | .cached step _ | .fallback step | .probing step _ => some step

-- the step that a process is acknowledging
def AckGroup.inCall (g : AckGroup) (id : MemberId) : Option Nat := (g.peers id).bind (·.call.step?)

/-- A request with this step of this member is on its way, or may still be sent. -/
def AckGroup.Sent (g : AckGroup) (member : MemberId) (step : Nat) : Prop :=
  (∃ target, ⟨target, member, step⟩ ∈ g.flight) ∨ g.inCall member = some step

/-- The process starts anew, or stops. -/
def AckEvent.resets (id : MemberId) : AckEvent → Bool
  | .start id' _ _ | .stop id' => decide (id' = id)
  | _ => false

namespace AckGroup

variable {g : AckGroup} {id id' : MemberId}

theorem peers_amend (f : AckPeer → AckPeer) :
    (g.amend id f).peers id' = if id' = id then (g.peers id).map f else g.peers id' :=
  Function.update_apply ..

theorem lag_amend_of_same {f : AckPeer → AckPeer} (h : ∀ p, (f p).lag = p.lag) :
    (g.amend id f).lag id' = g.lag id' := by
  unfold lag
  rw [peers_amend]
  by_cases hid : id' = id
  · subst hid
    rw [if_pos rfl, Option.map_map]
    congr 2
    funext p
    exact h p
  · rw [if_neg hid]

theorem inCall_amend (f : AckPeer → AckPeer) :
    (g.amend id f).inCall id' = if id' = id then (g.peers id).bind (fun p => (f p).call.step?) else g.inCall id' := by
  unfold inCall
  rw [peers_amend]
  split
  · exact Option.bind_map ..
  · rfl

theorem inCall_amend_of_same {f : AckPeer → AckPeer} (h : ∀ p, (f p).call = p.call) :
    (g.amend id f).inCall id' = g.inCall id' := by
  rw [inCall_amend]
  split
  · rename_i hid
    rw [hid, inCall]
    congr 1
    funext p
    rw [h]
  · rfl

theorem inCall_of_amend {f : AckPeer → AckPeer} {step : Nat}
    (h : ∀ p, (f p).call.step? = some step → p.call.step? = some step) (hcall : (g.amend id f).inCall id' = some step) :
    g.inCall id' = some step := by
  rw [inCall_amend] at hcall
  split at hcall
  · rename_i hid
    rw [hid, inCall, Option.bind_eq_some_iff]
    rw [Option.bind_eq_some_iff] at hcall
    exact hcall.imp fun p hp => ⟨hp.1, h p hp.2⟩
  · exact hcall

theorem step_readerAckStep {p : AckPeer} {step step' : Nat} (h : (p.readerAckStep step').call.step? = some step) :
    p.call.step? = some step ∨ step' = step := by
  unfold AckPeer.readerAckStep at h
  split at h
  · cases hwriter : p.writer <;> rw [hwriter] at h <;> exact .inr (Option.some.inj h)
  · exact .inl h

theorem step_snapshotMembers {p : AckPeer} {self : MemberId} {room : Bool} {step : Nat}
    (h : (p.snapshotMembers self room).call.step? = some step) : p.call.step? = some step := by
  unfold AckPeer.snapshotMembers at h
  cases hcall : p.call with
  | fallback step' =>
    rw [hcall] at h
    dsimp only at h
    split at h
    · exact h
    · cases h
  | _ =>
    rw [hcall] at h
    dsimp only at h
    rw [hcall] at h
    exact h

theorem lag_readerAckStep (p : AckPeer) (step : Nat) : (p.readerAckStep step).lag = p.lag := by
  unfold AckPeer.readerAckStep
  cases p.writer <;> dsimp only <;> split <;> rfl

theorem lag_snapshotMembers (p : AckPeer) (self : MemberId) (room : Bool) : (p.snapshotMembers self room).lag = p.lag := by
  unfold AckPeer.snapshotMembers
  cases p.call with
  | fallback step =>
    dsimp only
    split <;> rfl
  | _ => rfl

/-- A handled request is a report to the table of its target, or nothing. -/
theorem lag_readerAckUlt (m : AckMsg) (room : Bool) :
    (g.readerAckUlt m room).1.lag id = g.lag id ∨
      (m.target = id ∧ (g.readerAckUlt m room).1.lag id = report room (g.lag id) m.member m.step) := by
  unfold readerAckUlt
  cases hp : g.peers m.target with
  | none => exact .inl rfl
  | some p =>
    dsimp only
    split
    · by_cases hid : id = m.target
      · refine .inr ⟨hid.symm, ?_⟩
        unfold lag
        rw [peers_amend, if_pos hid, hp, hid, hp]
        rfl
      · refine .inl ?_
        unfold lag
        rw [peers_amend, if_neg hid]
    · exact .inl rfl

/-- The answer 0 comes from a writer, whose table has the report. -/
theorem lag_of_heard {m : AckMsg} {room : Bool} (h : (g.readerAckUlt m room).2 = true) :
    (g.readerAckUlt m room).1.lag m.target = report room (g.lag m.target) m.member m.step := by
  unfold readerAckUlt at h ⊢
  cases hp : g.peers m.target with
  | none => simp [hp] at h
  | some p =>
    rw [hp] at h
    dsimp only at h ⊢
    split at h
    · rename_i hwriter
      rw [if_pos hwriter]
      unfold lag
      rw [peers_amend, if_pos rfl, hp]
      rfl
    · cases h

theorem flight_readerAckUlt (m : AckMsg) (room : Bool) : (g.readerAckUlt m room).1.flight = g.flight := by
  unfold readerAckUlt
  cases g.peers m.target with
  | none => rfl
  | some p =>
    dsimp only
    split <;> rfl

@[simp] theorem inCall_readerAckUlt (m : AckMsg) (room : Bool) : (g.readerAckUlt m room).1.inCall id = g.inCall id := by
  unfold readerAckUlt
  cases hp : g.peers m.target with
  | none => rfl
  | some p =>
    dsimp only
    split
    · exact inCall_amend_of_same fun _ => rfl
    · rfl

theorem lag_send (m : AckMsg) (outcome : Forward) :
    (g.send m outcome).1.lag id = g.lag id ∨
      ∃ room, m.target = id ∧ (g.send m outcome).1.lag id = report room (g.lag id) m.member m.step := by
  cases outcome with
  | lost => exact .inl rfl
  | late => exact .inl rfl
  | unheard room => exact (lag_readerAckUlt m room).imp_right fun h => ⟨room, h⟩
  | answered room => exact (lag_readerAckUlt m room).imp_right fun h => ⟨room, h⟩

theorem lag_forwardTo (members : List MemberId) (m : AckMsg) (outcome : Forward) :
    (g.forwardTo members m outcome).1.lag id = g.lag id ∨
      ∃ room, m.target = id ∧ (g.forwardTo members m outcome).1.lag id = report room (g.lag id) m.member m.step := by
  unfold forwardTo
  split
  · exact lag_send m outcome
  · exact .inl rfl

theorem flight_forwardTo {members : List MemberId} {m m' : AckMsg} {outcome : Forward}
    (h : m' ∈ (g.forwardTo members m outcome).1.flight) : m' ∈ g.flight ∨ m' = m := by
  unfold forwardTo at h
  split at h
  · cases outcome with
    | lost => exact .inl h
    | late => exact (List.mem_append.mp h).imp_right List.mem_singleton.mp
    | unheard room => exact .inl (flight_readerAckUlt (g := g) m room ▸ h)
    | answered room => exact .inl (flight_readerAckUlt (g := g) m room ▸ h)
  · exact .inl h

@[simp] theorem inCall_forwardTo (members : List MemberId) (m : AckMsg) (outcome : Forward) :
    (g.forwardTo members m outcome).1.inCall id = g.inCall id := by
  unfold forwardTo
  split
  · cases outcome with
    | lost => rfl
    | late => rfl
    | unheard room => exact inCall_readerAckUlt m room
    | answered room => exact inCall_readerAckUlt m room
  · rfl

/-- The answer 0 was heard: the request was handled by a writer. -/
theorem heard_forwardTo {members : List MemberId} {m : AckMsg} {outcome : Forward}
    (h : (g.forwardTo members m outcome).2 = true) :
    ∃ room, outcome = .answered room ∧
      (g.forwardTo members m outcome).1.lag m.target = report room (g.lag m.target) m.member m.step := by
  unfold forwardTo at h ⊢
  split at h
  · rename_i hmem
    rw [if_pos hmem]
    cases outcome with
    | lost => cases h
    | late => cases h
    | unheard room => cases h
    | answered room => exact ⟨room, rfl, lag_of_heard h⟩
  · cases h

/-- What a forward does: nothing, or it ends the call, or the call sends a request to a member and then ends or goes
on with its step. -/
theorem forward_cases (g : AckGroup) (id : MemberId) (outcome : Forward) :
    g.forward id outcome = (g, none) ∨
      (∃ f : AckPeer → AckPeer, (∀ p, (f p).lag = p.lag) ∧ (∀ p, (f p).call = .idle) ∧
        g.forward id outcome = (g.amend id f, none)) ∨
      ∃ (members : List MemberId) (target : MemberId) (step : Nat) (f : AckPeer → AckPeer),
        g.inCall id = some step ∧ (∀ p, (f p).lag = p.lag) ∧
        (∀ p, (f p).call = .idle ∨ (f p).call.step? = some step) ∧
        g.forward id outcome = ((g.forwardTo members ⟨target, id, step⟩ outcome).1.amend id f,
          if (g.forwardTo members ⟨target, id, step⟩ outcome).2 then some (target, step) else none) := by
  unfold forward inCall
  cases g.peers id with
  | none => exact .inl rfl
  | some p =>
    rw [Option.bind_some]
    dsimp only
    cases p.call with
    | idle => exact .inl rfl
    | fallback step => exact .inl rfl
    | cached step writer =>
      refine .inr (.inr ⟨p.members, writer, step, ?_⟩)
      dsimp only
      cases (g.forwardTo p.members ⟨writer, id, step⟩ outcome).2 with
      | true => exact ⟨(·.at .idle), rfl, fun _ => rfl, fun _ => .inl rfl, rfl⟩
      | false => exact ⟨(·.at (.fallback step)), rfl, fun _ => rfl, fun _ => .inr rfl, rfl⟩
    | probing step left =>
      cases left with
      | nil => exact .inr (.inl ⟨(·.at .idle), fun _ => rfl, fun _ => rfl, rfl⟩)
      | cons member left =>
        refine .inr (.inr ⟨p.members, member, step, ?_⟩)
        dsimp only
        cases (g.forwardTo p.members ⟨member, id, step⟩ outcome).2 with
        | true =>
          exact ⟨fun p => { p.at .idle with writer := some member }, rfl, fun _ => rfl, fun _ => .inl rfl, rfl⟩
        | false => exact ⟨(·.at (.probing step left)), rfl, fun _ => rfl, fun _ => .inr rfl, rfl⟩

/-- Beyond a table that is gone or new, an event makes at most one report to a table, of a request that is on its way or
in a call. -/
theorem lag_apply (g : AckGroup) (e : AckEvent) (id : MemberId) :
    (g.apply e).lag id = g.lag id ∨ (e.resets id = true ∧ (g.apply e).lag id = []) ∨
      ∃ room member step, g.Sent member step ∧ (g.apply e).lag id = report room (g.lag id) member step := by
  cases e with
  | start id' isWriter members =>
    by_cases hid : id' = id
    · refine .inr (.inl ⟨decide_eq_true hid, ?_⟩)
      simp [apply, lag, hid]
    · refine .inl ?_
      simp [apply, lag, Function.update_of_ne (Ne.symm hid)]
  | stop id' =>
    by_cases hid : id' = id
    · refine .inr (.inl ⟨decide_eq_true hid, ?_⟩)
      simp [apply, lag, hid]
    · refine .inl ?_
      simp [apply, lag, Function.update_of_ne (Ne.symm hid)]
  | leave id' => exact .inl (lag_amend_of_same fun _ => rfl)
  | update id' member update => exact .inl (lag_amend_of_same fun _ => rfl)
  | learn id' writer => exact .inl (lag_amend_of_same fun _ => rfl)
  | ack id' step => exact .inl (lag_amend_of_same fun p => lag_readerAckStep p step)
  | snapshot id' room => exact .inl (lag_amend_of_same fun p => lag_snapshotMembers p id' room)
  | forward id' outcome =>
    rw [apply]
    rcases forward_cases g id' outcome with heq | ⟨f, hlag, -, heq⟩ | ⟨members, target, step, f, hstep, hlag, -, heq⟩
    · exact .inl (by rw [heq])
    · rw [heq]
      exact .inl (lag_amend_of_same hlag)
    · rw [heq, lag_amend_of_same hlag]
      rcases lag_forwardTo members ⟨target, id', step⟩ outcome with hkeep | ⟨room, -, hreport⟩
      · exact .inl hkeep
      · exact .inr (.inr ⟨room, id', step, .inr hstep, hreport⟩)
  | arrive i room =>
    rw [apply, arrive]
    cases hm : g.flight[i]? with
    | none => exact .inl rfl
    | some m =>
      have hhandled := @lag_readerAckUlt { g with flight := g.flight.eraseIdx i } id m room
      rcases hhandled with hkeep | ⟨-, hreport⟩
      · exact .inl hkeep
      · exact .inr (.inr ⟨room, m.member, m.step, .inl ⟨m.target, List.mem_of_getElem? hm⟩, hreport⟩)

theorem flight_apply {e : AckEvent} {m : AckMsg} (h : m ∈ (g.apply e).flight) : g.Sent m.member m.step := by
  cases e with
  | forward id outcome =>
    rw [apply] at h
    rcases forward_cases g id outcome with heq | ⟨f, -, -, heq⟩ | ⟨members, target, step, f, hstep, -, -, heq⟩
    · rw [heq] at h
      exact .inl ⟨m.target, h⟩
    · rw [heq] at h
      exact .inl ⟨m.target, h⟩
    · rw [heq] at h
      rcases flight_forwardTo h with hold | hnew
      · exact .inl ⟨m.target, hold⟩
      · rw [hnew]
        exact .inr hstep
  | arrive i room =>
    rw [apply, arrive] at h
    cases hm : g.flight[i]? with
    | none =>
      rw [hm] at h
      exact .inl ⟨m.target, h⟩
    | some m' =>
      rw [hm] at h
      dsimp only at h
      rw [flight_readerAckUlt] at h
      exact .inl ⟨m.target, List.mem_of_mem_eraseIdx h⟩
  | _ => exact .inl ⟨m.target, h⟩

theorem inCall_apply {e : AckEvent} {step : Nat} (h : (g.apply e).inCall id = some step) :
    g.inCall id = some step ∨ e = .ack id step := by
  cases e with
  | start id' isWriter members =>
    by_cases hid : id = id'
    · simp [apply, inCall, hid, AckCall.step?] at h
    · simp only [apply, inCall, Function.update_of_ne hid] at h
      exact .inl h
  | stop id' =>
    by_cases hid : id = id'
    · simp [apply, inCall, hid] at h
    · simp only [apply, inCall, Function.update_of_ne hid] at h
      exact .inl h
  | leave id' =>
    refine .inl (inCall_of_amend ?_ h)
    exact fun _ hp => hp
  | update id' member update =>
    refine .inl (inCall_of_amend ?_ h)
    exact fun _ hp => hp
  | learn id' writer =>
    refine .inl (inCall_of_amend ?_ h)
    exact fun _ hp => hp
  | ack id' step' =>
    rw [apply, inCall_amend] at h
    split at h
    · rename_i hid
      obtain ⟨p, hp, hstep⟩ := Option.bind_eq_some_iff.mp h
      rcases step_readerAckStep hstep with hold | rfl
      · refine .inl ?_
        rw [hid, inCall, hp]
        exact hold
      · exact .inr (by rw [hid])
    · exact .inl h
  | snapshot id' room => exact .inl (inCall_of_amend (fun _ => step_snapshotMembers) h)
  | forward id' outcome =>
    rw [apply] at h
    rcases forward_cases g id' outcome with heq | ⟨f, -, hidle, heq⟩ | ⟨members, target, step', f, hstep, -, hcall, heq⟩
    · rw [heq] at h
      exact .inl h
    · rw [heq] at h
      refine .inl (inCall_of_amend (fun p hp => ?_) h)
      rw [hidle] at hp
      cases hp
    · rw [heq, inCall_amend] at h
      split at h
      · rename_i hid
        obtain ⟨p, -, hp⟩ := Option.bind_eq_some_iff.mp h
        rcases hcall p with hidle | hgoes
        · rw [hidle] at hp
          cases hp
        · rw [hid, hstep, ← hgoes, hp]
          exact .inl rfl
      · exact .inl (inCall_forwardTo (g := g) members _ outcome ▸ h)
  | arrive i room =>
    rw [apply, arrive] at h
    cases hm : g.flight[i]? with
    | none =>
      rw [hm] at h
      exact .inl h
    | some m =>
      rw [hm] at h
      dsimp only at h
      rw [inCall_readerAckUlt] at h
      exact .inl h

theorem sent_apply {e : AckEvent} {member : MemberId} {step : Nat} (h : (g.apply e).Sent member step) :
    g.Sent member step ∨ e = .ack member step := by
  rcases h with ⟨target, hflight⟩ | hcall
  · exact .inl (flight_apply hflight)
  · exact (inCall_apply hcall).imp_left .inr

/-- What is acknowledged is in the table of the member that answers. -/
theorem answer_counted {e : AckEvent} {id writer : MemberId} {outcome : Forward} {step : Nat}
    (he : e = .forward id outcome) (h : g.answer e = some (writer, step)) :
    g.inCall id = some step ∧
      ∃ room, outcome = .answered room ∧ (g.apply e).lag writer = report room (g.lag writer) id step := by
  subst he
  rw [answer] at h
  rw [apply]
  rcases forward_cases g id outcome with heq | ⟨f, -, -, heq⟩ | ⟨members, target, step', f, hstep, hlag, -, heq⟩
  · rw [heq] at h
    cases h
  · rw [heq] at h
    cases h
  · rw [heq] at h ⊢
    dsimp only at h ⊢
    split at h
    · rename_i hheard
      rw [Option.some.injEq, Prod.mk.injEq] at h
      obtain ⟨rfl, rfl⟩ := h
      obtain ⟨room, hroom, hreport⟩ := heard_forwardTo hheard
      exact ⟨hstep, room, hroom, (lag_amend_of_same hlag).trans hreport⟩
    · cases h

/-! ## What the tables say, over a run -/

/-- A table holds one mark for each reader, and every mark is a step that the reader with this id has acknowledged. -/
structure Honest (g : AckGroup) (events : List AckEvent) : Prop where
  nodup : ∀ w, (g.lag w).keys.Nodup
  acked : ∀ w r n, (g.lag w).find? r = some n → .ack r n ∈ events
  sent : ∀ r n, g.Sent r n → .ack r n ∈ events

theorem Honest.start : Honest .start [] where
  nodup := fun _ => List.nodup_nil
  acked := by
    intro w r n h
    cases h
  sent := by
    rintro r n (⟨target, h⟩ | h)
    · cases h
    · cases h

theorem Honest.apply {events : List AckEvent} (h : Honest g events) (e : AckEvent) :
    Honest (g.apply e) (events ++ [e]) where
  nodup := by
    intro w
    rcases lag_apply g e w with heq | ⟨-, heq⟩ | ⟨room, member, step, -, heq⟩ <;> rw [heq]
    · exact h.nodup w
    · exact List.nodup_nil
    · exact nodup_report (h.nodup w)
  acked := by
    intro w r n hn
    refine List.mem_append_left _ ?_
    rcases lag_apply g e w with heq | ⟨-, heq⟩ | ⟨room, member, step, hsent, heq⟩ <;> rw [heq] at hn
    · exact h.acked w r n hn
    · cases hn
    · rcases find?_report_eq_some hn with hold | ⟨rfl, rfl⟩
      · exact h.acked w r n hold
      · exact h.sent r n hsent
  sent := by
    intro r n hn
    rcases sent_apply hn with hold | rfl
    · exact List.mem_append_left _ (h.sent r n hold)
    · exact List.mem_append_right _ (List.mem_singleton_self _)

theorem Honest.run {events : List AckEvent} (h : Honest g events) (later : List AckEvent) :
    Honest (Runs.run AckGroup.apply g later) (events ++ later) := by
  induction later generalizing g events with
  | nil =>
    rw [List.append_nil]
    exact h
  | cons e later ih =>
    rw [Runs.run_cons, List.append_cons]
    exact ih (h.apply e)

theorem honest_run (events : List AckEvent) : Honest (AckGroup.run events) events :=
  Honest.start.run events

/-- As long as a process runs, no mark in its table falls. -/
theorem mark_run {w r : MemberId} {later : List AckEvent} {n : Nat} (hlater : ∀ e ∈ later, e.resets w = false)
    (h : (g.lag w).find? r = some n) :
    ∃ m, ((Runs.run AckGroup.apply g later).lag w).find? r = some m ∧ n ≤ m := by
  induction later generalizing g n with
  | nil => exact ⟨n, h, Nat.le_refl n⟩
  | cons e later ih =>
    have ⟨m, hm, hle⟩ : ∃ m, ((g.apply e).lag w).find? r = some m ∧ n ≤ m := by
      rcases lag_apply g e w with heq | ⟨hreset, -⟩ | ⟨room, member, step, -, heq⟩
      · exact ⟨n, heq ▸ h, Nat.le_refl n⟩
      · rw [hlater e List.mem_cons_self] at hreset
        cases hreset
      · rw [heq]
        exact report_mono h
    have ⟨m', hm', hle'⟩ := ih (fun e' he' => hlater e' (List.mem_cons_of_mem _ he')) hm
    exact ⟨m', hm', Nat.le_trans hle hle'⟩

end AckGroup

open AckGroup

/-- A call that has heard 0 from a writer is counted there for as long as the writer runs, whatever else is lost, late,
repeated or in between: the reader's mark is at least the step, it is a step that the reader has acknowledged, and it
is this very step if the reader has acknowledged none that is greater. -/
theorem acknowledged_is_counted (before later : List AckEvent) (r w : MemberId) (n : Nat) (room : Bool)
    (hanswer : (AckGroup.run before).answer (.forward r (.answered room)) = some (w, n))
    (htakes : takes room ((AckGroup.run before).lag w) r = true)
    (hlater : ∀ e ∈ later, e.resets w = false) :
    ∃ m, ((AckGroup.run (before ++ .forward r (.answered room) :: later)).lag w).find? r = some m ∧ n ≤ m ∧
      .ack r m ∈ before ++ .forward r (.answered room) :: later ∧
      ((∀ k, .ack r k ∈ before ++ .forward r (.answered room) :: later → k ≤ n) → m = n) := by
  have ⟨_, room', hroom, hreport⟩ := answer_counted rfl hanswer
  obtain rfl : room = room' := Forward.answered.inj hroom
  have ⟨k, hk, hnk⟩ := report_covers (n := n) htakes
  rw [← hreport] at hk
  have ⟨m, hm, hkm⟩ := mark_run hlater hk
  have hrun : AckGroup.run (before ++ .forward r (.answered room) :: later)
      = Runs.run AckGroup.apply ((AckGroup.run before).apply (.forward r (.answered room))) later := by
    rw [AckGroup.run, Runs.run_append, Runs.run_cons]
    rfl
  rw [← hrun] at hm
  have hacked := (honest_run _).acked w r m hm
  exact ⟨m, hm, Nat.le_trans hnk hkm, hacked, fun hmax => Nat.le_antisymm (hmax m hacked) (Nat.le_trans hnk hkm)⟩

-- a reader 5 that loses the answer of writer 1, and is answered by writer 2
def splitAcks : List AckEvent :=
  [.start 1 true [5], .start 2 true [5], .start 5 false [1, 2], .ack 5 3, .snapshot 5 true, .forward 5 (.unheard true)]

theorem acknowledged_is_counted_splitAcks :
    ∃ m, ((AckGroup.run (splitAcks ++ [.forward 5 (.answered true), .ack 5 4])).lag 2).find? 5 = some m ∧ 3 ≤ m ∧
      .ack 5 m ∈ splitAcks ++ [.forward 5 (.answered true), .ack 5 4] ∧
      ((∀ k, .ack 5 k ∈ splitAcks ++ [.forward 5 (.answered true), .ack 5 4] → k ≤ 3) → m = 3) :=
  acknowledged_is_counted splitAcks [.ack 5 4] 5 2 3 true (by decide) (by decide) (by decide)

-- the mark at writer 1 stays, and holds the ranks back
example : (AckGroup.run (splitAcks ++ [.forward 5 (.answered true), .ack 5 9, .forward 5 (.answered true)])).minAckedStep 1
    = some 3 := by decide

/-- The least mark that the queue policy sees is under what every reader it counts has acknowledged. -/
theorem AckGroup.minAckedStep_run {events : List AckEvent} {w r : MemberId} {least n : Nat}
    (h : (AckGroup.run events).minAckedStep w = some least) (hpresent : (AckGroup.run events).present w r = true)
    (htracked : ((AckGroup.run events).lag w).find? r = some n) : least ≤ n ∧ .ack r n ∈ events :=
  ⟨((least_eq_some_iff ((honest_run events).nodup w) least).mp h).2 r n hpresent htracked,
    (honest_run events).acked w r n htracked⟩

end VolStream
