import Mathlib.Data.List.Induction
import Mathlib.Logic.Function.Basic
import VolStream.Lib.Run
import VolStream.Transport.Acks

/-!
# Schema queries

A writer publishes the schema of its stream as opaque bytes (`vs_tr_writer_publish_schema`), each time in place of the
last. A reader asks for them (`vs_tr_reader_get_schema`): the writer it knows, or every member in turn, and round after
round until one answers with a schema or the time is up. A handler answers from a copy it took under the lock, and an
answer that comes after the reader has stopped waiting is thrown away with its handle, so a handling that nobody waits
for does nothing at all. An event is one action of one party; publishing goes on between any two of them.
-/

namespace VolStream

/-- `vs_get_schema_out_t`. -/
structure SchemaAnswer where
  status : Int
  isWriter : Bool
  step : Nat
  schema : List UInt8
deriving DecidableEq, Repr

/-- Where a call of `vs_tr_reader_get_schema` is: at the head of its loop, about to take the snapshot, about to forward
to the first member that is left, inside a forward (from the known writer on, or from a snapshot with these members
left), about to look at the clock, or returned. The flag is the call's `is_writer`. -/
inductive SchemaCall where
  | idle
  | top
  | snapshot
  | probing (left : List MemberId) (isWriter : Bool)
  | asking (target : MemberId) (left : Option (List MemberId)) (isWriter : Bool) (answer : Option SchemaAnswer)
  | deadline
  | returned (result : Option (Nat × List UInt8))
deriving DecidableEq, Repr

/-- The part of a process's `vs_tr_t` that schema queries use; an empty `blob` is none. -/
structure SchemaPeer where
  isWriter : Bool
  inGroup : Bool
  members : List MemberId
  writer : Option MemberId
  blob : List UInt8
  step : Nat
  call : SchemaCall
deriving DecidableEq, Repr

namespace SchemaPeer

/-! ## The writer's side -/

/-- `vs_tr_writer_publish_schema`; `room` is the allocator's answer. -/
def publishSchema (p : SchemaPeer) (step : Nat) (blob : List UInt8) (room : Bool) : SchemaPeer :=
  if blob ≠ [] ∧ !room then p else { p with blob, step }

/-- `vs_get_schema_ult`. -/
def getSchemaUlt (p : SchemaPeer) (room : Bool) : SchemaAnswer :=
  if p.isWriter then
    if p.blob ≠ [] ∧ room then { status := 0, isWriter := true, step := p.step, schema := p.blob }
    else { status := 0, isWriter := true, step := 0, schema := [] }
  else { status := -1, isWriter := false, step := 0, schema := [] }

/-! ## The reader's side -/

def goto (p : SchemaPeer) (call : SchemaCall) : SchemaPeer := { p with call }

-- no call is under way
def free (p : SchemaPeer) : Bool :=
  match p.call with
  | .idle | .returned _ => true
  | _ => false

/-- The call begins. -/
def getSchema (p : SchemaPeer) : SchemaPeer :=
  if p.free then if p.inGroup then p.goto .top else p.goto (.returned none) else p

/-- The call's next forward, if the member is there to be addressed (`vs_tr_member_addr`). -/
def forward (p : SchemaPeer) : SchemaPeer :=
  match p.call with
  | .top =>
    match p.writer with
    | some writer => if writer ∈ p.members then p.goto (.asking writer none false none) else p.goto .snapshot
    | none => p.goto .snapshot
  | .probing (member :: left) isWriter =>
    if member ∈ p.members then p.goto (.asking member (some left) isWriter none) else p.goto (.probing left isWriter)
  | .probing [] _ => p.goto .deadline
  | _ => p

-- `vs_tr_snapshot_members`
def snapshotMembers (p : SchemaPeer) (self : MemberId) (room : Bool) : SchemaPeer :=
  match p.call with
  | .snapshot => if p.inGroup ∧ room then p.goto (.probing (p.members.filter (· ≠ self)) false) else p.goto .deadline
  | _ => p

/-- Where a forward that gave no schema leads: a writer known to have none is not hunted for. -/
def resume (left : Option (List MemberId)) (isWriter : Bool) : SchemaCall :=
  match left with
  | none => if isWriter then .deadline else .snapshot
  | some left => .probing left isWriter

/-- The rest of `vs_forward_get_schema` once the answer is there. -/
def hear (p : SchemaPeer) (room : Bool) : SchemaPeer :=
  match p.call with
  | .asking target left isWriter (some a) =>
    if a.status = 0 ∧ a.isWriter then
      let p := { p with writer := some target }
      if a.schema ≠ [] ∧ room then p.goto (.returned (some (a.step, a.schema))) else p.goto (resume left true)
    else p.goto (resume left isWriter)
  | _ => p

/-- The forward fails, or its time is up. -/
def miss (p : SchemaPeer) : SchemaPeer :=
  match p.call with
  | .asking _ left isWriter _ => p.goto (resume left isWriter)
  | _ => p

def clock (p : SchemaPeer) (expired : Bool) : SchemaPeer :=
  match p.call with
  | .deadline => if expired then p.goto (.returned none) else p.goto .top
  | _ => p

end SchemaPeer

/-! ## Runs -/

/-- The processes by their member ids. -/
abbrev SchemaGroup := MemberId → Option SchemaPeer

def SchemaGroup.start : SchemaGroup := fun _ => none

-- one process
def SchemaGroup.amend (g : SchemaGroup) (id : MemberId) (f : SchemaPeer → SchemaPeer) : SchemaGroup :=
  Function.update g id ((g id).map f)

/-- The request a reader waits on is handled where it was sent. -/
def SchemaGroup.handle (g : SchemaGroup) (id : MemberId) (room : Bool) : SchemaGroup :=
  g.amend id fun p =>
    match p.call with
    | .asking target left isWriter none =>
      p.goto (.asking target left isWriter ((g target).map fun w => w.getSchemaUlt room))
    | _ => p

/-- `start` is `vs_tr_writer_start_group` or `vs_tr_reader_join_group` once it has joined, `serve` its last assignment;
`learn` stands for the other calls that find a writer. -/
inductive SchemaEvent where
  | start (id : MemberId) (members : List MemberId)
  | serve (id : MemberId) (isWriter : Bool)
  | stop (id : MemberId)
  | leave (id : MemberId)
  | update (id member : MemberId) (update : Update)
  | learn (id writer : MemberId)
  | publish (id : MemberId) (step : Nat) (blob : List UInt8) (room : Bool)
  | getSchema (id : MemberId)
  | forward (id : MemberId)
  | snapshot (id : MemberId) (room : Bool)
  | handle (id : MemberId) (room : Bool)
  | hear (id : MemberId) (room : Bool)
  | miss (id : MemberId)
  | clock (id : MemberId) (expired : Bool)
deriving DecidableEq, Repr

def SchemaGroup.apply (g : SchemaGroup) : SchemaEvent → SchemaGroup
  | .start id members => Function.update g id (some ⟨false, true, members, none, [], 0, .idle⟩)
  | .serve id isWriter => g.amend id fun p => { p with isWriter }
  | .stop id => Function.update g id none
  | .leave id => g.amend id fun p => { p with inGroup := false }
  | .update id member update => g.amend id fun p => { p with members := membersAfter id p.members member update }
  | .learn id writer => g.amend id fun p => { p with writer := some writer }
  | .publish id step blob room => g.amend id (·.publishSchema step blob room)
  | .getSchema id => g.amend id (·.getSchema)
  | .forward id => g.amend id (·.forward)
  | .snapshot id room => g.amend id (·.snapshotMembers id room)
  | .handle id room => g.handle id room
  | .hear id room => g.amend id (·.hear room)
  | .miss id => g.amend id (·.miss)
  | .clock id expired => g.amend id (·.clock expired)

def SchemaGroup.run (events : List SchemaEvent) : SchemaGroup := Runs.run SchemaGroup.apply .start events

/-- What the writer `id` has published at this moment. -/
def SchemaGroup.Published (g : SchemaGroup) (id : MemberId) (step : Nat) (blob : List UInt8) : Prop :=
  ∃ p ∈ g id, p.isWriter = true ∧ p.step = step ∧ p.blob = blob ∧ blob ≠ []

/-! ## What an answer says -/

/-- The schema a call has been answered with, or has returned. -/
def SchemaCall.carried : SchemaCall → Option (Nat × List UInt8)
  | .asking _ _ _ (some a) => if a.status = 0 ∧ a.schema ≠ [] then some (a.step, a.schema) else none
  | .returned result => result
  | _ => none

def SchemaGroup.carried (g : SchemaGroup) (id : MemberId) : Option (Nat × List UInt8) := (g id).bind (·.call.carried)

namespace SchemaPeer

variable {p : SchemaPeer} {r : Nat × List UInt8}

@[simp] theorem call_goto (p : SchemaPeer) (call : SchemaCall) : (p.goto call).call = call := rfl

theorem carried_resume (left : Option (List MemberId)) (isWriter : Bool) : (resume left isWriter).carried = none := by
  cases left with
  | none => cases isWriter <;> rfl
  | some left => rfl

theorem carried_getSchema (h : p.getSchema.call.carried = some r) : p.call.carried = some r := by
  unfold getSchema at h
  split at h
  · split at h
    · cases h
    · cases h
  · exact h

-- a new call carries nothing
theorem carried_getSchema_of_free (h : p.free = true) : p.getSchema.call.carried = none := by
  rw [getSchema, if_pos h]
  split <;> rfl

theorem carried_forward (h : p.forward.call.carried = some r) : p.call.carried = some r := by
  unfold forward at h
  split at h
  · split at h
    · split at h
      · cases h
      · cases h
    · cases h
  · split at h
    · cases h
    · cases h
  · cases h
  · exact h

theorem carried_snapshotMembers {self : MemberId} {room : Bool}
    (h : (p.snapshotMembers self room).call.carried = some r) : p.call.carried = some r := by
  unfold snapshotMembers at h
  split at h
  · split at h
    · cases h
    · cases h
  · exact h

-- what is returned is what the forward was answered with
theorem carried_hear {room : Bool} (h : (p.hear room).call.carried = some r) : p.call.carried = some r := by
  unfold hear at h
  split at h
  · rename_i target left isWriter a hcall
    split at h
    · rename_i hwriter
      dsimp only at h
      split at h
      · rename_i hschema
        rw [hcall, SchemaCall.carried, if_pos ⟨hwriter.1, hschema.1⟩]
        exact h
      · rw [call_goto, carried_resume] at h
        cases h
    · rw [call_goto, carried_resume] at h
      cases h
  · exact h

theorem carried_miss (h : p.miss.call.carried = some r) : p.call.carried = some r := by
  unfold miss at h
  split at h
  · rw [call_goto, carried_resume] at h
    cases h
  · exact h

theorem carried_clock {expired : Bool} (h : (p.clock expired).call.carried = some r) : p.call.carried = some r := by
  unfold clock at h
  split at h
  · split at h
    · cases h
    · cases h
  · exact h

theorem call_publishSchema (p : SchemaPeer) (step : Nat) (blob : List UInt8) (room : Bool) :
    (p.publishSchema step blob room).call = p.call := by
  unfold publishSchema
  split <;> rfl

end SchemaPeer

namespace SchemaGroup

variable {g : SchemaGroup} {id id' : MemberId} {r : Nat × List UInt8}

theorem carried_update (p : Option SchemaPeer) :
    carried (Function.update g id p) id' = if id' = id then p.bind (·.call.carried) else g.carried id' := by
  unfold carried
  rw [Function.update_apply]
  split <;> rfl

/-- What a process does to its own call shows in the call. -/
theorem carried_of_amend {f : SchemaPeer → SchemaPeer}
    (h : ∀ p ∈ g id, (f p).call.carried = some r → p.call.carried = some r ∨ ∃ w, g.Published w r.1 r.2)
    (hcarried : (g.amend id f).carried id' = some r) : g.carried id' = some r ∨ ∃ w, g.Published w r.1 r.2 := by
  rw [amend, carried_update] at hcarried
  split at hcarried
  · rename_i hid
    subst hid
    rw [Option.bind_map, Option.bind_eq_some_iff] at hcarried
    obtain ⟨p, hp, hf⟩ := hcarried
    refine (h p hp hf).imp_left fun hcall => ?_
    rw [carried, Option.bind_eq_some_iff]
    exact ⟨p, hp, hcall⟩
  · exact .inl hcarried

theorem carried_of_amend_same {f : SchemaPeer → SchemaPeer} (hcarried : (g.amend id f).carried id' = some r)
    (h : ∀ p, (f p).call = p.call) : g.carried id' = some r ∨ ∃ w, g.Published w r.1 r.2 :=
  carried_of_amend (fun p _ hp => .inl (by rwa [h p] at hp)) hcarried

/-- An answer is the target's schema at the moment it is given. -/
theorem carried_handle {room : Bool} (h : (g.handle id room).carried id' = some r) :
    g.carried id' = some r ∨ ∃ w, g.Published w r.1 r.2 := by
  refine carried_of_amend (fun p _ hp => ?_) h
  split at hp
  · rename_i target left isWriter hcall
    right
    cases htarget : g target with
    | none =>
      rw [htarget] at hp
      cases hp
    | some w =>
      rw [htarget, SchemaPeer.call_goto, Option.map_some, SchemaCall.carried, SchemaPeer.getSchemaUlt] at hp
      split at hp
      · rename_i hwriter
        split at hp
        · rename_i hblob
          rw [if_pos ⟨rfl, hblob.1⟩] at hp
          cases hp
          exact ⟨target, w, htarget, hwriter, rfl, rfl, hblob.1⟩
        · simp at hp
      · simp at hp
  · exact .inl hp

/-- One event: a call carries what it carried before, or what some writer has published now. -/
theorem carried_apply {e : SchemaEvent} (h : (g.apply e).carried id = some r) :
    g.carried id = some r ∨ ∃ w, g.Published w r.1 r.2 := by
  cases e with
  | start id' members =>
    rw [apply, carried_update] at h
    split at h
    · cases h
    · exact .inl h
  | stop id' =>
    rw [apply, carried_update] at h
    split at h
    · cases h
    · exact .inl h
  | serve id' isWriter => exact carried_of_amend_same h fun _ => rfl
  | leave id' => exact carried_of_amend_same h fun _ => rfl
  | update id' member update => exact carried_of_amend_same h fun _ => rfl
  | learn id' writer => exact carried_of_amend_same h fun _ => rfl
  | publish id' step blob room => exact carried_of_amend_same h fun p => p.call_publishSchema step blob room
  | getSchema id' => exact carried_of_amend (fun _ _ hp => .inl (SchemaPeer.carried_getSchema hp)) h
  | forward id' => exact carried_of_amend (fun _ _ hp => .inl (SchemaPeer.carried_forward hp)) h
  | snapshot id' room => exact carried_of_amend (fun _ _ hp => .inl (SchemaPeer.carried_snapshotMembers hp)) h
  | handle id' room => exact carried_handle h
  | hear id' room => exact carried_of_amend (fun _ _ hp => .inl (SchemaPeer.carried_hear hp)) h
  | miss id' => exact carried_of_amend (fun _ _ hp => .inl (SchemaPeer.carried_miss hp)) h
  | clock id' expired => exact carried_of_amend (fun _ _ hp => .inl (SchemaPeer.carried_clock hp)) h

/-- A run that starts with nothing carried: what a call carries was published at a moment of the run. -/
theorem carried_run (hnone : g.carried id = none) {events : List SchemaEvent}
    (h : carried (Runs.run apply g events) id = some r) :
    ∃ w, Runs.Was apply (fun g => g.Published w r.1 r.2) g events := by
  induction events using List.reverseRecOn with
  | nil =>
    rw [Runs.run_nil, hnone] at h
    cases h
  | append_singleton events e ih =>
    rw [Runs.run_append] at h
    rcases carried_apply h with hbefore | ⟨w, hw⟩
    · obtain ⟨w, hwas⟩ := ih hbefore
      exact ⟨w, hwas.append [e]⟩
    · exact ⟨w, Runs.Was.now hw |>.append [e]⟩

end SchemaGroup

/-- What a query returns was, at a moment between its start and its return, what some writer had published: the bytes
together with their step, whatever is published or lost meanwhile. -/
theorem schema_published_during_query {before during : List SchemaEvent} {id : MemberId} {p : SchemaPeer} {step : Nat}
    {blob : List UInt8} (hfree : ∀ p ∈ SchemaGroup.run before id, p.free = true)
    (hp : p ∈ SchemaGroup.run (before ++ .getSchema id :: during) id)
    (hreturned : p.call = .returned (some (step, blob))) :
    ∃ w u v, during = u ++ v ∧ (SchemaGroup.run (before ++ .getSchema id :: u)).Published w step blob := by
  have hsplit : ∀ l, SchemaGroup.run (before ++ .getSchema id :: l) =
      Runs.run SchemaGroup.apply ((SchemaGroup.run before).apply (.getSchema id)) l := fun l => Runs.run_append ..
  have hnone : ((SchemaGroup.run before).apply (.getSchema id)).carried id = none := by
    rw [SchemaGroup.apply, SchemaGroup.amend, SchemaGroup.carried_update, if_pos rfl, Option.bind_map,
      Option.bind_eq_none_iff]
    exact fun p hp => SchemaPeer.carried_getSchema_of_free (hfree p hp)
  have hcarried : (SchemaGroup.run (before ++ .getSchema id :: during)).carried id = some (step, blob) := by
    rw [SchemaGroup.carried, Option.bind_eq_some_iff]
    exact ⟨p, hp, by rw [hreturned]; rfl⟩
  rw [hsplit] at hcarried
  obtain ⟨w, u, v, huv, hpublished⟩ := SchemaGroup.carried_run hnone hcarried
  refine ⟨w, u, v, huv, ?_⟩
  rw [hsplit]
  exact hpublished

/-- A reader that finds the writer before it has published anything, and asks it again in the next round. -/
def askedTwice : List SchemaEvent :=
  [.forward 2, .snapshot 2 true, .forward 2, .handle 2 true, .publish 1 0 [7] true, .hear 2 true, .forward 2,
    .clock 2 false, .publish 1 1 [7, 8] true, .forward 2, .handle 2 true, .publish 1 2 [9] true, .hear 2 true]

theorem schema_published_during_query_askedTwice :
    ∃ w u v, askedTwice = u ++ v ∧
      (SchemaGroup.run ([.start 1 [2], .serve 1 true, .start 2 [1]] ++ .getSchema 2 :: u)).Published w 1 [7, 8] :=
  schema_published_during_query (by rintro p ⟨⟩; rfl)
    (show (⟨false, true, [1], some 1, [], 0, .returned (some (1, [7, 8]))⟩ : SchemaPeer) ∈
      SchemaGroup.run ([.start 1 [2], .serve 1 true, .start 2 [1]] ++ .getSchema 2 :: askedTwice) 2 from rfl) rfl

end VolStream
