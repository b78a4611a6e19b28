import VolStream.Manifest
import VolStream.Transport.EndOfStream

/-!
# Backfill of a late subscriber

`H5Fsubscribe_from` stages each of its paths at the writer and then releases them together; the writer
serves what is released at its next step boundary, on its own thread, step by step from the start
asked for, and goes on live. Requests arrive on handlers while the writer is anywhere in its step.

The subscriber is told every step once and in order, unless: the writer had looked at it before
its first request came in and announces the step in hand after it; the writer does not see it as a
member yet when it serves it; the start lies ahead of the writer; memory runs out while its paths are
gathered; or its release is lost or overtaken by one of its other requests. In the last case, and when the
call fails because the release is lost, a staged path is left behind and cuts the subscriber off.
-/

namespace VolStream

/-- `backfill_state` of a subscription. -/
inductive BackfillState where
  | live
  | staged
  | released
deriving DecidableEq, Repr

/-- `vs_tr_sub_entry_t`, less what selects inside the path. -/
structure SubEntry where
  member : MemberId
  path : Path
  backfill : BackfillState
  backfillFrom : Nat
deriving DecidableEq, Repr

/-- What a member is sent: the items of one path of a step, or the step's announcement. -/
inductive Message where
  | items (physicalStep : Nat) (path : Path)
  | announce (physicalStep : Nat)
deriving DecidableEq, Repr

-- the two calls that serve backfills
inductive Boundary where
  | beginStep
  | endStep
deriving DecidableEq, Repr

/-- Where the writer's thread is: between steps, in `H5VL__stream_serve_backfill` (about to take a
request, or sending step `k` of one), in an open step, replaying it, or in
`vs_tr_writer_broadcast_step_ready` (about to look at a member, or forwarding to it). -/
inductive WriterAt where
  | idle
  | taking (next : Boundary)
  | serving (member : MemberId) (paths : List Path) (k : Nat) (next : Boundary)
  | inStep
  | replaying
  | announcing (rest : List MemberId)
  | forwarding (member : MemberId) (rest : List MemberId)
deriving DecidableEq, Repr

/-- The writer's side: the group, the subscription table, the paths each committed step wrote (so
`physical_step` is their number) and those the open step has replayed so far, and everything sent. -/
structure Server where
  members : List MemberId
  subs : List SubEntry
  steps : List (List Path)
  current : List Path
  writer : WriterAt
  sent : List (MemberId × Message)
deriving DecidableEq, Repr

def Server.start : Server := ⟨[], [], [], [], .idle, []⟩

/-! ## The handlers -/

-- a staged request marks the entry; a plain one leaves its backfill alone
def SubEntry.stage (e : SubEntry) (start : Option Nat) : SubEntry :=
  match start with
  | none => e
  | some n => { e with backfill := .staged, backfillFrom := n }

/-- `vs_subscribe_ult` for a subscription, `start` being its `start_step`; `stored` is the allocator's
answer for a new entry. -/
def Server.subscribe (s : Server) (member : MemberId) (path : Path) (start : Option Nat) (stored : Bool) :
    Server :=
  if s.subs.any fun e => e.member = member ∧ e.path = path then
    { s with subs := s.subs.map fun e => if e.member = member ∧ e.path = path then e.stage start else e }
  else if stored then { s with subs := s.subs ++ [SubEntry.stage ⟨member, path, .live, 0⟩ start] }
  else s

-- `vs_subscribe_ult` for a `VS_SUB_FLAG_FROM_ONLY` request
def SubEntry.release (member : MemberId) (e : SubEntry) : SubEntry :=
  if e.member = member ∧ e.backfill = .staged then { e with backfill := .released } else e

/-! ## The writer's thread -/

def Server.send (s : Server) (member : MemberId) (messages : List Message) : Server :=
  if member ∈ s.members then { s with sent := s.sent ++ messages.map (member, ·) } else s

/-- The loop of `vs_tr_writer_take_backfill` over one member's released entries, the list of paths
growing `limit` times at most: the paths, the starts looked at, and the table. -/
def gather (member : MemberId) : Option Nat → List SubEntry → List Path × List Nat × List SubEntry
  | _, [] => ([], [], [])
  | limit, e :: l =>
      if e.member = member ∧ e.backfill = .released then
        if limit = some 0 then ([], [e.backfillFrom], e :: l)
        else
          let (paths, starts, l) := gather member (limit.map (· - 1)) l
          (e.path :: paths, e.backfillFrom :: starts, { e with backfill := .live } :: l)
      else
        let (paths, starts, l) := gather member limit l
        (paths, starts, e :: l)

-- what follows once nothing is left to serve
def Boundary.after : Boundary → WriterAt
  | .beginStep => .inStep
  | .endStep => .replaying

/-- `vs_tr_writer_take_backfill`. -/
def Server.takeBackfill (s : Server) (limit : Option Nat) (next : Boundary) : Server :=
  match s.subs.find? (·.backfill = .released) with
  | none => { s with writer := next.after, current := [] }
  | some e =>
      let (paths, starts, subs) := gather e.member limit s.subs
      if paths = [] then { s with writer := next.after, current := [] }
      else { s with subs := subs, writer := .serving e.member paths (starts.foldl min e.backfillFrom) next }

/-- One round of `H5VL__stream_serve_backfill` for the member taken. -/
def Server.serveStep (s : Server) (member : MemberId) (paths : List Path) (k : Nat) (next : Boundary) : Server :=
  if k < s.steps.length then
    let wrote := s.steps[k]?.getD []
    { s.send member (((paths.filter (· ∈ wrote)).map (.items k)) ++ [.announce k]) with
      writer := .serving member paths (k + 1) next }
  else { s with writer := .taking next }

/-- The live push of one write (`vs_tr_writer_push_data`): to every member whose subscription of the
path is live. -/
def Server.pushLive (s : Server) (path : Path) : Server :=
  let targets := s.subs.filter fun e => e.path = path ∧ e.backfill = .live ∧ e.member ∈ s.members
  { s with sent := s.sent ++ targets.map fun e => (e.member, .items s.steps.length path) }

/-- `vs_tr_member_backfilling`. -/
def Server.backfilling (s : Server) (member : MemberId) : Bool :=
  s.subs.any fun e => e.member = member ∧ e.backfill ≠ .live

/-! ## Runs -/

inductive ServerEvent where
  | joined (member : MemberId)
  | stage (member : MemberId) (path : Path) (start : Nat) (stored : Bool)
  | subscribe (member : MemberId) (path : Path) (stored : Bool)
  | release (member : MemberId)
  | callFailed (member : MemberId)
  | beginStep
  | endStep
  | take (limit : Option Nat)
  | serve
  | replayWrite (path : Path)
  | commit (ok : Bool)
  | look
  | forward
deriving DecidableEq, Repr

/-- One event: a request handled, or the writer's thread going one step further. An event the
writer's thread is not ready for does nothing. -/
def Server.apply (s : Server) : ServerEvent → Server
  | .joined m => if m ∈ s.members then s else { s with members := s.members ++ [m] }
  | .stage m path start stored => s.subscribe m path (some start) stored
  | .subscribe m path stored => s.subscribe m path none stored
  | .release m => { s with subs := s.subs.map (SubEntry.release m) }
  | .callFailed _ => s
  | .beginStep =>
      match s.writer with
      | .idle => { s with writer := .taking .beginStep }
      | _ => s
  | .endStep =>
      match s.writer with
      | .inStep => { s with writer := .taking .endStep }
      | _ => s
  | .take limit =>
      match s.writer with
      | .taking next => s.takeBackfill limit next
      | _ => s
  | .serve =>
      match s.writer with
      | .serving m paths k next => s.serveStep m paths k next
      | _ => s
  | .replayWrite path =>
      match s.writer with
      | .replaying => { s.pushLive path with current := s.current ++ [path] }
      | _ => s
  | .commit ok =>
      match s.writer with
      | .replaying =>
          -- the members are read when the announcement starts
          if ok then { s with steps := s.steps ++ [s.current], writer := .announcing s.members }
          else { s with writer := .idle }
      | _ => s
  | .look =>
      match s.writer with
      | .announcing [] => { s with writer := .idle }
      | .announcing (m :: rest) =>
          if s.backfilling m then { s with writer := .announcing rest }
          else { s with writer := .forwarding m rest }
      | _ => s
  | .forward =>
      match s.writer with
      | .forwarding m rest => { s.send m [.announce (s.steps.length - 1)] with writer := .announcing rest }
      | _ => s

def Server.run (s : Server) (events : List ServerEvent) : Server := events.foldl Server.apply s

/-! ## What the subscriber is told -/

/-- What `r` is sent from a state on. -/
def Server.received (s : Server) (r : MemberId) (since : Nat) : List Message :=
  ((s.sent.drop since).filter (·.1 = r)).map (·.2)

def Message.announced : Message → Option Nat
  | .announce k => some k
  | .items _ _ => none

/-- No subscription of `r` waits, and the writer is neither serving nor announcing. -/
def Server.settled (s : Server) (r : MemberId) : Bool :=
  !s.backfilling r && match s.writer with
    | .idle => true
    | .inStep => true
    | .replaying => true
    | _ => false

/-- Every step from `start` once and in order, all of them once settled, each after its items. -/
structure Server.InOrder (s : Server) (r : MemberId) (start : Nat) (requested : List Path)
    (received : List Message) : Prop where
  announced : ∃ n, received.filterMap Message.announced = List.range' start n ∧
    (s.settled r → start + n = s.steps.length)
  complete : ∀ before after k, received = before ++ .announce k :: after →
    ∀ path ∈ requested, path ∈ s.steps[k]?.getD [] → .items k path ∈ before
  closed : ∀ before after k, received = before ++ .announce k :: after → ∀ path, .items k path ∉ after

/-! ## When the call is orderly -/

/-- Whether an event leaves the call of `r` in order; `released` says that its release was handled
before. -/
def Server.orderly (s : Server) (r : MemberId) (start : Nat) (released : Bool) : ServerEvent → Bool
  -- no request of the call comes in after its release
  | .stage m _ from' stored => m ≠ r || (!released && from' = start && stored)
  -- the start is not ahead of the writer, and memory does not run out
  | .take limit => !s.subs.any (fun e => e.member = r ∧ e.backfill = .released) ||
      (limit = none && start ≤ s.steps.length)
  -- the call fails only after its release was handled
  | .callFailed m => m ≠ r || released
  | _ => true

def Server.OrderlyFrom (r : MemberId) (start : Nat) : Bool → Server → List ServerEvent → Prop
  | _, _, [] => True
  | released, s, ev :: events =>
      s.orderly r start released ev ∧
        Server.OrderlyFrom r start (released || decide (ev = .release r)) (s.apply ev) events

/-- The paths a run stages for `r`. -/
def stagedPaths (r : MemberId) (events : List ServerEvent) : List Path :=
  events.filterMap fun
    | .stage m path _ _ => if m = r then some path else none
    | _ => none

/-! ## What has been told so far -/

/-- `n` steps were announced, each in its turn and after its items. -/
structure Told (start : Nat) (steps : List (List Path)) (requested : List Path) (n : Nat)
    (received : List Message) : Prop where
  announced : received.filterMap Message.announced = List.range' start n
  bound : n = 0 ∨ start + n ≤ steps.length
  complete : ∀ before after k, received = before ++ .announce k :: after →
    ∀ path ∈ requested, path ∈ steps[k]?.getD [] → .items k path ∈ before
  closed : ∀ before after k, received = before ++ .announce k :: after → ∀ path, .items k path ∉ after

section Told

variable {start n : Nat} {steps : List (List Path)} {requested : List Path} {received : List Message}

theorem Told.mem_announced (h : Told start steps requested n received) {k : Nat}
    (hk : .announce k ∈ received) : k < start + n := by
  have hmem : k ∈ received.filterMap Message.announced := List.mem_filterMap.mpr ⟨_, hk, rfl⟩
  rw [h.announced, List.mem_range'_1] at hmem
  exact hmem.2

theorem Told.start_le (h : Told start steps requested n received) {k : Nat}
    (hk : .announce k ∈ received) : start ≤ k := by
  have hmem : k ∈ received.filterMap Message.announced := List.mem_filterMap.mpr ⟨_, hk, rfl⟩
  rw [h.announced, List.mem_range'_1] at hmem
  exact hmem.1

theorem Told.nil (start : Nat) (steps : List (List Path)) (requested : List Path) :
    Told start steps requested 0 [] := by
  refine ⟨rfl, .inl rfl, ?_, ?_⟩
  · intro before after k heq
    exact absurd heq.symm (List.append_ne_nil_of_right_ne_nil _ (List.cons_ne_nil _ _))
  · intro before after k heq
    exact absurd heq.symm (List.append_ne_nil_of_right_ne_nil _ (List.cons_ne_nil _ _))

/-- Items of the step in hand keep the order. -/
theorem Told.items (h : Told start steps requested n received) {k : Nat} (hk : n = 0 ∨ start + n ≤ k)
    (paths : List Path) : Told start steps requested n (received ++ paths.map (.items k)) := by
  have hnone : ∀ {before after : List Message} {j : Nat}, received ++ paths.map (.items k)
      = before ++ .announce j :: after →
      ∃ after', received = before ++ .announce j :: after' ∧ after = after' ++ paths.map (.items k) := by
    intro before after j heq
    rcases List.append_eq_append_iff.mp heq with ⟨c, hbefore, htail⟩ | ⟨c, hrec, htail⟩
    · -- the announcement would be among the items
      have hmem : Message.announce j ∈ paths.map (Message.items k) := by
        rw [htail]
        exact List.mem_append_right _ List.mem_cons_self
      obtain ⟨path, -, hpath⟩ := List.mem_map.mp hmem
      cases hpath
    · cases c with
      | nil =>
        have hmem : Message.announce j ∈ paths.map (Message.items k) := by
          rw [List.nil_append] at htail
          rw [← htail]
          exact List.mem_cons_self
        obtain ⟨path, -, hpath⟩ := List.mem_map.mp hmem
        cases hpath
      | cons m c =>
        rw [List.cons_append, List.cons.injEq] at htail
        obtain ⟨rfl, hafter⟩ := htail
        exact ⟨c, hrec, hafter⟩
  refine ⟨?_, h.bound, ?_, ?_⟩
  · have hitems : (paths.map (Message.items k)).filterMap Message.announced = [] := by
      rw [List.filterMap_map]
      exact List.filterMap_eq_nil_iff.mpr (fun _ _ => rfl)
    rw [List.filterMap_append, hitems, List.append_nil, h.announced]
  · intro before after j heq path hpath hwrote
    obtain ⟨after', hrec, -⟩ := hnone heq
    exact h.complete before after' j hrec path hpath hwrote
  · intro before after j heq path hmem
    obtain ⟨after', hrec, rfl⟩ := hnone heq
    rcases List.mem_append.mp hmem with hmem | hmem
    · exact h.closed before after' j hrec path hmem
    · obtain ⟨path', -, hpath⟩ := List.mem_map.mp hmem
      injection hpath with hkj
      have hj : .announce j ∈ received := by
        rw [hrec]
        exact List.mem_append_right _ List.mem_cons_self
      have hlt := h.mem_announced hj
      have hle := h.start_le hj
      omega

/-- The next step is announced once its items are there. -/
theorem Told.announce (h : Told start steps requested n received) (hn : start + n < steps.length)
    (hitems : ∀ path ∈ requested, path ∈ steps[start + n]?.getD [] → .items (start + n) path ∈ received) :
    Told start steps requested (n + 1) (received ++ [.announce (start + n)]) := by
  have hsplit : ∀ {before after : List Message} {j : Nat}, received ++ [.announce (start + n)]
      = before ++ .announce j :: after →
      (∃ after', received = before ++ .announce j :: after' ∧ after = after' ++ [.announce (start + n)]) ∨
        (before = received ∧ j = start + n ∧ after = []) := by
    intro before after j heq
    rcases List.append_eq_append_iff.mp heq with ⟨c, hbefore, htail⟩ | ⟨c, hrec, htail⟩
    · cases c with
      | nil =>
        rw [List.nil_append, List.cons.injEq] at htail
        obtain ⟨hj, hafter⟩ := htail
        injection hj with hj
        exact .inr ⟨by rw [hbefore, List.append_nil], hj.symm, hafter.symm⟩
      | cons m c =>
        rw [List.cons_append, List.cons.injEq] at htail
        exact absurd htail.2.symm (List.append_ne_nil_of_right_ne_nil _ (List.cons_ne_nil _ _))
    · cases c with
      | nil =>
        rw [List.nil_append, List.cons.injEq] at htail
        obtain ⟨hj, hafter⟩ := htail
        injection hj with hj
        exact .inr ⟨by rw [hrec, List.append_nil], hj, hafter⟩
      | cons m c =>
        rw [List.cons_append, List.cons.injEq] at htail
        obtain ⟨rfl, hafter⟩ := htail
        exact .inl ⟨c, hrec, hafter⟩
  refine ⟨?_, .inr (by omega), ?_, ?_⟩
  · rw [List.filterMap_append, h.announced, List.range'_1_concat]
    rfl
  · intro before after j heq path hpath hwrote
    rcases hsplit heq with ⟨after', hrec, -⟩ | ⟨rfl, rfl, -⟩
    · exact h.complete before after' j hrec path hpath hwrote
    · exact hitems path hpath hwrote
  · intro before after j heq path hmem
    rcases hsplit heq with ⟨after', hrec, rfl⟩ | ⟨-, -, rfl⟩
    · rcases List.mem_append.mp hmem with hmem | hmem
      · exact h.closed before after' j hrec path hmem
      · cases List.mem_singleton.mp hmem
    · cases hmem

-- a committed step changes nothing about those announced
theorem Told.commit (h : Told start steps requested n received) (wrote : List Path) :
    Told start (steps ++ [wrote]) requested n received := by
  refine ⟨h.announced, ?_, ?_, h.closed⟩
  · rcases h.bound with hn | hn
    · exact .inl hn
    · refine .inr ?_
      rw [List.length_append]
      omega
  · intro before after k heq path hpath hwrote
    have hmem : .announce k ∈ received := by
      rw [heq]
      exact List.mem_append_right _ List.mem_cons_self
    have hlt := h.mem_announced hmem
    have hle := h.start_le hmem
    have hbound := h.bound
    rw [List.getElem?_append_left (by omega)] at hwrote
    exact h.complete before after k heq path hpath hwrote

-- while nothing is announced, more paths may be asked for
theorem Told.request (h : Told start steps requested 0 received) (requested' : List Path) :
    Told start steps requested' 0 received := by
  refine ⟨h.announced, .inl rfl, ?_, h.closed⟩
  intro before after k heq
  have hmem : .announce k ∈ received := by
    rw [heq]
    exact List.mem_append_right _ List.mem_cons_self
  have hlt := h.mem_announced hmem
  have hle := h.start_le hmem
  omega

end Told

end VolStream
