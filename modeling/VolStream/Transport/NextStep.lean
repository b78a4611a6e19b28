import VolStream.Transport.Delivery

/-!
# `File.next_step`

The Python reader takes an announcement from one queue and then drains the other, that of the pushes, up to
the first of a later step, which it holds back for that step; a push of an earlier step it meets on the way is
passed over. Nothing is lost as long as the pushes come in the order of their steps, each before its own
announcement. The writer delivers them so, except when it drains a spilled step (announced when it was
queued), when a step fails after it pushed and its number is taken again, when a backfill goes behind what
the reader still has to be given, and when the reader is told nothing of a step it has pushes of.
-/

namespace VolStream

/-! ## The reader -/

/-- A `Step`, by the pushes its arrays are assembled from. -/
structure ReturnedStep where
  phys : Nat
  used : List Item
deriving DecidableEq, Repr

/-- Where a call of `next_step` raises: in `_verify_expected`, at the push it dequeues after `k` others, or in
`assemble`. -/
inductive Fault where
  | verify
  | values (k : Nat)
  | assemble
deriving DecidableEq, Repr

def Fault.unreadable : Fault → Option Nat
  | .values k => some k
  | _ => none

/-- `volstream.File` with the two queues of its transport; with the pushes of subscribed paths it has dequeued
and the steps it has returned. -/
structure PyFile where
  pending : List Nat
  dataQueue : List Item
  held : Option Item
  subs : List Path
  dequeued : List Item
  returned : List ReturnedStep
deriving DecidableEq, Repr

def PyFile.opened : PyFile := ⟨[], [], none, [], [], []⟩

def PyFile.subscribed (f : PyFile) (it : Item) : Bool := decide (it.path ∈ f.subs)

/-- What one call takes from the queue of pushes. -/
structure Drained where
  pushes : List Item
  held : Option Item
  queue : List Item
  dequeued : List Item
  raised : Bool

/-- The loop of `next_step` over `get(0)`, with the push that cannot be read. -/
def drainQueue (phys : Nat) : Option Nat → List Item → Drained
  | _, [] => ⟨[], none, [], [], false⟩
  | some 0, it :: q => ⟨[], none, q, [it], true⟩
  | bad, it :: q =>
      if it.label = phys then
        let d := drainQueue phys (bad.map (· - 1)) q
        { d with pushes := it :: d.pushes, dequeued := it :: d.dequeued }
      else if phys < it.label then ⟨[], some it, q, [it], false⟩
      else
        let d := drainQueue phys (bad.map (· - 1)) q
        { d with dequeued := it :: d.dequeued }

-- the push held back comes first
def PyFile.gather (f : PyFile) (phys : Nat) (bad : Option Nat) : Drained :=
  match f.held with
  | none => drainQueue phys bad f.dataQueue
  | some it =>
      if it.label = phys then
        let d := drainQueue phys bad f.dataQueue
        { d with pushes := it :: d.pushes }
      else if phys < it.label then ⟨[], some it, f.dataQueue, [], false⟩
      else drainQueue phys bad f.dataQueue

/-- `File.next_step`. -/
def PyFile.nextStep (f : PyFile) (fault : Option Fault) : PyFile :=
  match f.pending with
  | [] => f
  | phys :: pending =>
      if fault = some .verify then { f with pending := pending }
      else
        let d := f.gather phys (fault.bind Fault.unreadable)
        let f' : PyFile :=
          { f with
            pending := pending, dataQueue := d.queue, held := d.held
            dequeued := f.dequeued ++ d.dequeued.filter f.subscribed }
        if d.raised || decide (fault = some .assemble) then f'
        else { f' with returned := f.returned ++ [⟨phys, d.pushes.filter f.subscribed⟩] }

/-- `File.subscribe`: the first one drops the announcements queued before it. -/
def PyFile.subscribe (f : PyFile) (paths : List Path) : PyFile :=
  { f with pending := if f.subs = [] then [] else f.pending, subs := f.subs ++ paths }

-- `vs_push_data_item` and `vs_push_pending`
def PyFile.arrive (f : PyFile) : Delivery → PyFile
  | .item it => { f with dataQueue := f.dataQueue ++ [it] }
  | .announce n => { f with pending := f.pending ++ [n] }

/-- Every push of a subscribed path the reader has dequeued is in a step it returned, each in one of its own
number, or is held back. -/
structure PyFile.Filed (f : PyFile) : Prop where
  kept : f.dequeued.Sublist (f.returned.flatMap (·.used) ++ f.held.toList.filter f.subscribed)
  own : ∀ r ∈ f.returned, ∀ it ∈ r.used, it.label = r.phys

/-! ## Writer and reader -/

/-- A writer, what is under way from it to the reader, in order, and the reader. -/
structure Listening where
  feed : Feed
  wire : List Delivery
  file : PyFile

def Listening.init (config : Config) : Listening := ⟨.init config, [], .opened⟩

/-- What happens: an event of the writer; a backfill it serves, with what it finds for the reader in each
step and whether that step's announcement goes through; the reader joins; one delivery arrives; a call of the
reader. -/
inductive ListenEvent where
  | writer (e : FeedEvent)
  | backfill (start : Nat) (found : Nat → List (Path × Run)) (told : Nat → Bool)
  | join
  | deliver
  | subscribe (paths : List Path)
  | nextStep (fault : Option Fault)

/-- `H5VL__stream_serve_backfill` for one step. -/
def Feed.backfillStep (s : Feed) (found : Nat → List (Path × Run)) (told : Nat → Bool) (k : Nat) : List Delivery :=
  (found k).map (fun pr => .item ⟨k, (s.committedBy.find? k).getD 0, pr.1, pr.2⟩) ++
    if told k then [.announce k] else []

def Listening.apply (s : Listening) : ListenEvent → Listening
  | .writer e =>
      { s with
        feed := s.feed.apply e
        wire := s.wire ++ (s.feed.apply e).received.drop s.feed.received.length }
  | .backfill start found told =>
      { s with
        wire := s.wire ++ (List.range' start (s.feed.writer.core.physicalStep - start)).flatMap
          (s.feed.backfillStep found told) }
  | .join =>
      match s.feed.writer.core.physicalStep with
      | 0 => s
      | n + 1 => { s with wire := s.wire ++ [.announce n] }
  | .deliver =>
      match s.wire with
      | [] => s
      | d :: wire => { s with wire := wire, file := s.file.arrive d }
  | .subscribe paths => { s with file := s.file.subscribe paths }
  | .nextStep fault => { s with file := s.file.nextStep fault }

-- the pushes the reader has and has not used
def PyFile.waiting (f : PyFile) : List Item := f.held.toList ++ f.dataQueue

/-- A push arrives while no later one waits and its step has not been passed over; an announcement arrives
while every push waiting of an earlier step is still to be asked for. -/
def PyFile.InTime (f : PyFile) : Delivery → Prop
  | .item it =>
      (∀ it' ∈ f.waiting, it'.label ≤ it.label) ∧ ∀ n ∈ f.pending, it.label < n → it.label ∈ f.pending
  | .announce n =>
      (∀ m ∈ f.pending, m ≤ n) ∧ ∀ it ∈ f.waiting, it.label < n → it.label ∈ f.pending

instance (f : PyFile) : (d : Delivery) → Decidable (f.InTime d)
  | .item it => inferInstanceAs (Decidable
      ((∀ it' ∈ f.waiting, it'.label ≤ it.label) ∧ ∀ n ∈ f.pending, it.label < n → it.label ∈ f.pending))
  | .announce n => inferInstanceAs (Decidable
      ((∀ m ∈ f.pending, m ≤ n) ∧ ∀ it ∈ f.waiting, it.label < n → it.label ∈ f.pending))

/-- What arrives is in time, and `next_step` does not raise. -/
def Listening.InTime (s : Listening) : ListenEvent → Prop
  | .deliver => ∀ d ∈ s.wire.take 1, s.file.InTime d
  | .nextStep fault => fault = none
  | _ => True

instance (s : Listening) : (e : ListenEvent) → Decidable (s.InTime e)
  | .deliver => inferInstanceAs (Decidable (∀ d ∈ s.wire.take 1, s.file.InTime d))
  | .nextStep fault => inferInstanceAs (Decidable (fault = none))
  | .writer _ | .backfill _ _ _ | .join | .subscribe _ => .isTrue trivial

/-! ## The look-ahead -/

/-- When nothing queued is of an earlier step, the loop takes the pushes of this one and looks one ahead. -/
theorem drainQueue_spec {phys : Nat} {q : List Item} (hsorted : q.Pairwise (fun a b => a.label ≤ b.label))
    (hnone : ∀ it ∈ q, phys ≤ it.label) :
    (drainQueue phys none q).raised = false ∧
      q = (drainQueue phys none q).pushes ++ ((drainQueue phys none q).held.toList ++ (drainQueue phys none q).queue) ∧
      (drainQueue phys none q).dequeued = (drainQueue phys none q).pushes ++ (drainQueue phys none q).held.toList ∧
      (∀ it ∈ (drainQueue phys none q).pushes, it.label = phys) ∧
      ∀ it ∈ (drainQueue phys none q).held.toList ++ (drainQueue phys none q).queue, phys < it.label := by
  induction q with
  | nil => exact ⟨rfl, rfl, rfl, fun _ h => (by cases h), fun _ h => (by cases h)⟩
  | cons it q ih =>
    obtain ⟨hfirst, hrest⟩ := List.pairwise_cons.mp hsorted
    have hge := hnone it List.mem_cons_self
    by_cases hown : it.label = phys
    · have hdrain : drainQueue phys none (it :: q) = { drainQueue phys none q with
          pushes := it :: (drainQueue phys none q).pushes
          dequeued := it :: (drainQueue phys none q).dequeued } := if_pos hown
      obtain ⟨hraised, hq, hdeq, hpushes, hlater⟩ := ih hrest (fun it' h => hnone it' (List.mem_cons_of_mem _ h))
      rw [hdrain]
      refine ⟨hraised, congrArg (it :: ·) hq, congrArg (it :: ·) hdeq, ?_, hlater⟩
      intro it' h
      rcases List.mem_cons.mp h with rfl | h
      · exact hown
      · exact hpushes it' h
    · have hlt : phys < it.label := by omega
      have hdrain : drainQueue phys none (it :: q) = ⟨[], some it, q, [it], false⟩ := by
        show (if it.label = phys then _ else if phys < it.label then _ else _) = _
        rw [if_neg hown, if_pos hlt]
      rw [hdrain]
      refine ⟨rfl, rfl, rfl, fun _ h => (by cases h), ?_⟩
      intro it' h
      rcases List.mem_cons.mp h with rfl | h
      · exact hlt
      · exact Nat.lt_of_lt_of_le hlt (hfirst it' h)

/-- The same with the push held back, which counts as queued. -/
theorem PyFile.gather_spec {f : PyFile} {phys : Nat} (hsorted : f.waiting.Pairwise (fun a b => a.label ≤ b.label))
    (hnone : ∀ it ∈ f.waiting, phys ≤ it.label) :
    (f.gather phys none).raised = false ∧
      f.waiting = (f.gather phys none).pushes ++ ((f.gather phys none).held.toList ++ (f.gather phys none).queue) ∧
      f.held.toList ++ (f.gather phys none).dequeued = (f.gather phys none).pushes ++ (f.gather phys none).held.toList ∧
      (∀ it ∈ (f.gather phys none).pushes, it.label = phys) ∧
      ∀ it ∈ (f.gather phys none).held.toList ++ (f.gather phys none).queue, phys < it.label := by
  have hqueue : f.dataQueue.Pairwise (fun a b => a.label ≤ b.label) := (List.pairwise_append.mp hsorted).2.1
  obtain ⟨hraised, hq, hdeq, hpushes, hlater⟩ :=
    drainQueue_spec hqueue (fun it h => hnone it (List.mem_append_right _ h))
  cases hheld : f.held with
  | none =>
    have hgather : f.gather phys none = drainQueue phys none f.dataQueue := by
      unfold PyFile.gather
      rw [hheld]
    have hwaiting : f.waiting = f.dataQueue := by
      unfold PyFile.waiting
      rw [hheld]
      rfl
    rw [hgather, hwaiting]
    exact ⟨hraised, hq, hdeq, hpushes, hlater⟩
  | some it =>
    have hwaiting : f.waiting = it :: f.dataQueue := by
      unfold PyFile.waiting
      rw [hheld]
      rfl
    rw [hwaiting] at hsorted hnone ⊢
    have hge := hnone it List.mem_cons_self
    by_cases hown : it.label = phys
    · have hgather : f.gather phys none = { drainQueue phys none f.dataQueue with
          pushes := it :: (drainQueue phys none f.dataQueue).pushes } := by
        unfold PyFile.gather
        rw [hheld]
        exact if_pos hown
      rw [hgather]
      refine ⟨hraised, congrArg (it :: ·) hq, congrArg (it :: ·) hdeq, ?_, hlater⟩
      intro it' h
      rcases List.mem_cons.mp h with rfl | h
      · exact hown
      · exact hpushes it' h
    · have hlt : phys < it.label := by omega
      have hgather : f.gather phys none = ⟨[], some it, f.dataQueue, [], false⟩ := by
        unfold PyFile.gather
        rw [hheld]
        show (if it.label = phys then _ else if phys < it.label then _ else _) = _
        rw [if_neg hown, if_pos hlt]
      rw [hgather]
      refine ⟨rfl, rfl, rfl, fun _ h => (by cases h), ?_⟩
      intro it' h
      rcases List.mem_cons.mp h with rfl | h
      · exact hlt
      · exact Nat.lt_of_lt_of_le hlt ((List.pairwise_cons.mp hsorted).1 it' h)

/-- Pushes wait in the order of their steps, and none of a step before one still to be asked for unless it is
still to be asked for itself. -/
structure PyFile.Ahead (f : PyFile) : Prop where
  items : f.waiting.Pairwise (fun a b => a.label ≤ b.label)
  steps : f.pending.Pairwise (· ≤ ·)
  asked : ∀ it ∈ f.waiting, ∀ n ∈ f.pending, it.label < n → it.label ∈ f.pending
  filed : f.Filed

theorem PyFile.opened_ahead : PyFile.opened.Ahead where
  items := .nil
  steps := .nil
  asked := fun _ h => (by cases h)
  filed := ⟨.slnil, fun _ h => (by cases h)⟩

theorem PyFile.Ahead.arrive {f : PyFile} (h : f.Ahead) {d : Delivery} (hd : f.InTime d) : (f.arrive d).Ahead := by
  cases d with
  | item it =>
    obtain ⟨hlast, hasked⟩ := hd
    have hwaiting : (f.arrive (.item it)).waiting = f.waiting ++ [it] := (List.append_assoc _ _ _).symm
    refine ⟨?_, h.steps, ?_, ⟨h.filed.kept, h.filed.own⟩⟩
    · rw [hwaiting, List.pairwise_append]
      refine ⟨h.items, List.pairwise_singleton _ _, fun a ha b hb => ?_⟩
      rw [List.mem_singleton.mp hb]
      exact hlast a ha
    · intro it' hit'
      rw [hwaiting] at hit'
      rcases List.mem_append.mp hit' with hit' | hit'
      · exact h.asked it' hit'
      · rw [List.mem_singleton.mp hit']
        exact hasked
  | announce n =>
    obtain ⟨hlast, hasked⟩ := hd
    refine ⟨h.items, ?_, ?_, ⟨h.filed.kept, h.filed.own⟩⟩
    · show (f.pending ++ [n]).Pairwise (· ≤ ·)
      rw [List.pairwise_append]
      refine ⟨h.steps, List.pairwise_singleton _ _, fun a ha b hb => ?_⟩
      rw [List.mem_singleton.mp hb]
      exact hlast a ha
    · intro it hit m hm hlt
      refine List.mem_append_left _ ?_
      rcases List.mem_append.mp hm with hm | hm
      · exact h.asked it hit m hm hlt
      · rw [List.mem_singleton.mp hm] at hlt
        exact hasked it hit hlt

theorem PyFile.Ahead.subscribe {f : PyFile} (h : f.Ahead) (paths : List Path) : (f.subscribe paths).Ahead := by
  have hgrows : ∀ it, f.subscribed it = true → (f.subscribe paths).subscribed it = true := by
    intro it hit
    exact decide_eq_true (List.mem_append_left _ (of_decide_eq_true hit))
  refine ⟨h.items, ?_, ?_, ⟨?_, h.filed.own⟩⟩
  · show (if f.subs = [] then [] else f.pending).Pairwise (· ≤ ·)
    split
    · exact .nil
    · exact h.steps
  · intro it hit n hn hlt
    have hn' : n ∈ (if f.subs = [] then [] else f.pending) := hn
    show it.label ∈ (if f.subs = [] then [] else f.pending)
    split at hn'
    · cases hn'
    · rename_i hsome
      rw [if_neg hsome]
      exact h.asked it hit n hn' hlt
  · exact h.filed.kept.trans ((List.Sublist.refl _).append (List.monotone_filter_right _ hgrows))

/-- A call that does not raise takes the pushes of the step announced, and no other. -/
theorem PyFile.Ahead.nextStep_eq {f : PyFile} (h : f.Ahead) {phys : Nat} {pending : List Nat}
    (hpending : f.pending = phys :: pending) :
    f.nextStep none = { f with
        pending := pending, dataQueue := (f.gather phys none).queue, held := (f.gather phys none).held
        dequeued := f.dequeued ++ (f.gather phys none).dequeued.filter f.subscribed
        returned := f.returned ++ [⟨phys, (f.gather phys none).pushes.filter f.subscribed⟩] } ∧
      f.waiting = (f.gather phys none).pushes ++ (f.nextStep none).waiting ∧
      f.held.toList ++ (f.gather phys none).dequeued = (f.gather phys none).pushes ++ (f.gather phys none).held.toList ∧
      (∀ it ∈ (f.gather phys none).pushes, it.label = phys) ∧
      ∀ it ∈ (f.nextStep none).waiting, phys < it.label := by
  have hsteps := h.steps
  rw [hpending] at hsteps
  -- the step taken is the earliest announced, so nothing that waits is older
  have hnone : ∀ it ∈ f.waiting, phys ≤ it.label := by
    intro it hit
    by_contra hlt
    have hmem := h.asked it hit phys (by rw [hpending]; exact List.mem_cons_self) (by omega)
    rw [hpending] at hmem
    rcases List.mem_cons.mp hmem with heq | hmem
    · omega
    · have := (List.pairwise_cons.mp hsteps).1 _ hmem
      omega
  obtain ⟨hraised, hwaiting, hdeq, hpushes, hlater⟩ := PyFile.gather_spec h.items hnone
  have hnext : f.nextStep none = { f with
      pending := pending, dataQueue := (f.gather phys none).queue, held := (f.gather phys none).held
      dequeued := f.dequeued ++ (f.gather phys none).dequeued.filter f.subscribed
      returned := f.returned ++ [⟨phys, (f.gather phys none).pushes.filter f.subscribed⟩] } := by
    unfold PyFile.nextStep
    rw [hpending]
    simp only [reduceCtorEq, if_false, Option.bind_none, hraised, decide_false, Bool.or_self, Bool.false_eq_true]
  refine ⟨hnext, ?_, hdeq, hpushes, ?_⟩
  · rw [hnext]
    exact hwaiting
  · rw [hnext]
    exact hlater

theorem PyFile.nextStep_idle {f : PyFile} (hpending : f.pending = []) (fault : Option Fault) : f.nextStep fault = f := by
  unfold PyFile.nextStep
  rw [hpending]

theorem PyFile.Ahead.nextStep {f : PyFile} (h : f.Ahead) : (f.nextStep none).Ahead := by
  cases hpending : f.pending with
  | nil =>
    rw [PyFile.nextStep_idle hpending]
    exact h
  | cons phys pending =>
    obtain ⟨hnext, hwaiting, hdeq, hpushes, hlater⟩ := h.nextStep_eq hpending
    have hsteps := h.steps
    rw [hpending] at hsteps
    refine ⟨?_, ?_, ?_, ⟨?_, ?_⟩⟩
    · have hitems := h.items
      rw [hwaiting] at hitems
      exact (List.pairwise_append.mp hitems).2.1
    · rw [hnext]
      exact (List.pairwise_cons.mp hsteps).2
    · intro it hit n hn hlt
      have hlate : phys < it.label := hlater it hit
      rw [hnext] at hn ⊢
      have hmem := h.asked it (by rw [hwaiting]; exact List.mem_append_right _ hit) n
        (by rw [hpending]; exact List.mem_cons_of_mem _ hn) hlt
      rw [hpending] at hmem
      rcases List.mem_cons.mp hmem with heq | hmem
      · omega
      · exact hmem
    · rw [hnext]
      show (f.dequeued ++ (f.gather phys none).dequeued.filter f.subscribed).Sublist
        ((f.returned ++ [ReturnedStep.mk phys ((f.gather phys none).pushes.filter f.subscribed)]).flatMap
            (ReturnedStep.used ·) ++
          (f.gather phys none).held.toList.filter f.subscribed)
      have hfilter := congrArg (List.filter f.subscribed) hdeq
      rw [List.filter_append, List.filter_append] at hfilter
      rw [List.flatMap_append, List.flatMap_singleton, List.append_assoc, ← hfilter, ← List.append_assoc]
      exact h.filed.kept.append (.refl _)
    · rw [hnext]
      intro r hr it hit
      rcases List.mem_append.mp hr with hr | hr
      · exact h.filed.own r hr it hit
      · rw [List.mem_singleton.mp hr] at hit ⊢
        exact hpushes it (List.mem_of_mem_filter hit)

theorem Listening.ahead_apply {s : Listening} (h : s.file.Ahead) {e : ListenEvent} (he : s.InTime e) :
    (s.apply e).file.Ahead := by
  cases e with
  | writer e => exact h
  | backfill start found told => exact h
  | join =>
    show (match s.feed.writer.core.physicalStep with
      | 0 => s
      | n + 1 => { s with wire := s.wire ++ [Delivery.announce n] }).file.Ahead
    split
    · exact h
    · exact h
  | deliver =>
    show (match s.wire with
      | [] => s
      | d :: wire => { s with wire := wire, file := s.file.arrive d }).file.Ahead
    cases hwire : s.wire with
    | nil => exact h
    | cons d wire =>
      have hd : s.file.InTime d := he d (by rw [hwire]; exact List.mem_cons_self)
      exact h.arrive hd
  | subscribe paths => exact h.subscribe paths
  | nextStep fault =>
    have hfault : fault = none := he
    rw [hfault]
    exact h.nextStep

/-- In a run in which every delivery arrives in time and `next_step` does not raise, each push dequeued is used
in the step of its number and in no other, or held back for it. -/
theorem nextStep_files_pushes (config : Config) {events : List ListenEvent}
    (h : Runs.Meets Listening.apply Listening.InTime (.init config) events) :
    (Runs.run Listening.apply (.init config) events).file.Filed := by
  have hahead : (Runs.run Listening.apply (.init config) events).file.Ahead :=
    Runs.run_inv (P := fun s : Listening => s.file.Ahead) (fun s e hs hok => Listening.ahead_apply hs hok)
      PyFile.opened_ahead h
  exact hahead.filed

/-- Step 0 is written and step 1 is spilled, announced without its push; `drained` is what the reader does before
step 2 drains it, and `after` what it does then. -/
def spilledRun (drained after : List ListenEvent) : List ListenEvent :=
  .subscribe [['/', 'a']] ::
    ([.setQueuePolicy .spill 0,
      .beginStep [] 0, createByte 0 ['a'], writeByte 0, .closeHandle 0, .endStep .lagging,
      .beginStep [] 1, createByte 1 ['a'], writeByte 1, .closeHandle 1, .endStep .lagging].map (.writer ∘ .toAll) ++
    (drained ++ ([.beginStep [] 2, .endStep .quiet].map (.writer ∘ .toAll) ++ after)))

/-- A reader that has not asked for step 1 yet is given its push. -/
theorem spilledRun_lagging :
    (Runs.run Listening.apply (.init .staging) (spilledRun [.deliver, .deliver, .deliver, .nextStep none]
        [.deliver, .deliver, .nextStep none, .nextStep none])).file.returned
      = [⟨0, [⟨0, 0, ['/', 'a'], ⟨0, 1⟩⟩]⟩, ⟨1, [⟨1, 1, ['/', 'a'], ⟨0, 1⟩⟩]⟩, ⟨2, []⟩] ∧
    (Runs.run Listening.apply (.init .staging) (spilledRun [.deliver, .deliver, .deliver, .nextStep none]
        [.deliver, .deliver, .nextStep none, .nextStep none])).file.Filed :=
  ⟨by decide, nextStep_files_pushes .staging (by decide)⟩

/-- A reader that has is returned step 1 without it, and passes over it when it asks for step 2. -/
theorem spilledRun_passed_over :
    ¬ ∀ config events, (Runs.run Listening.apply (.init config) events).file.Filed := by
  intro h
  have hfiled := h .staging (spilledRun [.deliver, .deliver, .nextStep none, .deliver, .nextStep none]
    [.deliver, .deliver, .nextStep none])
  have hdequeued : (Runs.run Listening.apply (.init .staging)
      (spilledRun [.deliver, .deliver, .nextStep none, .deliver, .nextStep none]
        [.deliver, .deliver, .nextStep none])).file
      = ⟨[], [], none, [['/', 'a']], [⟨0, 0, ['/', 'a'], ⟨0, 1⟩⟩, ⟨1, 1, ['/', 'a'], ⟨0, 1⟩⟩],
        [⟨0, [⟨0, 0, ['/', 'a'], ⟨0, 1⟩⟩]⟩, ⟨1, []⟩, ⟨2, []⟩]⟩ := by decide
  have hkept := hfiled.kept.length_le
  rw [hdequeued] at hkept
  exact absurd hkept (by decide)

/-! ## Writers that keep the order -/

/-- Everything the reader has still to be given is of a step before `k`. -/
structure Listening.Below (s : Listening) (k : Nat) : Prop where
  waiting : ∀ it ∈ s.file.waiting, it.label < k
  pending : ∀ n ∈ s.file.pending, n < k
  wire : ∀ d ∈ s.wire, d.label < k

/-- A step that pushes something to the subscriber is announced to it. -/
def Announced (s : Feed) : FeedEvent → Prop
  | .write (.endStep env) routed _ heard => s.sends env routed ≠ [] → heard = true
  | _ => True

/-- Drains and failing steps push nothing to the reader and it is told of every step it has pushes of; a
backfill starts, and a join is, past all it has still to be given; at its first subscription nothing was
pushed yet; `next_step` does not raise. -/
def Listening.Orderly (s : Listening) : ListenEvent → Prop
  | .writer e => Undisturbed s.feed e ∧ Announced s.feed e
  | .backfill start found told => s.Below start ∧ ∀ k, found k ≠ [] → told k = true
  | .join => s.Below (s.feed.writer.core.physicalStep - 1)
  | .deliver => True
  | .subscribe _ => s.file.subs = [] → s.file.waiting = []
  | .nextStep fault => fault = none

/-- Every item is followed by its announcement, and nothing by a delivery of an earlier step. -/
def Ordered : List Delivery → Prop
  | [] => True
  | .item it :: ds => .announce it.label ∈ ds ∧ (∀ d ∈ ds, it.label ≤ d.label) ∧ Ordered ds
  | .announce n :: ds => (∀ d ∈ ds, n < d.label) ∧ Ordered ds

theorem Ordered.append {ds es : List Delivery} (hds : Ordered ds) (hes : Ordered es)
    (hlt : ∀ d ∈ ds, ∀ e ∈ es, d.label < e.label) : Ordered (ds ++ es) := by
  induction ds with
  | nil => exact hes
  | cons d ds ih =>
    have hfirst : ∀ e ∈ es, d.label < e.label := hlt d List.mem_cons_self
    have hrest : ∀ d' ∈ ds, ∀ e ∈ es, d'.label < e.label := fun d' h => hlt d' (List.mem_cons_of_mem _ h)
    cases d with
    | item it =>
      obtain ⟨hann, hle, hds⟩ := hds
      refine ⟨List.mem_append_left _ hann, fun e he => ?_, ih hds hrest⟩
      rcases List.mem_append.mp he with he | he
      · exact hle e he
      · exact Nat.le_of_lt (hfirst e he)
    | announce n =>
      obtain ⟨hlate, hds⟩ := hds
      refine ⟨fun e he => ?_, ih hds hrest⟩
      rcases List.mem_append.mp he with he | he
      · exact hlate e he
      · exact hfirst e he

/-- The items of one step and its announcement. -/
theorem ordered_step {items : List Item} {told : Bool} {n : Nat} (hitems : ∀ it ∈ items, it.label = n)
    (htold : items ≠ [] → told = true) :
    Ordered (items.map .item ++ if told then [.announce n] else []) ∧
      ∀ d ∈ items.map Delivery.item ++ (if told then [.announce n] else []), d.label = n := by
  have hlabel : ∀ d ∈ items.map Delivery.item ++ (if told then [.announce n] else []), d.label = n := by
    intro d hd
    rcases List.mem_append.mp hd with hd | hd
    · obtain ⟨it, hit, rfl⟩ := List.mem_map.mp hd
      exact hitems it hit
    · split at hd
      · rw [List.mem_singleton.mp hd]
        rfl
      · cases hd
  refine ⟨?_, hlabel⟩
  induction items with
  | nil =>
    cases told with
    | true => exact ⟨fun _ h => (by cases h), trivial⟩
    | false => trivial
  | cons it items ih =>
    have hown := hitems it List.mem_cons_self
    have htold' := htold (List.cons_ne_nil _ _)
    have hrest := fun d hd => hlabel d (List.mem_cons_of_mem _ hd)
    refine ⟨?_, fun d hd => ?_, ih (fun it' h => hitems it' (List.mem_cons_of_mem _ h)) (fun _ => htold') hrest⟩
    · rw [htold', hown]
      exact List.mem_append_right _ List.mem_cons_self
    · rw [hown, hrest d hd]

theorem ordered_flatMap {f : Nat → List Delivery} (hf : ∀ k, Ordered (f k) ∧ ∀ d ∈ f k, d.label = k) (start len : Nat) :
    Ordered ((List.range' start len).flatMap f) ∧
      ∀ d ∈ (List.range' start len).flatMap f, start ≤ d.label ∧ d.label < start + len := by
  have hlabel : ∀ start len, ∀ d ∈ (List.range' start len).flatMap f, start ≤ d.label ∧ d.label < start + len := by
    intro start len d hd
    obtain ⟨k, hk, hd⟩ := List.mem_flatMap.mp hd
    rw [(hf k).2 d hd]
    exact List.mem_range'_1.mp hk
  refine ⟨?_, hlabel start len⟩
  induction len generalizing start with
  | zero => trivial
  | succ len ih =>
    rw [List.range'_succ, List.flatMap_cons]
    refine (hf start).1.append (ih (start + 1)) (fun d hd e he => ?_)
    have hd' := (hf start).2 d hd
    have he' := (hlabel (start + 1) len e he).1
    omega

/-- What is under way is in order and continues what has arrived, all of it of committed steps. -/
structure Listening.Continues (s : Listening) : Prop where
  settled : s.feed.inFlight = []
  below : s.Below s.feed.writer.core.physicalStep
  ordered : Ordered s.wire
  items : ∀ it ∈ s.file.waiting, ∀ d ∈ s.wire, it.label ≤ d.label
  steps : ∀ n ∈ s.file.pending, ∀ d ∈ s.wire, n < d.label
  announced : ∀ it ∈ s.file.waiting, it.label ∈ s.file.pending ∨ .announce it.label ∈ s.wire

theorem Listening.Continues.inTime {s : Listening} (h : s.Continues) {e : ListenEvent} (he : s.Orderly e) :
    s.InTime e := by
  cases e with
  | deliver =>
    intro d hd
    obtain ⟨wire, hwire⟩ : ∃ wire, s.wire = d :: wire := by
      cases hs : s.wire with
      | nil =>
        rw [hs] at hd
        cases hd
      | cons d' wire =>
        rw [hs] at hd
        rw [List.mem_singleton.mp hd]
        exact ⟨wire, rfl⟩
    have hmem : d ∈ s.wire := by
      rw [hwire]
      exact List.mem_cons_self
    cases d with
    | item it =>
      refine ⟨fun it' hit' => h.items it' hit' _ hmem, fun n hn hlt => ?_⟩
      have := h.steps n hn _ hmem
      exact absurd this (Nat.not_lt.mpr (Nat.le_of_lt hlt))
    | announce n =>
      refine ⟨fun m hm => Nat.le_of_lt (h.steps m hm _ hmem), fun it hit hlt => ?_⟩
      rcases h.announced it hit with hp | hw
      · exact hp
      · -- its own announcement would have to come first
        have hordered := h.ordered
        rw [hwire] at hw hordered
        rcases List.mem_cons.mp hw with heq | hw
        · cases heq
          exact absurd hlt (Nat.lt_irrefl _)
        · exact absurd (hordered.1 _ hw) (Nat.not_lt.mpr (Nat.le_of_lt hlt))
  | nextStep fault => exact he
  | writer e => trivial
  | backfill start found told => trivial
  | join => trivial
  | subscribe paths => trivial

/-- Sending later steps, in order, keeps the order. -/
theorem Listening.Continues.send {s : Listening} (h : s.Continues) {feed : Feed} {ds : List Delivery} {k : Nat}
    (hflight : feed.inFlight = []) (hbelow : s.Below k) (hds : Ordered ds)
    (hlabel : ∀ d ∈ ds, k ≤ d.label ∧ d.label < feed.writer.core.physicalStep)
    (hnumber : s.feed.writer.core.physicalStep ≤ feed.writer.core.physicalStep) :
    Listening.Continues { s with feed := feed, wire := s.wire ++ ds } where
  settled := hflight
  below := by
    refine ⟨fun it hit => ?_, fun n hn => ?_, fun d hd => ?_⟩
    · exact Nat.lt_of_lt_of_le (h.below.waiting it hit) hnumber
    · exact Nat.lt_of_lt_of_le (h.below.pending n hn) hnumber
    · rcases List.mem_append.mp hd with hd | hd
      · exact Nat.lt_of_lt_of_le (h.below.wire d hd) hnumber
      · exact (hlabel d hd).2
  ordered := h.ordered.append hds (fun d hd e he => Nat.lt_of_lt_of_le (hbelow.wire d hd) (hlabel e he).1)
  items := by
    intro it hit d hd
    rcases List.mem_append.mp hd with hd | hd
    · exact h.items it hit d hd
    · exact Nat.le_of_lt (Nat.lt_of_lt_of_le (hbelow.waiting it hit) (hlabel d hd).1)
  steps := by
    intro n hn d hd
    rcases List.mem_append.mp hd with hd | hd
    · exact h.steps n hn d hd
    · exact Nat.lt_of_lt_of_le (hbelow.pending n hn) (hlabel d hd).1
  announced := by
    intro it hit
    rcases h.announced it hit with hp | hw
    · exact .inl hp
    · exact .inr (List.mem_append_left _ hw)

theorem Listening.Continues.writer {s : Listening} (h : s.Continues) {e : FeedEvent}
    (hok : Undisturbed s.feed e) (hann : Announced s.feed e) : (s.apply (.writer e)).Continues := by
  have hquiet : ∀ {feed : Feed}, s.feed.apply e = feed → feed.inFlight = [] → feed.received = s.feed.received →
      feed.writer.core.physicalStep = s.feed.writer.core.physicalStep → (s.apply (.writer e)).Continues := by
    intro feed heq hflight hreceived hnumber
    have happly : s.apply (.writer e) = { s with feed := feed, wire := s.wire ++ [] } := by
      show Listening.mk (s.feed.apply e) (s.wire ++ (s.feed.apply e).received.drop _) s.file = _
      rw [heq, hreceived, List.drop_length]
    rw [happly]
    exact h.send hflight h.below trivial (fun _ hd => (by cases hd)) (Nat.le_of_eq hnumber.symm)
  cases e with
  | arrive k => exact hquiet (Feed.apply_arrive h.settled k) h.settled rfl rfl
  | write ev routed order heard =>
    by_cases hend : ∃ env, ev = .endStep env
    · obtain ⟨env, rfl⟩ := hend
      rcases Feed.endStep_delivers h.settled hok with ⟨hflight, hreceived, -, hnumber⟩ |
        ⟨items, told, hitems, htold, hflight, hreceived, -, hnumber⟩
      · exact hquiet rfl hflight hreceived hnumber
      · have hsent : items ≠ [] → told = true := by
          intro hne
          obtain ⟨it, hit⟩ := List.exists_mem_of_ne_nil items hne
          rw [htold.resolve_left hne]
          exact hann (List.ne_nil_of_mem (hitems it hit).1)
        obtain ⟨hordered, hlabel⟩ := ordered_step (fun it hit => (hitems it hit).2.1) hsent
        have happly : s.apply (.writer (.write (.endStep env) routed order heard)) =
            { s with
              feed := s.feed.endStep env routed order heard
              wire := s.wire ++ (items.map .item ++ if told then [.announce s.feed.writer.core.physicalStep] else []) } := by
          show Listening.mk (s.feed.endStep env routed order heard)
            (s.wire ++ (s.feed.endStep env routed order heard).received.drop _) s.file = _
          rw [hreceived, List.drop_left]
        rw [happly]
        refine h.send hflight h.below hordered (fun d hd => ?_) (by omega)
        rw [hlabel d hd, hnumber]
        omega
    · obtain ⟨happly, hnumber⟩ := s.feed.apply_write (fun env heq => hend ⟨env, heq⟩) routed order heard
      exact hquiet happly h.settled rfl hnumber

theorem Listening.Continues.deliver {s : Listening} (h : s.Continues) : (s.apply .deliver).Continues := by
  show Listening.Continues (match s.wire with
    | [] => s
    | d :: wire => { s with wire := wire, file := s.file.arrive d })
  cases hwire : s.wire with
  | nil => exact h
  | cons d wire =>
    have hrest : ∀ d' ∈ wire, d' ∈ s.wire := fun d' hd' => by
      rw [hwire]
      exact List.mem_cons_of_mem _ hd'
    have hfirst : d ∈ s.wire := by
      rw [hwire]
      exact List.mem_cons_self
    have hordered := h.ordered
    rw [hwire] at hordered
    cases d with
    | item it =>
      obtain ⟨hann, hle, hordered⟩ := hordered
      have hwaiting : ∀ it', it' ∈ (s.file.arrive (.item it)).waiting → it' ∈ s.file.waiting ∨ it' = it := by
        intro it' hit'
        rw [show (s.file.arrive (.item it)).waiting = s.file.waiting ++ [it] from
          (List.append_assoc _ _ _).symm] at hit'
        rcases List.mem_append.mp hit' with hit' | hit'
        · exact .inl hit'
        · exact .inr (List.mem_singleton.mp hit')
      refine ⟨h.settled, ⟨fun it' hit' => ?_, h.below.pending, fun d hd => h.below.wire d (hrest d hd)⟩, hordered, ?_,
        fun n hn d hd => h.steps n hn d (hrest d hd), ?_⟩
      · rcases hwaiting it' hit' with hit' | rfl
        · exact h.below.waiting it' hit'
        · exact h.below.wire _ hfirst
      · intro it' hit' d hd
        rcases hwaiting it' hit' with hit' | rfl
        · exact h.items it' hit' d (hrest d hd)
        · exact hle d hd
      · intro it' hit'
        rcases hwaiting it' hit' with hit' | rfl
        · rcases h.announced it' hit' with hp | hw
          · exact .inl hp
          · rw [hwire] at hw
            rcases List.mem_cons.mp hw with heq | hw
            · cases heq
            · exact .inr hw
        · exact .inr hann
    | announce n =>
      obtain ⟨hlate, hordered⟩ := hordered
      refine ⟨h.settled, ⟨h.below.waiting, fun m hm => ?_, fun d hd => h.below.wire d (hrest d hd)⟩, hordered,
        fun it hit d hd => h.items it hit d (hrest d hd), fun m hm d hd => ?_, fun it hit => ?_⟩
      · rcases List.mem_append.mp hm with hm | hm
        · exact h.below.pending m hm
        · rw [List.mem_singleton.mp hm]
          exact h.below.wire _ hfirst
      · rcases List.mem_append.mp hm with hm | hm
        · exact h.steps m hm d (hrest d hd)
        · rw [List.mem_singleton.mp hm]
          exact hlate d hd
      · rcases h.announced it hit with hp | hw
        · exact .inl (List.mem_append_left _ hp)
        · rw [hwire] at hw
          rcases List.mem_cons.mp hw with heq | hw
          · cases heq
            exact .inl (List.mem_append_right _ List.mem_cons_self)
          · exact .inr hw

theorem Listening.Continues.nextStep {s : Listening} (h : s.Continues) (hahead : s.file.Ahead) :
    (s.apply (.nextStep none)).Continues := by
  cases hpending : s.file.pending with
  | nil =>
    have hsame : s.apply (.nextStep none) = s := by
      show Listening.mk s.feed s.wire (s.file.nextStep none) = s
      rw [PyFile.nextStep_idle hpending]
    rw [hsame]
    exact h
  | cons phys pending =>
    obtain ⟨hnext, hwaiting, -, -, hlater⟩ := hahead.nextStep_eq hpending
    have hless : ∀ it ∈ (s.file.nextStep none).waiting, it ∈ s.file.waiting := by
      intro it hit
      rw [hwaiting]
      exact List.mem_append_right _ hit
    have hsteps : (s.file.nextStep none).pending = pending := by rw [hnext]
    have hfewer : ∀ n ∈ (s.file.nextStep none).pending, n ∈ s.file.pending := by
      intro n hn
      rw [hsteps] at hn
      rw [hpending]
      exact List.mem_cons_of_mem _ hn
    refine ⟨h.settled, ⟨fun it hit => h.below.waiting it (hless it hit), fun n hn => h.below.pending n (hfewer n hn),
      h.below.wire⟩, h.ordered, fun it hit => h.items it (hless it hit), fun n hn => h.steps n (hfewer n hn),
      fun it hit => ?_⟩
    rcases h.announced it (hless it hit) with hp | hw
    · left
      have hlate : phys < it.label := hlater it hit
      rw [hpending] at hp
      show it.label ∈ (s.file.nextStep none).pending
      rw [hsteps]
      rcases List.mem_cons.mp hp with heq | hp
      · omega
      · exact hp
    · exact .inr hw

theorem Listening.Continues.apply {s : Listening} (h : s.Continues) (hahead : s.file.Ahead) {e : ListenEvent}
    (he : s.Orderly e) : (s.apply e).Continues := by
  cases e with
  | writer e => exact h.writer he.1 he.2
  | backfill start found told =>
    obtain ⟨hbelow, htold⟩ := he
    have hstep : ∀ k, Ordered (s.feed.backfillStep found told k) ∧
        ∀ d ∈ s.feed.backfillStep found told k, d.label = k := by
      intro k
      have hlabel : ∀ it ∈ (found k).map (fun pr => Item.mk k ((s.feed.committedBy.find? k).getD 0) pr.1 pr.2),
          it.label = k := by
        intro it hit
        obtain ⟨pr, -, rfl⟩ := List.mem_map.mp hit
        rfl
      have := @ordered_step _ (told k) _ hlabel (fun hne => htold k (fun hnil => hne (by rw [hnil]; rfl)))
      rwa [List.map_map] at this
    obtain ⟨hordered, hlabel⟩ := ordered_flatMap hstep start (s.feed.writer.core.physicalStep - start)
    refine h.send h.settled hbelow hordered (fun d hd => ?_) (Nat.le_refl _)
    have := hlabel d hd
    omega
  | join =>
    have hbelow : s.Below (s.feed.writer.core.physicalStep - 1) := he
    show Listening.Continues (match s.feed.writer.core.physicalStep with
      | 0 => s
      | n + 1 => { s with wire := s.wire ++ [Delivery.announce n] })
    cases hnumber : s.feed.writer.core.physicalStep with
    | zero => exact h
    | succ n =>
      rw [hnumber] at hbelow
      refine h.send h.settled hbelow ⟨fun _ hd => (by cases hd), trivial⟩ (fun d hd => ?_) (Nat.le_refl _)
      rw [List.mem_singleton.mp hd, hnumber]
      exact ⟨Nat.le_refl _, Nat.lt_succ_self n⟩
  | deliver => exact h.deliver
  | subscribe paths =>
    have hnone : s.file.subs = [] → s.file.waiting = [] := he
    have hfewer : ∀ n ∈ (s.file.subscribe paths).pending, n ∈ s.file.pending := by
      intro n hn
      have hn' : n ∈ (if s.file.subs = [] then [] else s.file.pending) := hn
      split at hn'
      · cases hn'
      · exact hn'
    refine ⟨h.settled, ⟨h.below.waiting, fun n hn => h.below.pending n (hfewer n hn), h.below.wire⟩, h.ordered,
      h.items, fun n hn => h.steps n (hfewer n hn), fun it hit => ?_⟩
    have hit' : it ∈ s.file.waiting := hit
    rcases h.announced it hit' with hp | hw
    · left
      show it.label ∈ (if s.file.subs = [] then [] else s.file.pending)
      split
      · rename_i hsubs
        rw [hnone hsubs] at hit'
        cases hit'
      · exact hp
    · exact .inr hw
  | nextStep fault =>
    have hfault : fault = none := he
    rw [hfault]
    exact h.nextStep hahead

theorem Listening.init_continues (config : Config) : (Listening.init config).Continues where
  settled := rfl
  below := ⟨fun _ h => (by cases h), fun _ h => (by cases h), fun _ h => (by cases h)⟩
  ordered := trivial
  items := fun _ h => (by cases h)
  steps := fun _ h => (by cases h)
  announced := fun _ h => (by cases h)

/-- An orderly writer's deliveries arrive in time, however the reader's calls fall between them. -/
theorem inTime_of_orderly (config : Config) {events : List ListenEvent}
    (h : Runs.Meets Listening.apply Listening.Orderly (.init config) events) :
    Runs.Meets Listening.apply Listening.InTime (.init config) events :=
  Runs.meets_of_inv (P := fun s : Listening => s.Continues ∧ s.file.Ahead)
    (fun _ _ hs he => ⟨hs.1.apply hs.2 he, Listening.ahead_apply hs.2 (hs.1.inTime he)⟩)
    (fun _ _ hs he => hs.1.inTime he) ⟨Listening.init_continues config, PyFile.opened_ahead⟩ h

end VolStream
