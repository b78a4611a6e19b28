import VolStream.Lib.Run
import VolStream.Space.Dataspace
import VolStream.Writer.PathIndex
import VolStream.Writer.Disposal

/-!
# What a live subscriber receives

The writer pushes from inside the replay, entry by entry, before the step is committed, and the
pushes travel on their own; `vs_tr_writer_broadcast_step_ready` waits for all of them before it
announces the step. So the subscriber has every item of a step when it hears of it, and no item of
another, unless a replay fails after some of its entries were pushed (the next step takes the same
number), or the step was spilled (it is announced when it is queued, and pushed when it is drained).

Each captured step is told apart from one that takes its number later by the `H5Fend_step` that ended
it, counted from the start.
-/

namespace VolStream

/-! ## Pushes -/

/-- A run of elements of one object: the step it is labelled with, and the `H5Fend_step` whose step
captured it. -/
structure Item where
  label : Nat
  origin : Nat
  path : Path
  run : Run
deriving DecidableEq, Repr

/-- The pushes made for an entry whose write succeeded. -/
def entryRuns (t : Datatype) (e : Entry) : List Run :=
  match e.kind with
  | .dsetWrite =>
      if t.vlKind = .none then
        match space1dBounds e.space with
        | none => []
        | some _ => (spaceFlatRuns e.space maxPushRuns).getD []
      else if 0 < e.payloadLen then
        match spaceFlatRuns e.space 1 with
        | some [run] => [run]
        | _ => []
      else []
  | .attr =>
      if e.payloadLen = 0 then []
      else if t.vlKind = .none then (space1dBounds e.space).toList
      else if 0 < e.space.npoints then [⟨0, e.space.npoints⟩]
      else []
  | _ => []

/-- The pushes of `H5VL__stream_replay_manifest`: those of every entry it got through, also when a
later one fails. -/
def replayItems (env : ReplayEnv) (args : ReplayArgs) (origin : Nat) (st : Replay) : List Item :=
  if env.startFails then []
  else
    (Outcome.completed (replayEntry env args) (replayOrder args.manifest.entries) st).flatMap fun (ie, st) =>
      match entryType st.core.replayTypeCache ie.2 with
      | none => []
      | some t => (entryRuns t ie.2).map (⟨args.manifest.physicalStep, origin, ie.2.path, ·⟩)

/-- The pushes of `H5VL__stream_drain_spill`, over the queue with the origin of each step. -/
def drainItems (env : Nat → DrainEnv) (limit : Nat) : Nat → List (SpillEntry × Nat) → Replay → List Item
  | _, [], _ => []
  | k, (q, origin) :: qs, st =>
      if q.physicalStep > limit then []
      else if (env k).readFails then []
      else
        replayItems (env k).replay q.args origin st ++
          match replayManifest (env k).replay q.args st with
          | .fail _ => []
          | .ok st => drainItems env limit (k + 1) qs st

-- the pushes of `H5VL__stream_replay_step`
def stepItems (build : BuildEnv) (env : ReplayEnv) (origin : Nat) (st : Replay) : List Item :=
  match buildManifest build st.core with
  | (_, none) => []
  | (fs, some m) => replayItems env (fs.replayArgs m) origin { st with core := fs }

/-! ## The subscriber -/

inductive Delivery where
  | item (it : Item)
  | announce (physicalStep : Nat)
deriving DecidableEq, Repr

def Delivery.label : Delivery → Nat
  | .item it => it.label
  | .announce n => n

/-- A writer and one subscriber: the `H5Fend_step`s so far, which of them committed each number and
which captured each queued step, the items on their way to the subscriber, and what it has
received. -/
structure Feed where
  writer : Writer
  ended : Nat
  committedBy : Table Nat Nat
  queuedBy : List Nat
  inFlight : List Item
  received : List Delivery

def Feed.init (config : Config) : Feed := ⟨.init config, 0, [], [], [], []⟩

/-- An event of the writer, with which pushes of it (by position) are routed to the subscriber, in
which order those under way arrive before an announcement, and whether the announcement is sent to
it; or the arrival of an item that is under way. -/
inductive FeedEvent where
  | write (ev : Event) (routed : Nat → Bool) (order : List Nat) (heard : Bool)
  | arrive (k : Nat)

/-- Items arriving in the order given by successive positions, the rest as they were sent. -/
def settle {α : Type} : List Nat → List α → List α
  | [], pool => pool
  | k :: ks, pool =>
      match pool[k]? with
      | none => settle ks pool
      | some a => a :: settle ks (pool.eraseIdx k)

/-- What the drain of queued steps pushes. -/
def Feed.drainedItems (s : Feed) (env : EndEnv) : List Item :=
  let fs := s.writer.core.folded env
  if fs.activePolicy.isSome && (fs.config.haveBake && !fs.pendingSpill.isEmpty) then
    drainItems env.drain ((env.lagDrain.getD fs.physicalStep + fs.reserveSlots) % 2 ^ 64) 0
      (fs.pendingSpill.zip s.queuedBy) ⟨fs, [], s.writer.lookups⟩
  else []

/-- What the replay of the step itself pushes. -/
def Feed.ownItems (s : Feed) (env : EndEnv) : List Item :=
  let st := s.writer.afterDrain env
  match (s.writer.core.folded env).fate env.lag with
  | .replay => stepItems env.build env.replay s.ended st
  | .drop => []
  | .spill =>
      match spillStep env.spill st.core with
      | .ok _ => []
      | .fail fs => stepItems env.build env.replay s.ended { st with core := fs }

/-- The pushes of one `H5Fend_step`. -/
def Feed.pushes (s : Feed) (env : EndEnv) : List Item :=
  if s.writer.core.stepState = .inStep ∧ s.writer.core.config.transport then
    s.drainedItems env ++ s.ownItems env
  else []

-- those routed to the subscriber
def Feed.sends (s : Feed) (env : EndEnv) (routed : Nat → Bool) : List Item :=
  ((s.pushes env).zipIdx.filter fun p => routed p.2).map (·.1)

/-- `H5Fend_step`: pushes leave during the replay; a commit waits for what is under way and announces
the step. -/
def Feed.endStep (s : Feed) (env : EndEnv) (routed : Nat → Bool) (order : List Nat) (heard : Bool) : Feed :=
  let n := s.writer.core.physicalStep
  let inFlight := s.inFlight ++ s.sends env routed
  let queuedBy := s.queuedBy.drop (s.writer.drains env).length
  if s.writer.core.stepState ≠ .inStep then s
  else match VolStream.endStep env s.writer with
    | .fail w => { s with writer := w, ended := s.ended + 1, queuedBy := queuedBy, inFlight := inFlight }
    | .ok w =>
        let s' : Feed :=
          { s with
            writer := w, ended := s.ended + 1, committedBy := s.committedBy.set n s.ended
            queuedBy := if s.writer.disposal env = .spill then queuedBy ++ [s.ended] else queuedBy }
        if s.writer.core.config.transport then
          { s' with
            inFlight := []
            received := s.received ++ ((settle order inFlight).map .item ++ if heard then [.announce n] else []) }
        else { s' with inFlight := inFlight }

def Feed.apply (s : Feed) : FeedEvent → Feed
  | .write (.endStep env) routed order heard => s.endStep env routed order heard
  | .write ev _ _ _ => { s with writer := (s.writer.apply ev).state }
  | .arrive k =>
      match s.inFlight[k]? with
      | none => s
      | some it => { s with inFlight := s.inFlight.eraseIdx k, received := s.received ++ [.item it] }

/-- What may come later: nothing of an earlier step, and after an announcement nothing of the step
announced. -/
def Delivery.Before : Delivery → Delivery → Prop
  | .item it, d => it.label ≤ d.label
  | .announce n, d => n < d.label

instance : (a b : Delivery) → Decidable (a.Before b)
  | .item it, d => inferInstanceAs (Decidable (it.label ≤ d.label))
  | .announce n, d => inferInstanceAs (Decidable (n < d.label))

/-- Every item received was captured by the step that committed under its label, all items of a step
come before its announcement, and steps do not interleave. -/
def Feed.InOrder (s : Feed) : Prop :=
  (∀ it, .item it ∈ s.received → s.committedBy.find? it.label = some it.origin)
    ∧ s.received.Pairwise Delivery.Before

/-! ## The subscriber's condition -/

/-- A drain pushes nothing to the subscriber, and an `H5Fend_step` that fails has pushed nothing to it
by then. -/
def Undisturbed (s : Feed) : FeedEvent → Prop
  | .write (.endStep env) routed _ _ =>
      (∀ i < (s.drainedItems env).length, routed i = false)
        ∧ ((endStep env s.writer).isOk = false → ∀ i < (s.pushes env).length, routed i = false)
  | _ => True

/-! ### What is pushed -/

theorem settle_perm {α : Type} (order : List Nat) (pool : List α) : (settle order pool).Perm pool := by
  induction order generalizing pool with
  | nil => exact .refl _
  | cons k ks ih =>
    unfold settle
    split
    · exact ih pool
    · rename_i a ha
      obtain ⟨hk, rfl⟩ := List.getElem?_eq_some_iff.mp ha
      exact ((ih _).cons _).trans (List.getElem_cons_eraseIdx_perm hk)

theorem mem_replayItems {env : ReplayEnv} {args : ReplayArgs} {origin : Nat} {st : Replay} {it : Item}
    (h : it ∈ replayItems env args origin st) :
    it.label = args.manifest.physicalStep ∧ it.origin = origin := by
  unfold replayItems at h
  split at h
  · cases h
  · obtain ⟨⟨ie, s⟩, -, h⟩ := List.mem_flatMap.mp h
    simp only at h
    split at h
    · cases h
    · obtain ⟨run, -, rfl⟩ := List.mem_map.mp h
      exact ⟨rfl, rfl⟩

theorem mem_stepItems {build : BuildEnv} {env : ReplayEnv} {origin : Nat} {st : Replay} {it : Item}
    (h : it ∈ stepItems build env origin st) : it.label = st.core.physicalStep ∧ it.origin = origin := by
  unfold stepItems at h
  split at h
  · cases h
  · rename_i fs m hbuild
    obtain ⟨hlabel, horigin⟩ := mem_replayItems h
    obtain ⟨w, -, hm⟩ := buildManifest_eq hbuild
    exact ⟨hlabel.trans (hm m rfl).1, horigin⟩

/-- The replay of the step itself labels its items with the number it may commit under. -/
theorem Feed.mem_ownItems {s : Feed} {env : EndEnv} {it : Item} (h : it ∈ s.ownItems env) :
    it.label = s.writer.core.physicalStep ∧ it.origin = s.ended := by
  have hnumber := s.writer.afterDrain_physicalStep env
  unfold Feed.ownItems at h
  simp only at h
  split at h
  · obtain ⟨hlabel, horigin⟩ := mem_stepItems h
    exact ⟨hlabel.trans hnumber, horigin⟩
  · cases h
  · rcases spillStep_eq env.spill (s.writer.afterDrain env).core with ⟨_, _, _, hspill, -, -, -⟩ | ⟨_, _, hspill, -⟩
    · rw [hspill] at h
      cases h
    · rw [hspill] at h
      obtain ⟨hlabel, horigin⟩ := mem_stepItems h
      exact ⟨hlabel.trans hnumber, horigin⟩

theorem Feed.mem_sends {s : Feed} {env : EndEnv} {routed : Nat → Bool} {it : Item}
    (h : it ∈ s.sends env routed) : ∃ i, (s.pushes env)[i]? = some it ∧ routed i = true := by
  obtain ⟨⟨it', i⟩, hmem, rfl⟩ := List.mem_map.mp h
  obtain ⟨hzip, hrouted⟩ := List.mem_filter.mp hmem
  exact ⟨i, List.mem_zipIdx_iff_getElem?.mp hzip, hrouted⟩

/-- Undisturbed, a step sends the subscriber its own items only. -/
theorem Feed.mem_sends_own {s : Feed} {env : EndEnv} {routed : Nat → Bool} {it : Item}
    (hdrain : ∀ i < (s.drainedItems env).length, routed i = false) (h : it ∈ s.sends env routed) :
    it ∈ s.ownItems env := by
  obtain ⟨i, hget, hrouted⟩ := s.mem_sends h
  have hpushes : s.pushes env = s.drainedItems env ++ s.ownItems env := by
    unfold Feed.pushes at hget ⊢
    split at hget
    · rename_i hin
      rw [if_pos hin]
    · cases hget
  have hlate : (s.drainedItems env).length ≤ i := by
    by_contra hlt
    rw [hdrain i (by omega)] at hrouted
    cases hrouted
  rw [hpushes, List.getElem?_append_right hlate] at hget
  exact List.mem_of_getElem? hget

theorem Feed.sends_eq_nil {s : Feed} {env : EndEnv} {routed : Nat → Bool}
    (h : ∀ i < (s.pushes env).length, routed i = false) : s.sends env routed = [] := by
  rw [List.eq_nil_iff_forall_not_mem]
  intro it hit
  obtain ⟨i, hget, hrouted⟩ := s.mem_sends hit
  obtain ⟨hlt, -⟩ := List.getElem?_eq_some_iff.mp hget
  rw [h i hlt] at hrouted
  cases hrouted

/-! ### What is received -/

/-- Between events nothing is under way, and what was received belongs to committed steps. -/
structure FeedInv (s : Feed) : Prop where
  settled : s.inFlight = []
  inOrder : s.InOrder
  past : ∀ d ∈ s.received, d.label < s.writer.core.physicalStep

theorem Feed.init_inv (config : Config) : FeedInv (.init config) where
  settled := rfl
  inOrder := ⟨fun _ h => (by cases h), .nil⟩
  past := fun _ h => (by cases h)

-- the subscriber's side is untouched and the writer is no further back
theorem FeedInv.keep {s s' : Feed} (h : FeedInv s) (hflight : s'.inFlight = s.inFlight)
    (hreceived : s'.received = s.received) (hby : s'.committedBy = s.committedBy)
    (hnumber : s'.writer.core.physicalStep = s.writer.core.physicalStep) : FeedInv s' where
  settled := hflight.trans h.settled
  inOrder := by
    unfold Feed.InOrder
    rw [hreceived, hby]
    exact h.inOrder
  past := by
    rw [hreceived, hnumber]
    exact h.past

/-- The items of one step and then its announcement, after older steps, are in order. -/
theorem pairwise_deliver {received : List Delivery} {items : List Item} {closing : List Delivery} {n : Nat}
    (h : received.Pairwise Delivery.Before) (hpast : ∀ d ∈ received, d.label < n)
    (hitems : ∀ it ∈ items, it.label = n) (hclosing : closing = [] ∨ closing = [.announce n]) :
    (received ++ (items.map Delivery.item ++ closing)).Pairwise Delivery.Before := by
  have hnew : ∀ d ∈ items.map Delivery.item ++ closing, d.label = n := by
    intro d hd
    rcases List.mem_append.mp hd with hd | hd
    · obtain ⟨it, hit, rfl⟩ := List.mem_map.mp hd
      exact hitems it hit
    · rcases hclosing with rfl | rfl
      · cases hd
      · rw [List.mem_singleton.mp hd]
        rfl
  rw [List.pairwise_append]
  refine ⟨h, ?_, ?_⟩
  · rw [List.pairwise_append]
    refine ⟨?_, ?_, ?_⟩
    · rw [List.pairwise_map]
      refine List.pairwise_of_forall_mem_list (fun a ha b hb => ?_)
      show a.label ≤ b.label
      rw [hitems a ha, hitems b hb]
    · rcases hclosing with rfl | rfl
      · exact .nil
      · exact List.pairwise_singleton _ _
    · intro a ha b hb
      obtain ⟨it, hit, rfl⟩ := List.mem_map.mp ha
      show it.label ≤ b.label
      rw [hitems it hit, hnew b (List.mem_append_right _ hb)]
  · intro a ha b hb
    have hlt := hpast a ha
    rw [← hnew b hb] at hlt
    cases a with
    | item it =>
      show it.label ≤ b.label
      exact Nat.le_of_lt hlt
    | announce m => exact hlt

/-- A commit adds the step's items, in whatever order, and then its announcement. -/
theorem FeedInv.commit {s s' : Feed} (h : FeedInv s) (items : List Item) (heard : Bool)
    (hitems : ∀ it ∈ items, it.label = s.writer.core.physicalStep ∧ it.origin = s.ended)
    (hflight : s'.inFlight = [])
    (hreceived : s'.received = s.received ++
      (items.map .item ++ if heard then [.announce s.writer.core.physicalStep] else []))
    (hby : s'.committedBy = s.committedBy.set s.writer.core.physicalStep s.ended)
    (hnumber : s'.writer.core.physicalStep = s.writer.core.physicalStep + 1) : FeedInv s' := by
  have hclosing : (if heard then [Delivery.announce s.writer.core.physicalStep] else []) = [] ∨
      (if heard then [Delivery.announce s.writer.core.physicalStep] else [])
        = [.announce s.writer.core.physicalStep] := by
    cases heard with
    | true => exact .inr rfl
    | false => exact .inl rfl
  generalize (if heard then [Delivery.announce s.writer.core.physicalStep] else []) = closing
    at hreceived hclosing
  refine ⟨hflight, ⟨?_, ?_⟩, ?_⟩
  · intro it hit
    rw [hreceived, List.mem_append, List.mem_append] at hit
    rw [hby, Table.find?_set]
    rcases hit with hit | hit | hit
    · -- an older step keeps who committed it
      have hold : it.label < s.writer.core.physicalStep := h.past _ hit
      rw [if_neg (Nat.ne_of_gt hold)]
      exact h.inOrder.1 it hit
    · obtain ⟨it', hit', heq⟩ := List.mem_map.mp hit
      cases heq
      obtain ⟨hlabel, horigin⟩ := hitems it hit'
      rw [if_pos hlabel.symm, horigin]
    · rcases hclosing with rfl | rfl
      · cases hit
      · cases List.mem_singleton.mp hit
  · rw [hreceived]
    exact pairwise_deliver h.inOrder.2 h.past (fun it hit => (hitems it hit).1) hclosing
  · intro d hd
    rw [hreceived, List.mem_append, List.mem_append] at hd
    rw [hnumber]
    rcases hd with hd | hd | hd
    · exact Nat.lt_succ_of_lt (h.past d hd)
    · obtain ⟨it, hit, rfl⟩ := List.mem_map.mp hd
      exact Nat.lt_succ_of_le (Nat.le_of_eq (hitems it hit).1)
    · rcases hclosing with rfl | rfl
      · cases hd
      · rw [List.mem_singleton.mp hd]
        exact Nat.lt_succ_self _

/-- What an undisturbed `H5Fend_step` does to the subscriber's side: nothing, or it delivers items of the step
that commits and then announces it. -/
theorem Feed.endStep_delivers {s : Feed} (hflight : s.inFlight = []) {env : EndEnv} {routed : Nat → Bool}
    {order : List Nat} {heard : Bool} (hok : Undisturbed s (.write (.endStep env) routed order heard)) :
    ((s.endStep env routed order heard).inFlight = [] ∧ (s.endStep env routed order heard).received = s.received ∧
      (s.endStep env routed order heard).committedBy = s.committedBy ∧
      (s.endStep env routed order heard).writer.core.physicalStep = s.writer.core.physicalStep) ∨
    ∃ items told, (∀ it ∈ items, it ∈ s.sends env routed ∧ it.label = s.writer.core.physicalStep ∧
        it.origin = s.ended) ∧ (items = [] ∨ told = heard) ∧
      (s.endStep env routed order heard).inFlight = [] ∧
      (s.endStep env routed order heard).received = s.received ++
        (items.map .item ++ if told then [.announce s.writer.core.physicalStep] else []) ∧
      (s.endStep env routed order heard).committedBy = s.committedBy.set s.writer.core.physicalStep s.ended ∧
      (s.endStep env routed order heard).writer.core.physicalStep = s.writer.core.physicalStep + 1 := by
  obtain ⟨hdrain, hfail⟩ := hok
  unfold Feed.endStep
  simp only
  split
  · exact .inl ⟨hflight, rfl, rfl, rfl⟩
  · rename_i hin
    rcases endStep_cases env s.writer with ⟨hout, -⟩ | ⟨w', hend, hended⟩ | ⟨w', hend, habandoned⟩
    · exact absurd hout hin
    · rw [hend]
      simp only
      have hnumber : w'.core.physicalStep = s.writer.core.physicalStep + 1 := hended.number
      split
      · refine .inr ⟨settle order (s.inFlight ++ s.sends env routed), heard, ?_, .inr rfl, rfl, rfl, rfl, hnumber⟩
        intro it hit
        rw [hflight, List.nil_append] at hit
        have hsent := (settle_perm _ _).mem_iff.mp hit
        exact ⟨hsent, Feed.mem_ownItems (s.mem_sends_own hdrain hsent)⟩
      · -- without a transport nothing is pushed
        rename_i htransport
        have hpushes : s.pushes env = [] := if_neg (fun hc => htransport hc.2)
        have hsends : s.sends env routed = [] := by
          unfold Feed.sends
          rw [hpushes]
          rfl
        refine .inr ⟨[], false, fun _ hit => (by cases hit), .inl rfl, ?_, (List.append_nil _).symm, rfl, hnumber⟩
        show s.inFlight ++ s.sends env routed = []
        rw [hflight, hsends]
        rfl
    · rw [hend]
      have hsends := s.sends_eq_nil (hfail (by rw [hend]; rfl))
      refine .inl ⟨?_, rfl, rfl, habandoned.number⟩
      show s.inFlight ++ s.sends env routed = []
      rw [hsends, hflight]
      rfl

/-- Any other event of the writer changes nothing on the subscriber's side. -/
theorem Feed.apply_write (s : Feed) {ev : Event} (hne : ∀ env, ev ≠ .endStep env) (routed : Nat → Bool)
    (order : List Nat) (heard : Bool) :
    s.apply (.write ev routed order heard) = { s with writer := (s.writer.apply ev).state } ∧
      (s.writer.apply ev).state.core.physicalStep = s.writer.core.physicalStep := by
  have hcommitted := congrArg Core.physicalStep (committed_apply s.writer hne).1
  refine ⟨?_, hcommitted⟩
  cases ev with
  | endStep env => exact absurd rfl (hne env)
  | _ => rfl

theorem Feed.apply_arrive {s : Feed} (hflight : s.inFlight = []) (k : Nat) : s.apply (.arrive k) = s := by
  show (match s.inFlight[k]? with | none => s | some _ => _) = s
  rw [hflight]
  rfl

theorem FeedInv.endStep {s : Feed} (h : FeedInv s) (env : EndEnv) (routed : Nat → Bool) (order : List Nat)
    (heard : Bool) (hok : Undisturbed s (.write (.endStep env) routed order heard)) :
    FeedInv (s.endStep env routed order heard) := by
  rcases Feed.endStep_delivers h.settled hok with ⟨hflight, hreceived, hby, hnumber⟩ |
    ⟨items, told, hitems, -, hflight, hreceived, hby, hnumber⟩
  · exact h.keep (hflight.trans h.settled.symm) hreceived hby hnumber
  · exact h.commit items told (fun it hit => (hitems it hit).2) hflight hreceived hby hnumber

theorem FeedInv.apply {s : Feed} (h : FeedInv s) (e : FeedEvent) (hok : Undisturbed s e) : FeedInv (s.apply e) := by
  cases e with
  | arrive k =>
    rw [Feed.apply_arrive h.settled]
    exact h
  | write ev routed order heard =>
    by_cases hend : ∃ env, ev = .endStep env
    · obtain ⟨env, rfl⟩ := hend
      exact h.endStep env routed order heard hok
    · obtain ⟨happly, hnumber⟩ := s.apply_write (fun env heq => hend ⟨env, heq⟩) routed order heard
      rw [happly]
      exact h.keep rfl rfl rfl hnumber

/-- In a run in which drains push nothing to the subscriber and a failing `H5Fend_step` has pushed
nothing to it, every item was captured by the step that committed under its label, it comes before
that step's announcement, and steps do not interleave. -/
theorem delivered_in_order (config : Config) (events : List FeedEvent)
    (h : Runs.Meets Feed.apply Undisturbed (.init config) events) :
    (Runs.run Feed.apply (.init config) events).InOrder := by
  have hinv : FeedInv (Runs.run Feed.apply (.init config) events) :=
    Runs.run_inv (fun s e hs hok => hs.apply e hok) (Feed.init_inv config) h
  exact hinv.inOrder

/-- A subscriber that every push and every announcement reaches. -/
def FeedEvent.toAll (ev : Event) : FeedEvent := .write ev (fun _ => true) [] true

/-- A step writes `/a` and creates it once more, which fails; the next step creates `/b` and commits
under the same number. -/
def retriedRun : List FeedEvent :=
  [.beginStep [] 0, createByte 0 ['a'], writeByte 0, createByte 1 ['a'], .endStep (.createFails 2),
    .beginStep [] 0, createByte 2 ['b'], .endStep .quiet].map .toAll

/-- The value the failed step wrote is delivered as step 0's. -/
theorem retriedRun_not_in_order :
    ¬ ∀ config events, (Runs.run Feed.apply (.init config) events).InOrder := by
  intro h
  have hreceived : (Runs.run Feed.apply (.init .staging) retriedRun).received
      = [.item ⟨0, 0, ['/', 'a'], ⟨0, 1⟩⟩, .announce 0] := by decide
  have hby : (Runs.run Feed.apply (.init .staging) retriedRun).committedBy = [(0, 1)] := by decide
  have hitem := (h .staging retriedRun).1 ⟨0, 0, ['/', 'a'], ⟨0, 1⟩⟩ (by rw [hreceived]; decide)
  rw [hby] at hitem
  exact absurd hitem (by decide)

/-- A step fails at its first entry; the next is written; one without data is spilled, and drained by
the last, which is written. -/
def steadyRun : List FeedEvent :=
  [.setQueuePolicy .spill 0,
    .beginStep [] 0, createByte 0 ['a'], .endStep (.createFails 0),
    .beginStep [] 0, createByte 1 ['a'], writeByte 1, .closeHandle 1, .endStep .lagging,
    .beginStep [] 1, createByte 2 ['b'], .closeHandle 2, .endStep .lagging,
    .beginStep [] 2, createByte 3 ['a'], writeByte 3, .endStep .quiet].map .toAll

theorem steadyRun_in_order :
    (Runs.run Feed.apply (.init .staging) steadyRun).received
        = [.item ⟨0, 1, ['/', 'a'], ⟨0, 1⟩⟩, .announce 0, .announce 1,
          .item ⟨2, 3, ['/', 'a'], ⟨0, 1⟩⟩, .announce 2]
      ∧ (Runs.run Feed.apply (.init .staging) steadyRun).InOrder := by
  have hquiet : ∀ {s : Feed} {env : EndEnv}, (s.drainedItems env).length = 0 →
      ((endStep env s.writer).isOk = false → (s.pushes env).length = 0) → Undisturbed s (.toAll (.endStep env)) := by
    intro s env hdrain hfail
    refine ⟨fun i hi => ?_, fun hno i hi => ?_⟩
    · omega
    · have := hfail hno
      omega
  refine ⟨by decide, delivered_in_order .staging steadyRun ?_⟩
  refine ⟨trivial, trivial, trivial, hquiet (by decide) (by decide), trivial, trivial, trivial, trivial,
    hquiet (by decide) (by decide), trivial, trivial, trivial, hquiet (by decide) (by decide), trivial, trivial,
    trivial, hquiet (by decide) (by decide), trivial⟩

end VolStream
