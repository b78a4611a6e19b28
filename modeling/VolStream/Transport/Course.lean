import VolStream.Transport.Backfill

/-!
# The course of a backfilled call

From its first request on, a call waits to be served, is served step by step, and then goes on live.
`Server.OnCourse` says where a call is on this course and what its member has been told by then; every
event keeps it, whoever it comes from and wherever the writer is.
-/

namespace VolStream

/-! ## Where a call is -/

/-- The members the announcement in hand has not reached yet. -/
def WriterAt.unreached : WriterAt → List MemberId
  | .announcing rest => rest
  | .forwarding m rest => m :: rest
  | _ => []

-- committed steps the broadcast still owes `r`
def Server.owed (s : Server) (r : MemberId) : Nat := if r ∈ s.writer.unreached then 1 else 0

/-- The paths written by the step `r` is to be told next: the one being replayed, or the one being
announced. -/
def Server.inHand (s : Server) (r : MemberId) : List Path :=
  match s.writer with
  | .replaying => s.current
  | _ => if r ∈ s.writer.unreached then s.steps.getLast?.getD [] else []

section Course

variable (r : MemberId) (start : Nat) (requested : List Path)

/-- Staged, or released and not served yet: the writer sends nothing. -/
structure Server.Waiting (released : Bool) (s : Server) (n : Nat) : Prop where
  none_told : n = 0
  waits : s.backfilling r
  entries : ∀ e ∈ s.subs, e.member = r → e.backfill ≠ .live →
    e.backfillFrom = start ∧ e.backfill = if released then .released else .staged
  paths : ∀ path ∈ requested, ∃ e ∈ s.subs, e.member = r ∧ e.path = path ∧ e.backfill ≠ .live
  elsewhere : ∀ paths k next rest, s.writer ≠ .serving r paths k next ∧ s.writer ≠ .forwarding r rest

/-- Nothing of `r` waits, and what it asked for is subscribed. -/
structure Server.Live (s : Server) : Prop where
  live : s.backfilling r = false
  paths : ∀ path ∈ requested, ∃ e ∈ s.subs, e.member = r ∧ e.path = path

/-- Being served, `n` steps so far. -/
def Server.Serving (s : Server) (n : Nat) : Prop :=
  s.Live r requested ∧ start + n ≤ s.steps.length ∧
    ∃ paths next, requested ⊆ paths ∧ s.writer = .serving r paths (start + n) next

/-- Served: told every committed step but the one being announced. -/
structure Server.Served (s : Server) (n : Nat) (received : List Message) : Prop where
  isLive : s.Live r requested
  elsewhere : ∀ paths k next, s.writer ≠ .serving r paths k next
  upToDate : start + n + s.owed r = s.steps.length
  items : ∀ path ∈ requested, path ∈ s.inHand r → .items (start + n) path ∈ received

/-- The course of the call of `r`, `since` which `r` was sent what it received. -/
structure Server.OnCourse (since : Nat) (released : Bool) (s : Server) (n : Nat) : Prop where
  nodup : s.members.Nodup
  unreached : s.writer.unreached.Nodup
  member : r ∈ s.members
  since_le : since ≤ s.sent.length
  told : Told start s.steps requested n (s.received r since)
  phase : s.Waiting r start requested released n ∨
    (released = true ∧ s.Serving r start requested n) ∨
    (released = true ∧ s.Served r start requested n (s.received r since))

end Course

section Steps

variable {r : MemberId} {start since n : Nat} {requested : List Path} {released : Bool} {s : Server}

theorem Server.not_backfilling_iff (s : Server) (r : MemberId) :
    s.backfilling r = false ↔ ∀ e ∈ s.subs, e.member = r → e.backfill = .live := by
  unfold Server.backfilling
  rw [List.any_eq_false]
  refine forall₂_congr (fun e _ => ?_)
  simp

theorem Server.backfilling_iff (s : Server) (r : MemberId) :
    s.backfilling r ↔ ∃ e ∈ s.subs, e.member = r ∧ e.backfill ≠ .live := by
  unfold Server.backfilling
  simp

/-! ### What is sent -/

/-- A message to a member appends to what was sent, and to what `r` received if it is `r`. -/
theorem exists_send (s : Server) (r m : MemberId) (messages : List Message) {since : Nat}
    (h : since ≤ s.sent.length) (hr : r ∈ s.members) :
    ∃ sent, s.send m messages = { s with sent := sent } ∧ since ≤ sent.length ∧
      { s with sent := sent }.received r since = s.received r since ++ if m = r then messages else [] := by
  unfold Server.send Server.received
  split
  · refine ⟨_, rfl, ?_, ?_⟩
    · rw [List.length_append]
      omega
    · simp only
      rw [List.drop_append_of_le_length h, List.filter_append, List.map_append]
      congr 1
      rw [List.filter_map, List.map_map]
      by_cases hmr : m = r
      · have hall : messages.filter ((fun x : MemberId × Message => decide (x.1 = r)) ∘ fun x => (m, x)) = messages :=
          List.filter_eq_self.mpr (fun _ _ => by simpa using hmr)
        rw [if_pos hmr, hall]
        exact List.map_id messages
      · have hnone : messages.filter ((fun x : MemberId × Message => decide (x.1 = r)) ∘ fun x => (m, x)) = [] :=
          List.filter_eq_nil_iff.mpr (fun _ _ => by simpa using hmr)
        rw [if_neg hmr, hnone]
        rfl
  · rename_i hm
    have hne : m ≠ r := by
      rintro rfl
      exact hm hr
    refine ⟨s.sent, rfl, h, ?_⟩
    rw [if_neg hne, List.append_nil]

/-- A push sends `r` the items once for each of its live subscriptions of the path. -/
theorem exists_pushLive (s : Server) (r : MemberId) (path : Path) {since : Nat} (h : since ≤ s.sent.length)
    (hr : r ∈ s.members) :
    ∃ sent, s.pushLive path = { s with sent := sent } ∧ since ≤ sent.length ∧
      ∃ paths : List Path, { s with sent := sent }.received r since
        = s.received r since ++ paths.map (.items s.steps.length) ∧
      ((∃ e ∈ s.subs, e.member = r ∧ e.path = path ∧ e.backfill = .live) → path ∈ paths) := by
  refine ⟨_, rfl, ?_, ((s.subs.filter fun e => e.path = path ∧ e.backfill = .live ∧ e.member ∈ s.members).filter
    fun e => e.member = r).map fun _ => path, ?_, ?_⟩
  · rw [List.length_append]
    omega
  · unfold Server.received
    simp only
    rw [List.drop_append_of_le_length h, List.filter_append, List.map_append]
    congr 1
    rw [List.filter_map, List.map_map, List.map_map]
    rfl
  · rintro ⟨e, he, hmember, hpath, hlive⟩
    refine List.mem_map.mpr ⟨e, List.mem_filter.mpr ⟨List.mem_filter.mpr ⟨he, ?_⟩, ?_⟩, rfl⟩
    · simpa [hpath, hlive, hmember] using hr
    · simpa using hmember

/-! ### The requests -/

/-- The table changed for others than `r`, or by a live subscription of `r`. -/
structure SameFor (r : MemberId) (subs subs' : List SubEntry) : Prop where
  kept : ∀ e ∈ subs, e.member = r → e ∈ subs'
  new : ∀ e ∈ subs', e.member = r → e ∈ subs ∨ e.backfill = .live

theorem Server.Live.sameFor {subs' : List SubEntry} (h : s.Live r requested) (hsame : SameFor r s.subs subs') :
    { s with subs := subs' }.Live r requested := by
  refine ⟨?_, ?_⟩
  · rw [Server.not_backfilling_iff]
    intro e he hmember
    rcases hsame.new e he hmember with hold | hlive
    · exact (s.not_backfilling_iff r).mp h.live e hold hmember
    · exact hlive
  · intro path hpath
    obtain ⟨e, he, hmember, hep⟩ := h.paths path hpath
    exact ⟨e, hsame.kept e he hmember, hmember, hep⟩

theorem Server.Waiting.sameFor {subs' : List SubEntry} (h : s.Waiting r start requested released n)
    (hsame : SameFor r s.subs subs') : { s with subs := subs' }.Waiting r start requested released n := by
  refine ⟨h.none_told, ?_, ?_, ?_, h.elsewhere⟩
  · obtain ⟨e, he, hmember, hwaits⟩ := (s.backfilling_iff r).mp h.waits
    exact (Server.backfilling_iff _ r).mpr ⟨e, hsame.kept e he hmember, hmember, hwaits⟩
  · intro e he hmember hwaits
    rcases hsame.new e he hmember with hold | hlive
    · exact h.entries e hold hmember hwaits
    · exact absurd hlive hwaits
  · intro path hpath
    obtain ⟨e, he, hmember, hep, hwaits⟩ := h.paths path hpath
    exact ⟨e, hsame.kept e he hmember, hmember, hep, hwaits⟩

theorem Server.OnCourse.sameFor {subs' : List SubEntry} (h : s.OnCourse r start requested since released n)
    (hsame : SameFor r s.subs subs') : { s with subs := subs' }.OnCourse r start requested since released n := by
  refine ⟨h.nodup, h.unreached, h.member, h.since_le, h.told, ?_⟩
  rcases h.phase with hwaiting | ⟨hrel, hlive, hserving⟩ | ⟨hrel, hserved⟩
  · exact .inl (hwaiting.sameFor hsame)
  · exact .inr (.inl ⟨hrel, hlive.sameFor hsame, hserving⟩)
  · exact .inr (.inr ⟨hrel, hserved.isLive.sameFor hsame, hserved.elsewhere, hserved.upToDate, hserved.items⟩)

-- a map over the table that leaves the entries of `r`
theorem sameFor_map {f : SubEntry → SubEntry} (hf : ∀ e, e.member = r → f e = e)
    (hmember : ∀ e, (f e).member = e.member) (subs : List SubEntry) : SameFor r subs (subs.map f) := by
  refine ⟨fun e he hr => List.mem_map.mpr ⟨e, he, hf e hr⟩, ?_⟩
  intro e he hr
  obtain ⟨e', he', rfl⟩ := List.mem_map.mp he
  rw [hmember] at hr
  rw [hf e' hr]
  exact .inl he'

theorem SubEntry.stage_member (e : SubEntry) (start : Option Nat) : (e.stage start).member = e.member := by
  cases start with
  | none => rfl
  | some n => rfl

theorem sameFor_subscribe (s : Server) {m : MemberId} {path : Path} {from' : Option Nat} {stored : Bool}
    (h : m ≠ r ∨ from' = none) : SameFor r s.subs (s.subscribe m path from' stored).subs := by
  unfold Server.subscribe
  split
  · refine sameFor_map ?_ ?_ s.subs
    · intro e he
      split
      · rename_i hsame
        rcases h with hne | rfl
        · exact absurd (hsame.1.symm.trans he) hne
        · rfl
      · rfl
    · intro e
      split
      · exact e.stage_member from'
      · rfl
  · split
    · refine ⟨fun e he _ => List.mem_append_left _ he, ?_⟩
      intro e he hmember
      rcases List.mem_append.mp he with he | he
      · exact .inl he
      · rw [List.mem_singleton.mp he] at hmember ⊢
        rcases h with hne | rfl
        · rw [SubEntry.stage_member] at hmember
          exact absurd hmember hne
        · exact .inr rfl
    · exact ⟨fun e he _ => he, fun e he _ => .inl he⟩

theorem Server.subscribe_eq (s : Server) (m : MemberId) (path : Path) (from' : Option Nat) (stored : Bool) :
    s.subscribe m path from' stored = { s with subs := (s.subscribe m path from' stored).subs } := by
  unfold Server.subscribe
  split
  · rfl
  · split <;> rfl

/-- A request that is stored leaves an entry that waits. -/
theorem Server.exists_staged (s : Server) (r : MemberId) (path : Path) (start : Nat) :
    ∃ e ∈ (s.subscribe r path (some start) true).subs, e.member = r ∧ e.path = path ∧ e.backfill ≠ .live := by
  unfold Server.subscribe
  split
  · rename_i hany
    obtain ⟨e, he, hep⟩ := List.any_eq_true.mp hany
    have hep : e.member = r ∧ e.path = path := by simpa using hep
    refine ⟨e.stage (some start), List.mem_map.mpr ⟨e, he, if_pos hep⟩, hep.1, hep.2, ?_⟩
    exact fun hf => by cases hf
  · exact ⟨_, List.mem_append_right _ List.mem_cons_self, rfl, rfl, fun hf => by cases hf⟩

/-- An entry of `r` that waits is an old one, or the one staged now. -/
theorem Server.entries_staged (s : Server) {r : MemberId} (path : Path) (start : Nat)
    (h : ∀ e ∈ s.subs, e.member = r → e.backfill ≠ .live → e.backfillFrom = start ∧ e.backfill = .staged) :
    ∀ e ∈ (s.subscribe r path (some start) true).subs, e.member = r → e.backfill ≠ .live →
      e.backfillFrom = start ∧ e.backfill = .staged := by
  unfold Server.subscribe
  split
  · intro e he hmember hwaits
    obtain ⟨e', he', rfl⟩ := List.mem_map.mp he
    split at hmember
    · rename_i hep
      rw [if_pos hep]
      exact ⟨rfl, rfl⟩
    · rename_i hep
      rw [if_neg hep] at hwaits ⊢
      exact h e' he' hmember hwaits
  · intro e he hmember hwaits
    rcases List.mem_append.mp he with he | he
    · exact h e he hmember hwaits
    · rw [List.mem_singleton.mp he]
      exact ⟨rfl, rfl⟩

/-- A further request of the call, before its release. -/
theorem Server.OnCourse.stage (h : s.OnCourse r start requested since false n) (path : Path) :
    (s.subscribe r path (some start) true).OnCourse r start (requested ++ [path]) since false n := by
  have hwaiting : s.Waiting r start requested false n := by
    rcases h.phase with hwaiting | ⟨hrel, -⟩ | ⟨hrel, -⟩
    · exact hwaiting
    · cases hrel
    · cases hrel
  obtain rfl := hwaiting.none_told
  have hsubs := s.exists_staged r path start
  have hentries := s.entries_staged path start hwaiting.entries
  have hkept : ∀ e ∈ s.subs, e.member = r → e.backfill ≠ .live →
      ∃ e' ∈ (s.subscribe r path (some start) true).subs, e'.member = r ∧ e'.path = e.path ∧
        e'.backfill ≠ .live := by
    intro e he hmember hwaits
    unfold Server.subscribe
    split
    · by_cases hep : e.member = r ∧ e.path = path
      · exact ⟨e.stage (some start), List.mem_map.mpr ⟨e, he, if_pos hep⟩, hmember, rfl, fun hf => by cases hf⟩
      · exact ⟨e, List.mem_map.mpr ⟨e, he, if_neg hep⟩, hmember, rfl, hwaits⟩
    · exact ⟨e, List.mem_append_left _ he, hmember, rfl, hwaits⟩
  rw [Server.subscribe_eq]
  refine ⟨h.nodup, h.unreached, h.member, h.since_le, h.told.request _, .inl ⟨rfl, ?_, hentries, ?_,
    hwaiting.elsewhere⟩⟩
  · obtain ⟨e, he, hmember, -, hwaits⟩ := hsubs
    exact (Server.backfilling_iff _ r).mpr ⟨e, he, hmember, hwaits⟩
  · intro path' hpath'
    rcases List.mem_append.mp hpath' with hpath' | hpath'
    · obtain ⟨e, he, hmember, hep, hwaits⟩ := hwaiting.paths path' hpath'
      obtain ⟨e', he', hmember', hep', hwaits'⟩ := hkept e he hmember hwaits
      exact ⟨e', he', hmember', hep'.trans hep, hwaits'⟩
    · rw [List.mem_singleton.mp hpath']
      exact hsubs

theorem SubEntry.release_frame (m : MemberId) (e : SubEntry) :
    (e.release m).member = e.member ∧ (e.release m).path = e.path ∧ (e.release m).backfillFrom = e.backfillFrom ∧
      ((e.release m).backfill = .live ↔ e.backfill = .live) := by
  unfold SubEntry.release
  split
  · rename_i hstaged
    refine ⟨rfl, rfl, rfl, ?_⟩
    rw [hstaged.2]
    exact ⟨fun hf => (by cases hf), fun hf => (by cases hf)⟩
  · exact ⟨rfl, rfl, rfl, .rfl⟩

/-- The release of the call. -/
theorem Server.OnCourse.release (h : s.OnCourse r start requested since released n) :
    { s with subs := s.subs.map (SubEntry.release r) }.OnCourse r start requested since true n := by
  refine ⟨h.nodup, h.unreached, h.member, h.since_le, h.told, ?_⟩
  have hlive : s.Live r requested → { s with subs := s.subs.map (SubEntry.release r) }.Live r requested := by
    intro hlive
    refine ⟨?_, ?_⟩
    · rw [Server.not_backfilling_iff]
      intro e he hmember
      obtain ⟨e', he', rfl⟩ := List.mem_map.mp he
      obtain ⟨hm, -, -, hb⟩ := e'.release_frame r
      exact hb.mpr ((s.not_backfilling_iff r).mp hlive.live e' he' (hm ▸ hmember))
    · intro path hpath
      obtain ⟨e, he, hmember, hep⟩ := hlive.paths path hpath
      obtain ⟨hm, hp, -, -⟩ := e.release_frame r
      exact ⟨e.release r, List.mem_map_of_mem he, hm.trans hmember, hp.trans hep⟩
  rcases h.phase with hwaiting | ⟨-, hl, hserving⟩ | ⟨-, hserved⟩
  · refine .inl ⟨hwaiting.none_told, ?_, ?_, ?_, hwaiting.elsewhere⟩
    · obtain ⟨e, he, hmember, hwaits⟩ := (s.backfilling_iff r).mp hwaiting.waits
      obtain ⟨hm, -, -, hb⟩ := e.release_frame r
      exact (Server.backfilling_iff _ r).mpr
        ⟨e.release r, List.mem_map_of_mem he, hm.trans hmember, fun hf => hwaits (hb.mp hf)⟩
    · intro e he hmember hwaits
      obtain ⟨e', he', rfl⟩ := List.mem_map.mp he
      obtain ⟨hm, -, hf, hb⟩ := e'.release_frame r
      rw [hm] at hmember
      obtain ⟨hstart, hstate⟩ := hwaiting.entries e' he' hmember (fun hl => hwaits (hb.mpr hl))
      refine ⟨hf.trans hstart, ?_⟩
      cases released with
      | false =>
        unfold SubEntry.release
        rw [if_pos ⟨hmember, hstate⟩]
        rfl
      | true =>
        have hreleased : e'.backfill = .released := hstate
        unfold SubEntry.release
        rw [if_neg (fun hf => by
          rw [hreleased] at hf
          cases hf.2)]
        exact hreleased
    · intro path hpath
      obtain ⟨e, he, hmember, hep, hwaits⟩ := hwaiting.paths path hpath
      obtain ⟨hm, hp, -, hb⟩ := e.release_frame r
      exact ⟨e.release r, List.mem_map_of_mem he, hm.trans hmember, hp.trans hep, fun hf => hwaits (hb.mp hf)⟩
  · exact .inr (.inl ⟨rfl, hlive hl, hserving⟩)
  · exact .inr (.inr ⟨rfl, hlive hserved.isLive, hserved.elsewhere, hserved.upToDate, hserved.items⟩)

theorem sameFor_release {m : MemberId} (hm : m ≠ r) (subs : List SubEntry) :
    SameFor r subs (subs.map (SubEntry.release m)) := by
  refine sameFor_map ?_ (fun e => (e.release_frame m).1) subs
  intro e he
  unfold SubEntry.release
  exact if_neg (fun hf => hm (hf.1.symm.trans he))

/-! ### The writer's thread -/

-- something was sent to others
theorem Server.OnCourse.sentOther (h : s.OnCourse r start requested since released n)
    {sent : List (MemberId × Message)} (hsince : since ≤ sent.length)
    (hrec : { s with sent := sent }.received r since = s.received r since) :
    { s with sent := sent }.OnCourse r start requested since released n := by
  refine ⟨h.nodup, h.unreached, h.member, hsince, ?_, ?_⟩
  · rw [hrec]
    exact h.told
  · rw [hrec]
    rcases h.phase with hwaiting | ⟨hrel, hl, hserving⟩ | ⟨hrel, hserved⟩
    · exact .inl ⟨hwaiting.none_told, hwaiting.waits, hwaiting.entries, hwaiting.paths, hwaiting.elsewhere⟩
    · exact .inr (.inl ⟨hrel, ⟨hl.live, hl.paths⟩, hserving⟩)
    · exact .inr (.inr ⟨hrel, ⟨hserved.isLive.live, hserved.isLive.paths⟩, hserved.elsewhere, hserved.upToDate,
        hserved.items⟩)

/-- The writer goes on without sending: nothing it owes `r` changes, nor what it has in hand. -/
theorem Server.OnCourse.moved (h : s.OnCourse r start requested since released n) (w : WriterAt)
    (current : List Path) (hnodup : w.unreached.Nodup)
    (hserving : ∀ paths k next, s.writer ≠ .serving r paths k next ∧ w ≠ .serving r paths k next)
    (hforwarding : s.backfilling r → ∀ rest, w ≠ .forwarding r rest)
    (howed : s.backfilling r = false → { s with writer := w, current := current }.owed r = s.owed r)
    (hhand : s.backfilling r = false →
      { s with writer := w, current := current }.inHand r ⊆ s.inHand r) :
    { s with writer := w, current := current }.OnCourse r start requested since released n := by
  refine ⟨h.nodup, hnodup, h.member, h.since_le, h.told, ?_⟩
  rcases h.phase with hwaiting | ⟨-, -, -, paths, next, -, hw⟩ | ⟨hrel, hserved⟩
  · refine .inl ⟨hwaiting.none_told, hwaiting.waits, hwaiting.entries, hwaiting.paths, ?_⟩
    exact fun paths k next rest => ⟨(hserving paths k next).2, hforwarding hwaiting.waits rest⟩
  · exact absurd hw (hserving paths (start + n) next).1
  · refine .inr (.inr ⟨hrel, ⟨hserved.isLive.live, hserved.isLive.paths⟩,
      fun paths k next => (hserving paths k next).2, ?_, ?_⟩)
    · rw [howed hserved.isLive.live]
      exact hserved.upToDate
    · exact fun path hpath hhand' => hserved.items path hpath (hhand hserved.isLive.live hhand')

theorem gather_none (m : MemberId) (subs : List SubEntry) :
    gather m none subs =
      ((subs.filter fun e => e.member = m ∧ e.backfill = .released).map (·.path),
        (subs.filter fun e => e.member = m ∧ e.backfill = .released).map (·.backfillFrom),
        subs.map fun e => if e.member = m ∧ e.backfill = .released then { e with backfill := .live } else e) := by
  induction subs with
  | nil => rfl
  | cons e l ih =>
    unfold gather
    by_cases he : e.member = m ∧ e.backfill = .released
    · rw [if_pos he, if_neg (by simp), Option.map_none, ih, List.filter_cons, if_pos (decide_eq_true he),
        List.map_cons, List.map_cons, List.map_cons, if_pos he]
    · rw [if_neg he, ih, List.filter_cons, if_neg (fun hf => he (of_decide_eq_true hf)), List.map_cons,
        if_neg he]

theorem sameFor_gather {m : MemberId} (hm : m ≠ r) (limit : Option Nat) (subs : List SubEntry) :
    SameFor r subs (gather m limit subs).2.2 := by
  induction subs generalizing limit with
  | nil => exact ⟨fun _ he _ => he, fun _ he _ => .inl he⟩
  | cons e l ih =>
    have hcons : ∀ (limit : Option Nat) (e' : SubEntry), (e.member = r → e' = e) → e'.member = e.member →
        SameFor r (e :: l) (e' :: (gather m limit l).2.2) := by
      intro limit e' heq hmember
      refine ⟨?_, ?_⟩
      · intro x hx hxr
        rcases List.mem_cons.mp hx with rfl | hx
        · rw [heq hxr]
          exact List.mem_cons_self
        · exact List.mem_cons_of_mem _ ((ih limit).kept x hx hxr)
      · intro x hx hxr
        rcases List.mem_cons.mp hx with rfl | hx
        · rw [heq (hmember ▸ hxr)]
          exact .inl List.mem_cons_self
        · rcases (ih limit).new x hx hxr with hold | hlive
          · exact .inl (List.mem_cons_of_mem _ hold)
          · exact .inr hlive
    unfold gather
    by_cases he : e.member = m ∧ e.backfill = .released
    · rw [if_pos he]
      split
      · exact ⟨fun _ he _ => he, fun _ he _ => .inl he⟩
      · exact hcons _ _ (fun hr => absurd (he.1.symm.trans hr) hm) rfl
    · rw [if_neg he]
      exact hcons limit e (fun _ => rfl) rfl

theorem foldl_min_of_eq {start : Nat} {starts : List Nat} (h : ∀ k ∈ starts, k = start) :
    starts.foldl min start = start := by
  induction starts with
  | nil => rfl
  | cons k starts ih =>
    rw [List.foldl_cons, h k List.mem_cons_self, Nat.min_self]
    exact ih (fun k' hk' => h k' (List.mem_cons_of_mem _ hk'))

theorem Boundary.after_ne (next : Boundary) :
    next.after.unreached = [] ∧ (∀ m paths k next', next.after ≠ .serving m paths k next') ∧
      ∀ m rest, next.after ≠ .forwarding m rest := by
  cases next with
  | beginStep => exact ⟨rfl, fun _ _ _ _ hf => (by cases hf), fun _ _ hf => (by cases hf)⟩
  | endStep => exact ⟨rfl, fun _ _ _ _ hf => (by cases hf), fun _ _ hf => (by cases hf)⟩

/-- Nothing is left to serve: the writer goes on with its step. -/
theorem Server.OnCourse.goOn (h : s.OnCourse r start requested since released n) {next : Boundary}
    (hw : s.writer = .taking next) :
    { s with writer := next.after, current := [] }.OnCourse r start requested since released n := by
  obtain ⟨hunreached, hserving, hforwarding⟩ := next.after_ne
  refine h.moved _ _ ?_ ?_ ?_ ?_ ?_
  · rw [hunreached]
    exact List.nodup_nil
  · refine fun paths k next' => ⟨fun hf => ?_, hserving r paths k next'⟩
    rw [hw] at hf
    cases hf
  · exact fun _ rest => hforwarding r rest
  · intro _
    show (if r ∈ next.after.unreached then 1 else 0) = if r ∈ s.writer.unreached then 1 else 0
    rw [hunreached, hw]
    rfl
  · intro _ path hpath
    cases next with
    | beginStep => cases hpath
    | endStep => cases hpath

/-- The released request of `r` is taken. -/
theorem Server.OnCourse.taken (h : s.OnCourse r start requested since released n) (next : Boundary)
    {e : SubEntry} (he : e ∈ s.subs) (hmember : e.member = r) (hreleased : e.backfill = .released)
    (hstart : start ≤ s.steps.length) :
    (gather r none s.subs).1 ≠ [] ∧ { s with
      subs := (gather r none s.subs).2.2
      writer := .serving r (gather r none s.subs).1 ((gather r none s.subs).2.1.foldl min e.backfillFrom)
        next }.OnCourse r start requested since released n := by
  have hwaits : e.backfill ≠ .live := fun hf => by
    rw [hreleased] at hf
    cases hf
  have hwaiting : s.Waiting r start requested released n := by
    rcases h.phase with hwaiting | ⟨-, hl, -⟩ | ⟨-, hserved⟩
    · exact hwaiting
    · exact absurd ((s.not_backfilling_iff r).mp hl.live e he hmember) hwaits
    · exact absurd ((s.not_backfilling_iff r).mp hserved.isLive.live e he hmember) hwaits
  obtain rfl := hwaiting.none_told
  obtain ⟨hfrom, hstate⟩ := hwaiting.entries e he hmember hwaits
  have hrel : released = true := by
    cases released with
    | true => rfl
    | false =>
      rw [hreleased] at hstate
      cases hstate
  subst hrel
  have hall : ∀ e' ∈ s.subs, e'.member = r → e'.backfill ≠ .live →
      e' ∈ s.subs.filter fun e => e.member = r ∧ e.backfill = .released := by
    intro e' he' hm hw
    exact List.mem_filter.mpr ⟨he', decide_eq_true ⟨hm, (hwaiting.entries e' he' hm hw).2⟩⟩
  rw [gather_none]
  refine ⟨?_, h.nodup, List.nodup_nil, h.member, h.since_le, h.told, .inr (.inl ⟨rfl, ⟨?_, ?_⟩, hstart, ?_⟩)⟩
  · exact List.ne_nil_of_mem (List.mem_map_of_mem (hall e he hmember hwaits))
  · rw [Server.not_backfilling_iff]
    intro e' he' hm
    obtain ⟨e'', he'', rfl⟩ := List.mem_map.mp he'
    by_cases htaken : e''.member = r ∧ e''.backfill = .released
    · rw [if_pos htaken]
    · rw [if_neg htaken] at hm ⊢
      by_contra hw
      exact htaken ⟨hm, (hwaiting.entries e'' he'' hm hw).2⟩
  · intro path hpath
    obtain ⟨e', he', hm, hep, hw⟩ := hwaiting.paths path hpath
    have htaken : e'.member = r ∧ e'.backfill = .released := ⟨hm, (hwaiting.entries e' he' hm hw).2⟩
    exact ⟨{ e' with backfill := .live }, List.mem_map.mpr ⟨e', he', if_pos htaken⟩, hm, hep⟩
  · refine ⟨(s.subs.filter fun e => e.member = r ∧ e.backfill = .released).map (·.path), next, ?_, ?_⟩
    · intro path hpath
      obtain ⟨e', he', hm, hep, hw⟩ := hwaiting.paths path hpath
      exact List.mem_map.mpr ⟨e', hall e' he' hm hw, hep⟩
    · have hstarts : ∀ k ∈ (s.subs.filter fun e => e.member = r ∧ e.backfill = .released).map (·.backfillFrom),
          k = start := by
        intro k hk
        obtain ⟨e', he', rfl⟩ := List.mem_map.mp hk
        obtain ⟨hmem, htaken⟩ := List.mem_filter.mp he'
        have htaken : e'.member = r ∧ e'.backfill = .released := of_decide_eq_true htaken
        refine (hwaiting.entries e' hmem htaken.1 (fun hf => ?_)).1
        rw [htaken.2] at hf
        cases hf
      show WriterAt.serving r _ (List.foldl min e.backfillFrom _) next = _
      rw [hfrom, foldl_min_of_eq hstarts]
      rfl

theorem Server.OnCourse.take (h : s.OnCourse r start requested since released n) {next : Boundary}
    (hw : s.writer = .taking next) {limit : Option Nat} (horderly : s.orderly r start released (.take limit)) :
    (s.takeBackfill limit next).OnCourse r start requested since released n := by
  unfold Server.takeBackfill
  cases hfind : s.subs.find? (·.backfill = .released) with
  | none => exact h.goOn hw
  | some e =>
    have he : e ∈ s.subs := List.mem_of_find?_eq_some hfind
    have hreleased : e.backfill = .released := by simpa using List.find?_some hfind
    simp only
    by_cases hmember : e.member = r
    · have hany : s.subs.any (fun e => e.member = r ∧ e.backfill = .released) = true :=
        List.any_eq_true.mpr ⟨e, he, decide_eq_true ⟨hmember, hreleased⟩⟩
      have hcond : limit = none ∧ start ≤ s.steps.length := by
        unfold Server.orderly at horderly
        rw [hany] at horderly
        simpa using horderly
      obtain ⟨hpaths, hcourse⟩ := h.taken next he hmember hreleased hcond.2
      rw [hmember, hcond.1, if_neg hpaths]
      exact hcourse
    · split
      · exact h.goOn hw
      · have hmoved := h.moved (.serving e.member (gather e.member limit s.subs).1
          ((gather e.member limit s.subs).2.1.foldl min e.backfillFrom) next) s.current List.nodup_nil
          (fun paths k next' => ⟨fun hf => (by rw [hw] at hf; cases hf), fun hf => (by injection hf with hf; exact hmember hf)⟩)
          (fun _ _ hf => by cases hf)
          (fun _ => (by
            show (if r ∈ ([] : List MemberId) then 1 else 0) = if r ∈ s.writer.unreached then 1 else 0
            rw [hw]
            rfl))
          (fun _ path hpath => by cases hpath)
        exact hmoved.sameFor (sameFor_gather hmember limit s.subs)

/-- One step is sent to a member being served. -/
theorem Server.OnCourse.serve (h : s.OnCourse r start requested since released n) {m : MemberId}
    {paths : List Path} {k : Nat} {next : Boundary} (hw : s.writer = .serving m paths k next) :
    ∃ n', (s.serveStep m paths k next).OnCourse r start requested since released n' := by
  have hempty : s.writer.unreached = [] := by
    rw [hw]
    rfl
  unfold Server.serveStep
  simp only
  by_cases hm : m = r
  · subst hm
    -- only a call being served is at such a point
    obtain ⟨hrel, hlive, hle, paths', next', hsub, hw'⟩ : released = true ∧ s.Serving m start requested n := by
      rcases h.phase with hwaiting | hserving | ⟨-, hserved⟩
      · exact absurd hw (hwaiting.elsewhere paths k next []).1
      · exact hserving
      · exact absurd hw (hserved.elsewhere paths k next)
    rw [hw] at hw'
    injection hw' with _ hpaths hk _
    subst hpaths hk
    split
    · rename_i hlt
      obtain ⟨sent, hsend, hsince, hrec⟩ := exists_send s m m
        ((paths.filter (· ∈ s.steps[start + n]?.getD [])).map (.items (start + n)) ++ [.announce (start + n)])
        h.since_le h.member
      rw [if_pos rfl, ← List.append_assoc] at hrec
      rw [hsend]
      refine ⟨n + 1, h.nodup, List.nodup_nil, h.member, hsince, ?_, .inr (.inl ⟨hrel, ⟨hlive.live, hlive.paths⟩,
        hlt, paths, next, hsub, rfl⟩)⟩
      have htold : Told start s.steps requested (n + 1) ({ s with sent := sent }.received m since) := by
        rw [hrec]
        refine (h.told.items (.inr (Nat.le_refl _)) _).announce hlt ?_
        intro path hpath hwrote
        refine List.mem_append_right _ (List.mem_map_of_mem ?_)
        exact List.mem_filter.mpr ⟨hsub hpath, by simpa using hwrote⟩
      exact htold
    · rename_i hlt
      refine ⟨n, h.nodup, List.nodup_nil, h.member, h.since_le, h.told, .inr (.inr ⟨hrel, ⟨hlive.live, hlive.paths⟩,
        fun _ _ _ hf => (by cases hf), ?_, fun path _ hpath => (by cases hpath)⟩)⟩
      show start + n + 0 = s.steps.length
      omega
  · have hne : ∀ paths' k' next', s.writer ≠ .serving r paths' k' next' := by
      intro paths' k' next' hf
      rw [hw] at hf
      injection hf with hf
      exact hm hf
    split
    · obtain ⟨sent, hsend, hsince, hrec⟩ := exists_send s r m
        ((paths.filter (· ∈ s.steps[k]?.getD [])).map (.items k) ++ [.announce k]) h.since_le h.member
      rw [if_neg hm, List.append_nil] at hrec
      rw [hsend]
      refine ⟨n, (h.sentOther hsince hrec).moved _ s.current List.nodup_nil
        (fun paths' k' next' => ⟨hne paths' k' next', fun hf => ?_⟩) (fun _ _ hf => by cases hf) ?_
        (fun _ path hpath => by cases hpath)⟩
      · injection hf with hf
        exact hm hf
      · intro _
        show (if r ∈ ([] : List MemberId) then 1 else 0) = if r ∈ s.writer.unreached then 1 else 0
        rw [hempty]
    · refine ⟨n, h.moved _ s.current List.nodup_nil
        (fun paths' k' next' => ⟨hne paths' k' next', fun hf => by cases hf⟩) (fun _ _ hf => by cases hf) ?_
        (fun _ path hpath => by cases hpath)⟩
      intro _
      show (if r ∈ ([] : List MemberId) then 1 else 0) = if r ∈ s.writer.unreached then 1 else 0
      rw [hempty]

/-- A write of the open step is replayed and pushed. -/
theorem Server.OnCourse.replayWrite (h : s.OnCourse r start requested since released n)
    (hw : s.writer = .replaying) (path : Path) :
    { s.pushLive path with current := s.current ++ [path] }.OnCourse r start requested since released n := by
  obtain ⟨sent, hpush, hsince, paths, hrec, hmem⟩ := exists_pushLive s r path h.since_le h.member
  have howed : s.owed r = 0 := by
    unfold Server.owed
    rw [hw]
    rfl
  rw [hpush]
  have hrec' : ({ s with sent := sent, current := s.current ++ [path] } : Server).received r since
      = s.received r since ++ paths.map (.items s.steps.length) := hrec
  have htold : n = 0 ∨ start + n ≤ s.steps.length → Told start s.steps requested n
      (({ s with sent := sent, current := s.current ++ [path] } : Server).received r since) := by
    intro hn
    rw [hrec']
    exact h.told.items hn paths
  rcases h.phase with hwaiting | ⟨-, -, -, paths', next, -, hserving⟩ | ⟨hrel, hserved⟩
  · refine ⟨h.nodup, h.unreached, h.member, hsince, htold (.inl hwaiting.none_told), .inl ⟨hwaiting.none_told,
      hwaiting.waits, hwaiting.entries, hwaiting.paths, hwaiting.elsewhere⟩⟩
  · rw [hw] at hserving
    cases hserving
  · have hup : start + n = s.steps.length := by
      have := hserved.upToDate
      omega
    refine ⟨h.nodup, h.unreached, h.member, hsince, htold (.inr (Nat.le_of_eq hup)), .inr (.inr ⟨hrel,
      ⟨hserved.isLive.live, hserved.isLive.paths⟩, hserved.elsewhere, ?_, ?_⟩)⟩
    · show start + n + (if r ∈ s.writer.unreached then 1 else 0) = s.steps.length
      exact hserved.upToDate
    · intro path' hpath' hhand
      rw [hrec']
      have hcur : path' ∈ s.current ++ [path] := by
        unfold Server.inHand at hhand
        rw [hw] at hhand
        exact hhand
      rcases List.mem_append.mp hcur with hold | hnew
      · refine List.mem_append_left _ (hserved.items path' hpath' ?_)
        unfold Server.inHand
        rw [hw]
        exact hold
      · obtain rfl := List.mem_singleton.mp hnew
        obtain ⟨e, he, hmember, hep⟩ := hserved.isLive.paths path' hpath'
        have hlive := (s.not_backfilling_iff r).mp hserved.isLive.live e he hmember
        rw [hup]
        exact List.mem_append_right _ (List.mem_map_of_mem (hmem ⟨e, he, hmember, hep, hlive⟩))

theorem Server.OnCourse.commit (h : s.OnCourse r start requested since released n)
    (hw : s.writer = .replaying) (ok : Bool) :
    (s.apply (.commit ok)).OnCourse r start requested since released n := by
  simp only [Server.apply, hw]
  split
  · refine ⟨h.nodup, h.nodup, h.member, h.since_le, h.told.commit _, ?_⟩
    rcases h.phase with hwaiting | ⟨-, -, -, paths', next, -, hserving⟩ | ⟨hrel, hserved⟩
    · exact .inl ⟨hwaiting.none_told, hwaiting.waits, hwaiting.entries, hwaiting.paths,
        fun _ _ _ _ => ⟨fun hf => (by cases hf), fun hf => (by cases hf)⟩⟩
    · rw [hw] at hserving
      cases hserving
    · have hup := hserved.upToDate
      unfold Server.owed at hup
      rw [hw] at hup
      refine .inr (.inr ⟨hrel, ⟨hserved.isLive.live, hserved.isLive.paths⟩, fun _ _ _ hf => (by cases hf), ?_, ?_⟩)
      · show start + n + (if r ∈ s.members then 1 else 0) = (s.steps ++ [s.current]).length
        rw [if_pos h.member, List.length_append, ← hup]
        rfl
      · intro path hpath hhand
        refine hserved.items path hpath ?_
        unfold Server.inHand at hhand ⊢
        rw [hw]
        simp only at hhand
        rw [show WriterAt.unreached (.announcing s.members) = s.members from rfl, if_pos h.member,
          List.getLast?_concat] at hhand
        exact hhand
  · refine h.moved _ s.current List.nodup_nil
      (fun _ _ _ => ⟨fun hf => (by rw [hw] at hf; cases hf), fun hf => (by cases hf)⟩) (fun _ _ hf => by cases hf) ?_
      (fun _ path hpath => by cases hpath)
    intro _
    show (if r ∈ ([] : List MemberId) then 1 else 0) = if r ∈ s.writer.unreached then 1 else 0
    rw [hw]
    rfl

/-- The broadcast looks at the next member. -/
theorem Server.OnCourse.look (h : s.OnCourse r start requested since released n) {rest : List MemberId}
    (hw : s.writer = .announcing rest) : (s.apply .look).OnCourse r start requested since released n := by
  have hnot : ∀ (w : WriterAt), (∀ paths k next, w ≠ .serving r paths k next) →
      ∀ paths k next, s.writer ≠ .serving r paths k next ∧ w ≠ .serving r paths k next := by
    refine fun w hw' paths k next => ⟨fun hf => ?_, hw' paths k next⟩
    rw [hw] at hf
    cases hf
  have hunreached := h.unreached
  rw [hw] at hunreached
  cases rest with
  | nil =>
    simp only [Server.apply, hw]
    refine h.moved _ s.current List.nodup_nil (hnot _ (fun _ _ _ hf => by cases hf))
      (fun _ _ hf => by cases hf) ?_ (fun _ path hpath => by cases hpath)
    intro _
    show (if r ∈ ([] : List MemberId) then 1 else 0) = if r ∈ s.writer.unreached then 1 else 0
    rw [hw]
    rfl
  | cons m rest =>
    simp only [Server.apply, hw]
    split
    · rename_i hback
      -- skipping `r` is right while it waits
      have hiff : s.backfilling r = false → (r ∈ rest ↔ r ∈ m :: rest) := by
        intro hlive
        have hne : r ≠ m := by
          rintro rfl
          rw [hback] at hlive
          cases hlive
        rw [List.mem_cons]
        exact ⟨.inr, fun hr => hr.resolve_left hne⟩
      refine h.moved _ s.current (List.nodup_cons.mp hunreached).2 (hnot _ (fun _ _ _ hf => by cases hf))
        (fun _ _ hf => by cases hf) ?_ ?_
      · intro hlive
        show (if r ∈ rest then 1 else 0) = if r ∈ s.writer.unreached then 1 else 0
        rw [hw]
        exact if_congr (hiff hlive) rfl rfl
      · intro hlive path hpath
        unfold Server.inHand at hpath ⊢
        rw [hw]
        simp only at hpath ⊢
        split at hpath
        · rename_i hr
          rw [if_pos (show r ∈ WriterAt.unreached (.announcing (m :: rest)) from (hiff hlive).mp hr)]
          exact hpath
        · cases hpath
    · rename_i hback
      refine h.moved _ s.current hunreached (hnot _ (fun _ _ _ hf => by cases hf)) ?_ ?_ ?_
      · intro hwaits rest' hf
        injection hf with hf
        subst hf
        exact hback hwaits
      · intro _
        show (if r ∈ m :: rest then 1 else 0) = if r ∈ s.writer.unreached then 1 else 0
        rw [hw]
        rfl
      · intro _ path hpath
        unfold Server.inHand at hpath ⊢
        rw [hw]
        exact hpath

/-- The announcement reaches a member. -/
theorem Server.OnCourse.forward (h : s.OnCourse r start requested since released n) {m : MemberId}
    {rest : List MemberId} (hw : s.writer = .forwarding m rest) :
    ∃ n', (s.apply .forward).OnCourse r start requested since released n' := by
  have hunreached : (m :: rest).Nodup := by
    have := h.unreached
    rw [hw] at this
    exact this
  obtain ⟨hmrest, hrest⟩ := List.nodup_cons.mp hunreached
  obtain ⟨sent, hsend, hsince, hrec⟩ := exists_send s r m [.announce (s.steps.length - 1)] h.since_le h.member
  simp only [Server.apply, hw, hsend]
  by_cases hm : m = r
  · subst hm
    obtain ⟨hrel, hserved⟩ : released = true ∧ s.Served m start requested n (s.received m since) := by
      rcases h.phase with hwaiting | ⟨-, -, -, paths', next, -, hserving⟩ | hserved
      · exact absurd hw (hwaiting.elsewhere [] 0 .beginStep rest).2
      · rw [hw] at hserving
        cases hserving
      · exact hserved
    have hup := hserved.upToDate
    unfold Server.owed at hup
    rw [hw, if_pos (show m ∈ WriterAt.unreached (.forwarding m rest) from List.mem_cons_self)] at hup
    rw [if_pos rfl] at hrec
    refine ⟨n + 1, h.nodup, hrest, h.member, hsince, ?_, .inr (.inr ⟨hrel, ⟨hserved.isLive.live, hserved.isLive.paths⟩,
      fun _ _ _ hf => (by cases hf), ?_, ?_⟩)⟩
    · have htold : Told start s.steps requested (n + 1) ({ s with sent := sent }.received m since) := by
        rw [hrec, show s.steps.length - 1 = start + n by omega]
        refine h.told.announce (by omega) ?_
        intro path hpath hwrote
        refine hserved.items path hpath ?_
        unfold Server.inHand
        rw [hw]
        simp only
        rw [if_pos (show m ∈ WriterAt.unreached (.forwarding m rest) from List.mem_cons_self),
          List.getLast?_eq_getElem?, show s.steps.length - 1 = start + n by omega]
        exact hwrote
      exact htold
    · show start + (n + 1) + (if m ∈ rest then 1 else 0) = s.steps.length
      rw [if_neg hmrest]
      omega
    · intro path hpath hhand
      unfold Server.inHand at hhand
      simp only at hhand
      rw [if_neg (show ¬ m ∈ WriterAt.unreached (.announcing rest) from hmrest)] at hhand
      cases hhand
  · rw [if_neg hm, List.append_nil] at hrec
    have hiff : r ∈ rest ↔ r ∈ m :: rest := by
      rw [List.mem_cons]
      exact ⟨.inr, fun hr => hr.resolve_left (Ne.symm hm)⟩
    refine ⟨n, (h.sentOther hsince hrec).moved _ s.current hrest (fun _ _ _ => ⟨fun hf => ?_,
      fun hf => (by cases hf)⟩) (fun _ _ hf => by cases hf) ?_ ?_⟩
    · rw [show ({ s with sent := sent } : Server).writer = s.writer from rfl, hw] at hf
      cases hf
    · intro _
      show (if r ∈ rest then 1 else 0) = if r ∈ s.writer.unreached then 1 else 0
      rw [hw]
      exact if_congr hiff rfl rfl
    · intro _ path hpath
      unfold Server.inHand at hpath ⊢
      rw [show ({ s with sent := sent } : Server).writer = s.writer from rfl, hw]
      simp only at hpath ⊢
      split at hpath
      · rename_i hr
        rw [if_pos (show r ∈ WriterAt.unreached (.forwarding m rest) from hiff.mp hr)]
        exact hpath
      · cases hpath

theorem Server.OnCourse.apply (h : s.OnCourse r start requested since released n) {ev : ServerEvent}
    (horderly : s.orderly r start released ev) :
    ∃ n', (s.apply ev).OnCourse r start (requested ++ stagedPaths r [ev]) since
      (released || decide (ev = .release r)) n' := by
  have hsame : ∀ {s' : Server} {n' : Nat}, s'.OnCourse r start requested since released n' →
      stagedPaths r [ev] = [] → decide (ev = .release r) = false →
      s'.OnCourse r start (requested ++ stagedPaths r [ev]) since (released || decide (ev = .release r)) n' := by
    intro s' n' h' hstaged hrel
    rw [hstaged, hrel, List.append_nil, Bool.or_false]
    exact h'
  -- the writer's own calls, when it is elsewhere
  have hstay : s.apply ev = s → stagedPaths r [ev] = [] → decide (ev = .release r) = false →
      ∃ n', (s.apply ev).OnCourse r start (requested ++ stagedPaths r [ev]) since
        (released || decide (ev = .release r)) n' := by
    intro heq hstaged hrel
    rw [heq]
    exact ⟨n, hsame h hstaged hrel⟩
  cases ev with
  | joined m =>
    refine ⟨n, hsame ?_ rfl rfl⟩
    simp only [Server.apply]
    split
    · exact h
    · rename_i hnew
      refine ⟨?_, h.unreached, List.mem_append_left _ h.member, h.since_le, h.told, ?_⟩
      · exact List.nodup_append.mpr ⟨h.nodup, List.nodup_singleton m, by
          rintro a ha b hb rfl
          exact hnew (List.mem_singleton.mp hb ▸ ha)⟩
      · rcases h.phase with hwaiting | ⟨hrel, hl, hserving⟩ | ⟨hrel, hserved⟩
        · exact .inl ⟨hwaiting.none_told, hwaiting.waits, hwaiting.entries, hwaiting.paths, hwaiting.elsewhere⟩
        · exact .inr (.inl ⟨hrel, ⟨hl.live, hl.paths⟩, hserving⟩)
        · exact .inr (.inr ⟨hrel, ⟨hserved.isLive.live, hserved.isLive.paths⟩, hserved.elsewhere,
            hserved.upToDate, hserved.items⟩)
  | stage m path from' stored =>
    by_cases hm : m = r
    · subst hm
      have hcond : (released = false ∧ from' = start) ∧ stored = true := by
        simpa [Server.orderly] using horderly
      obtain ⟨⟨rfl, rfl⟩, rfl⟩ := hcond
      refine ⟨n, ?_⟩
      have hstaged : stagedPaths m [.stage m path from' true] = [path] := by simp [stagedPaths]
      rw [hstaged]
      exact h.stage path
    · have hstaged : stagedPaths r [.stage m path from' stored] = [] := by simp [stagedPaths, hm]
      refine ⟨n, hsame ?_ hstaged rfl⟩
      simp only [Server.apply]
      rw [Server.subscribe_eq]
      exact h.sameFor (sameFor_subscribe s (.inl hm))
  | subscribe m path stored =>
    refine ⟨n, hsame ?_ rfl rfl⟩
    simp only [Server.apply]
    rw [Server.subscribe_eq]
    exact h.sameFor (sameFor_subscribe s (.inr rfl))
  | release m =>
    by_cases hm : m = r
    · subst hm
      refine ⟨n, ?_⟩
      rw [show stagedPaths m [.release m] = [] from rfl, List.append_nil, decide_eq_true rfl, Bool.or_true]
      exact h.release
    · refine ⟨n, hsame (h.sameFor (sameFor_release hm s.subs)) rfl ?_⟩
      rw [decide_eq_false_iff_not]
      intro hf
      injection hf with hf
      exact hm hf
  | callFailed m => exact ⟨n, hsame h rfl rfl⟩
  | beginStep =>
    cases hw : s.writer with
    | idle =>
      refine ⟨n, hsame ?_ rfl rfl⟩
      simp only [Server.apply, hw]
      refine h.moved _ s.current List.nodup_nil
        (fun _ _ _ => ⟨fun hf => (by rw [hw] at hf; cases hf), fun hf => (by cases hf)⟩) (fun _ _ hf => by cases hf)
        ?_ (fun _ path hpath => by cases hpath)
      intro _
      show (if r ∈ ([] : List MemberId) then 1 else 0) = if r ∈ s.writer.unreached then 1 else 0
      rw [hw]
      rfl
    | _ => exact hstay (by simp only [Server.apply, hw]) rfl rfl
  | endStep =>
    cases hw : s.writer with
    | inStep =>
      refine ⟨n, hsame ?_ rfl rfl⟩
      simp only [Server.apply, hw]
      refine h.moved _ s.current List.nodup_nil
        (fun _ _ _ => ⟨fun hf => (by rw [hw] at hf; cases hf), fun hf => (by cases hf)⟩) (fun _ _ hf => by cases hf)
        ?_ (fun _ path hpath => by cases hpath)
      intro _
      show (if r ∈ ([] : List MemberId) then 1 else 0) = if r ∈ s.writer.unreached then 1 else 0
      rw [hw]
      rfl
    | _ => exact hstay (by simp only [Server.apply, hw]) rfl rfl
  | take limit =>
    cases hw : s.writer with
    | taking next =>
      refine ⟨n, hsame ?_ rfl rfl⟩
      simp only [Server.apply, hw]
      exact h.take hw horderly
    | _ => exact hstay (by simp only [Server.apply, hw]) rfl rfl
  | serve =>
    cases hw : s.writer with
    | serving m paths k next =>
      obtain ⟨n', h'⟩ := h.serve hw
      refine ⟨n', hsame ?_ rfl rfl⟩
      simp only [Server.apply, hw]
      exact h'
    | _ => exact hstay (by simp only [Server.apply, hw]) rfl rfl
  | replayWrite path =>
    cases hw : s.writer with
    | replaying =>
      refine ⟨n, hsame ?_ rfl rfl⟩
      simp only [Server.apply, hw]
      exact h.replayWrite hw path
    | _ => exact hstay (by simp only [Server.apply, hw]) rfl rfl
  | commit ok =>
    cases hw : s.writer with
    | replaying => exact ⟨n, hsame (h.commit hw ok) rfl rfl⟩
    | _ => exact hstay (by simp only [Server.apply, hw]) rfl rfl
  | look =>
    cases hw : s.writer with
    | announcing rest => exact ⟨n, hsame (h.look hw) rfl rfl⟩
    | _ => exact hstay (by simp only [Server.apply, hw]) rfl rfl
  | forward =>
    cases hw : s.writer with
    | forwarding m rest =>
      obtain ⟨n', h'⟩ := h.forward hw
      exact ⟨n', hsame h' rfl rfl⟩
    | _ => exact hstay (by simp only [Server.apply, hw]) rfl rfl

end Steps

/-! ## Before the call -/

/-- `r` has staged nothing. -/
structure Server.Fresh (r : MemberId) (s : Server) : Prop where
  nodup : s.members.Nodup
  unreached : s.writer.unreached.Nodup
  live : s.Live r []
  elsewhere : ∀ paths k next, s.writer ≠ .serving r paths k next

section Fresh

variable {r : MemberId} {s : Server}

theorem Server.fresh_start (r : MemberId) : Server.start.Fresh r :=
  ⟨List.nodup_nil, List.nodup_nil, ⟨rfl, fun _ h => nomatch h⟩, fun _ _ _ hf => (by cases hf)⟩

theorem Server.Fresh.sameFor {subs' : List SubEntry} (h : s.Fresh r) (hsame : SameFor r s.subs subs') :
    { s with subs := subs' }.Fresh r :=
  ⟨h.nodup, h.unreached, h.live.sameFor hsame, h.elsewhere⟩

theorem Server.Fresh.moved (h : s.Fresh r) (w : WriterAt) (current : List Path) (steps : List (List Path))
    (sent : List (MemberId × Message)) (hnodup : w.unreached.Nodup)
    (hserving : ∀ paths k next, w ≠ .serving r paths k next) :
    { s with writer := w, current := current, steps := steps, sent := sent }.Fresh r :=
  ⟨h.nodup, hnodup, ⟨h.live.live, h.live.paths⟩, hserving⟩

theorem Server.send_eq (s : Server) (m : MemberId) (messages : List Message) :
    ∃ sent, s.send m messages = { s with sent := sent } := by
  unfold Server.send
  split
  · exact ⟨_, rfl⟩
  · exact ⟨s.sent, rfl⟩

theorem Server.Fresh.take (h : s.Fresh r) (limit : Option Nat) (next : Boundary) :
    (s.takeBackfill limit next).Fresh r := by
  have hgoOn : { s with writer := next.after, current := [] }.Fresh r := by
    obtain ⟨hunreached, hserving, -⟩ := next.after_ne
    refine ⟨h.nodup, ?_, ⟨h.live.live, h.live.paths⟩, hserving r⟩
    show next.after.unreached.Nodup
    rw [hunreached]
    exact List.nodup_nil
  unfold Server.takeBackfill
  cases hfind : s.subs.find? (·.backfill = .released) with
  | none => exact hgoOn
  | some e =>
    -- the request taken is another member's
    have hmember : e.member ≠ r := by
      intro hmember
      have hlive := (s.not_backfilling_iff r).mp h.live.live e (List.mem_of_find?_eq_some hfind) hmember
      have hreleased : e.backfill = .released := by simpa using List.find?_some hfind
      rw [hreleased] at hlive
      cases hlive
    simp only
    split
    · exact hgoOn
    · have hmoved := h.moved (.serving e.member (gather e.member limit s.subs).1
        ((gather e.member limit s.subs).2.1.foldl min e.backfillFrom) next) s.current s.steps s.sent List.nodup_nil
        (fun _ _ _ hf => (by injection hf with hf; exact hmember hf))
      exact hmoved.sameFor (sameFor_gather hmember limit s.subs)

theorem Server.Fresh.apply (h : s.Fresh r) {ev : ServerEvent} (hev : stagedPaths r [ev] = []) :
    (s.apply ev).Fresh r := by
  cases ev with
  | joined m =>
    simp only [Server.apply]
    split
    · exact h
    · rename_i hnew
      refine ⟨?_, h.unreached, ⟨h.live.live, h.live.paths⟩, h.elsewhere⟩
      exact List.nodup_append.mpr ⟨h.nodup, List.nodup_singleton m, by
        rintro a ha b hb rfl
        exact hnew (List.mem_singleton.mp hb ▸ ha)⟩
  | stage m path from' stored =>
    have hm : m ≠ r := by
      rintro rfl
      simp [stagedPaths] at hev
    simp only [Server.apply]
    rw [Server.subscribe_eq]
    exact h.sameFor (sameFor_subscribe s (.inl hm))
  | subscribe m path stored =>
    simp only [Server.apply]
    rw [Server.subscribe_eq]
    exact h.sameFor (sameFor_subscribe s (.inr rfl))
  | release m =>
    refine ⟨h.nodup, h.unreached, ⟨?_, fun _ hp => nomatch hp⟩, h.elsewhere⟩
    rw [Server.not_backfilling_iff]
    intro e he hmember
    obtain ⟨e', he', rfl⟩ := List.mem_map.mp he
    obtain ⟨hm, -, -, hb⟩ := e'.release_frame m
    exact hb.mpr ((s.not_backfilling_iff r).mp h.live.live e' he' (hm ▸ hmember))
  | callFailed m => exact h
  | beginStep =>
    simp only [Server.apply]
    split
    · exact h.moved _ _ _ _ List.nodup_nil (fun _ _ _ hf => by cases hf)
    · exact h
  | endStep =>
    simp only [Server.apply]
    split
    · exact h.moved _ _ _ _ List.nodup_nil (fun _ _ _ hf => by cases hf)
    · exact h
  | take limit =>
    simp only [Server.apply]
    split
    · exact h.take limit _
    · exact h
  | serve =>
    simp only [Server.apply]
    split
    · rename_i m paths k next hw
      have hne : m ≠ r := by
        rintro rfl
        exact h.elsewhere paths k next hw
      unfold Server.serveStep
      split
      · obtain ⟨sent, hsend⟩ := s.send_eq m
          ((paths.filter (· ∈ s.steps[k]?.getD [])).map (.items k) ++ [.announce k])
        simp only [hsend]
        exact h.moved _ _ _ _ List.nodup_nil (fun _ _ _ hf => (by injection hf with hf; exact hne hf))
      · exact h.moved _ _ _ _ List.nodup_nil (fun _ _ _ hf => by cases hf)
    · exact h
  | replayWrite path =>
    simp only [Server.apply]
    split
    · exact ⟨h.nodup, h.unreached, ⟨h.live.live, h.live.paths⟩, h.elsewhere⟩
    · exact h
  | commit ok =>
    simp only [Server.apply]
    split
    · split
      · exact h.moved _ _ _ _ h.nodup (fun _ _ _ hf => by cases hf)
      · exact h.moved _ _ _ _ List.nodup_nil (fun _ _ _ hf => by cases hf)
    · exact h
  | look =>
    simp only [Server.apply]
    split
    · exact h.moved _ _ _ _ List.nodup_nil (fun _ _ _ hf => by cases hf)
    · rename_i m rest hw
      have hunreached := h.unreached
      rw [hw] at hunreached
      split
      · exact h.moved _ _ _ _ (List.nodup_cons.mp hunreached).2 (fun _ _ _ hf => by cases hf)
      · exact h.moved _ _ _ _ hunreached (fun _ _ _ hf => by cases hf)
    · exact h
  | forward =>
    simp only [Server.apply]
    split
    · rename_i m rest hw
      have hunreached := h.unreached
      rw [hw] at hunreached
      obtain ⟨sent, hsend⟩ := s.send_eq m [.announce (s.steps.length - 1)]
      simp only [hsend]
      exact h.moved _ _ _ _ (List.nodup_cons.mp hunreached).2 (fun _ _ _ hf => by cases hf)
    · exact h

theorem stagedPaths_cons (r : MemberId) (ev : ServerEvent) (events : List ServerEvent) :
    stagedPaths r (ev :: events) = stagedPaths r [ev] ++ stagedPaths r events := by
  unfold stagedPaths
  rw [← List.filterMap_append]
  rfl

theorem Server.fresh_run {events : List ServerEvent} (h : s.Fresh r) (hevents : stagedPaths r events = []) :
    (s.run events).Fresh r := by
  induction events generalizing s with
  | nil => exact h
  | cons ev events ih =>
    rw [stagedPaths_cons, List.append_eq_nil_iff] at hevents
    exact ih (h.apply hevents.1) hevents.2

/-- The first request of the call starts its course. -/
theorem Server.Fresh.stage (h : s.Fresh r) (hmember : r ∈ s.members)
    (hlook : ∀ rest, s.writer ≠ .forwarding r rest) (path : Path) (start : Nat) :
    (s.subscribe r path (some start) true).OnCourse r start [path] s.sent.length false 0 := by
  have hlive := (s.not_backfilling_iff r).mp h.live.live
  have hentry := s.exists_staged r path start
  have hentries := s.entries_staged path start
    (fun e he hm hwaits => absurd (hlive e he hm) hwaits)
  rw [Server.subscribe_eq]
  refine ⟨h.nodup, h.unreached, hmember, Nat.le_refl _, ?_, .inl ⟨rfl, ?_, hentries, ?_,
    fun paths k next rest => ⟨h.elsewhere paths k next, hlook rest⟩⟩⟩
  · unfold Server.received
    rw [List.drop_length]
    exact .nil start s.steps [path]
  · obtain ⟨e, he, hm, -, hwaits⟩ := hentry
    exact (Server.backfilling_iff _ r).mpr ⟨e, he, hm, hwaits⟩
  · intro path' hpath'
    rw [List.mem_singleton.mp hpath']
    exact hentry

end Fresh

/-! ## The call as a whole -/

theorem Server.OnCourse.run {r : MemberId} {start since : Nat} {events : List ServerEvent} {released : Bool}
    {requested : List Path} {s : Server} {n : Nat} (h : s.OnCourse r start requested since released n)
    (horderly : Server.OrderlyFrom r start released s events) :
    ∃ released' n', (s.run events).OnCourse r start (requested ++ stagedPaths r events) since released' n' ∧
      (.callFailed r ∈ events → released' = true) ∧ (released = true → released' = true) := by
  induction events generalizing released requested s n with
  | nil =>
    refine ⟨released, n, ?_, fun hf => (nomatch hf), id⟩
    rw [show stagedPaths r [] = [] from rfl, List.append_nil]
    exact h
  | cons ev events ih =>
    obtain ⟨hev, hrest⟩ := horderly
    obtain ⟨n', h'⟩ := h.apply hev
    obtain ⟨released', n'', hcourse, hfailed, hkeep⟩ := ih h' hrest
    rw [List.append_assoc, ← stagedPaths_cons] at hcourse
    refine ⟨released', n'', hcourse, ?_, fun hrel => hkeep (by rw [hrel, Bool.true_or])⟩
    intro hmem
    rcases List.mem_cons.mp hmem with rfl | hmem
    · have hrel : released = true := by simpa [Server.orderly] using hev
      exact hkeep (by rw [hrel, Bool.true_or])
    · exact hfailed hmem

/-- On course, what `r` was sent is in order, and after the release nothing is left staged. -/
theorem Server.OnCourse.inOrder {r : MemberId} {start since : Nat} {released : Bool} {requested : List Path}
    {s : Server} {n : Nat} (h : s.OnCourse r start requested since released n) :
    s.InOrder r start requested (s.received r since) ∧
      (released = true → ∀ e ∈ s.subs, e.member = r → e.backfill ≠ .staged) := by
  refine ⟨⟨⟨n, h.told.announced, ?_⟩, h.told.complete, h.told.closed⟩, ?_⟩
  · intro hsettled
    unfold Server.settled at hsettled
    rw [Bool.and_eq_true, Bool.not_eq_true'] at hsettled
    rcases h.phase with hwaiting | ⟨-, -, -, paths, next, -, hw⟩ | ⟨-, hserved⟩
    · rw [hwaiting.waits] at hsettled
      cases hsettled.1
    · rw [hw] at hsettled
      cases hsettled.2
    · have hup := hserved.upToDate
      unfold Server.owed at hup
      cases hw : s.writer with
      | idle =>
        rw [hw] at hup
        exact hup
      | inStep =>
        rw [hw] at hup
        exact hup
      | replaying =>
        rw [hw] at hup
        exact hup
      | _ =>
        rw [hw] at hsettled
        cases hsettled.2
  · rintro rfl e he hmember hstaged
    rcases h.phase with hwaiting | ⟨-, hl, -⟩ | ⟨-, hserved⟩
    · have hstate := (hwaiting.entries e he hmember (fun hf => by rw [hstaged] at hf; cases hf)).2
      rw [hstaged] at hstate
      cases hstate
    · rw [(s.not_backfilling_iff r).mp hl.live e he hmember] at hstaged
      cases hstaged
    · rw [(s.not_backfilling_iff r).mp hserved.isLive.live e he hmember] at hstaged
      cases hstaged

/-- The property of a call: from its first request on, `r` is told every step from `start` in order, and a
failed call leaves nothing staged. -/
def BackfillsInOrder (r : MemberId) (start : Nat) (path : Path) (before after : List ServerEvent) : Prop :=
  let s₀ := Server.start.run before
  let s := (s₀.apply (.stage r path start true)).run after
  s.InOrder r start (path :: stagedPaths r after) (s.received r s₀.sent.length) ∧
    (.callFailed r ∈ after → ∀ e ∈ s.subs, e.member = r → e.backfill ≠ .staged)

/-- **An orderly call is backfilled in order**, wherever in its steps the writer is when the requests
come in, and whatever other members ask for. -/
theorem backfill_in_order (r : MemberId) (start : Nat) (path : Path) (before after : List ServerEvent)
    (hfirst : stagedPaths r before = []) (hmember : r ∈ (Server.start.run before).members)
    (hlook : ∀ rest, (Server.start.run before).writer ≠ .forwarding r rest)
    (horderly : Server.OrderlyFrom r start false
      ((Server.start.run before).apply (.stage r path start true)) after) :
    BackfillsInOrder r start path before after := by
  have hcourse := (Server.fresh_run (Server.fresh_start r) hfirst).stage hmember hlook path start
  obtain ⟨released, n, hrun, hfailed, -⟩ := hcourse.run horderly
  obtain ⟨hinOrder, hstaged⟩ := hrun.inOrder
  exact ⟨hinOrder, fun hmem => hstaged (hfailed hmem)⟩

instance Server.decidableOrderlyFrom (r : MemberId) (start : Nat) : ∀ (released : Bool) (s : Server)
    (events : List ServerEvent), Decidable (Server.OrderlyFrom r start released s events)
  | _, _, [] => .isTrue trivial
  | released, s, ev :: events =>
      haveI := Server.decidableOrderlyFrom r start (released || decide (ev = .release r)) (s.apply ev) events
      inferInstanceAs (Decidable (_ ∧ _))

-- one step writing `/x`, from `H5Fbegin_step` to its announcement to one member
def stepOfX : List ServerEvent :=
  [.beginStep, .take none, .endStep, .take none, .replayWrite ['/', 'x'], .commit true, .look, .forward, .look]

/-- A subscriber that joins after one step is told it and the next. -/
theorem lateJoiner_in_order :
    BackfillsInOrder 7 0 ['/', 'x'] (stepOfX ++ [.joined 7])
      ([.release 7, .beginStep, .take none, .serve, .serve, .take none, .endStep, .take none,
        .replayWrite ['/', 'x'], .commit true, .look, .forward, .look]) :=
  backfill_in_order 7 0 ['/', 'x'] _ _ (by decide) (by decide) (fun _ hf => by cases hf) (by decide)

/-- A call whose release is lost fails, and its subscription stays staged. -/
theorem lostRelease_not_in_order :
    ¬ ∀ (r : MemberId) (start : Nat) (path : Path) (before after : List ServerEvent),
      stagedPaths r before = [] → BackfillsInOrder r start path before after := by
  intro h
  have hstaged := (h 7 0 ['/', 'x'] (stepOfX ++ [.joined 7]) [.callFailed 7] (by decide)).2 (by decide)
  exact absurd rfl (hstaged ⟨7, ['/', 'x'], .staged, 0⟩ (by decide) rfl)

end VolStream
