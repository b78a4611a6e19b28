import VolStream.Lib.Run
import VolStream.Lib.Table
import VolStream.Transport.Routing

/-!
# The writer's subscription table

One handler, `vs_subscribe_ult`, takes every request about subscriptions: it makes an entry or describes one
afresh, and with one of three flags it amends an entry's predicate or wanted datatype, or releases all that a member
has staged. A member that leaves takes its entries along, and the writer takes released entries off for backfill.

`Desk` is what the table is for: a table of descriptions, each set by a subscribe and amended by what follows. The
handler keeps to it, except that a plain subscribe leaves an entry's staging alone, and that a blob that cannot be
copied leaves the old one where it was.
-/

namespace VolStream

/-! ## Requests -/

/-- `vs_subscribe_in_t`. A blob of length 0 stands for none. -/
structure SubscribeIn where
  member : MemberId
  path : Path
  selStart : Nat
  selCount : Nat
  dcplEnc : Bytes
  flags : UInt32
  predEnc : Bytes
  spaceEnc : Bytes
  typeEnc : Bytes
  startStep : Nat
deriving DecidableEq

/-- What the handler makes of the flags: `VS_SUB_FLAG_FROM_ONLY` goes before `VS_SUB_FLAG_PRED_ONLY`, and that
before `VS_SUB_FLAG_TYPE_ONLY`. -/
inductive SubKind where
  | subscribe
  | predicate
  | wantType
  | release
deriving DecidableEq, Repr

namespace SubscribeIn

def predOnly (r : SubscribeIn) : Bool := r.flags &&& 0x1 ≠ 0
def typeOnly (r : SubscribeIn) : Bool := r.flags &&& 0x2 ≠ 0
def fromOnly (r : SubscribeIn) : Bool := r.flags &&& 0x4 ≠ 0

def kind (r : SubscribeIn) : SubKind :=
  if r.fromOnly then .release else if r.predOnly then .predicate else if r.typeOnly then .wantType else .subscribe

def key (r : SubscribeIn) : MemberId × Path := (r.member, r.path)

-- `start_step == UINT64_MAX` is a subscription without backfill
def plain (r : SubscribeIn) : Bool := r.startStep = uint64Max

end SubscribeIn

/-- Which of the handler's allocations succeed: the table's growth, the copies of the path and of each blob. -/
structure SubAllocs where
  table : Bool
  path : Bool
  dcpl : Bool
  space : Bool
  pred : Bool
  type : Bool
deriving DecidableEq

def SubAllocs.granted : SubAllocs := ⟨true, true, true, true, true, true⟩

/-- `vs_blob_dup`. -/
def blobDup (b : Bytes) (granted : Bool) : Option Bytes := if b = [] then some [] else if granted then some b else none

/-! ## The table -/

/-- `vs_tr_sub_entry_t`. -/
structure SubRow where
  member : MemberId
  path : Path
  selStart : Nat
  selCount : Nat
  dcplEnc : Bytes
  predEnc : Bytes
  spaceEnc : Bytes
  wantTypeEnc : Bytes
  backfillState : BackfillState
  backfillFrom : Nat
deriving DecidableEq

namespace SubRow

def key (e : SubRow) : MemberId × Path := (e.member, e.path)

-- a PRED_ONLY request; nothing if the predicate cannot be copied
def amendPred (r : SubscribeIn) (a : SubAllocs) (e : SubRow) : Option SubRow :=
  (blobDup r.predEnc a.pred).map fun b => { e with predEnc := b }

-- a TYPE_ONLY request
def amendType (r : SubscribeIn) (a : SubAllocs) (e : SubRow) : Option SubRow :=
  (blobDup r.typeEnc a.type).map fun b => { e with wantTypeEnc := b }

def stage (start : Nat) (e : SubRow) : SubRow :=
  if start ≠ uint64Max then { e with backfillState := .staged, backfillFrom := start } else e

/-- A subscribe that finds the entry. -/
def resubscribe (r : SubscribeIn) (a : SubAllocs) (e : SubRow) : SubRow :=
  let e := { e with
    dcplEnc := (blobDup r.dcplEnc a.dcpl).getD e.dcplEnc, selStart := r.selStart, selCount := r.selCount
    spaceEnc := (blobDup r.spaceEnc a.space).getD e.spaceEnc, predEnc := [], wantTypeEnc := [] }
  e.stage r.startStep

/-- The entry a subscribe makes. -/
def made (r : SubscribeIn) (dcplEnc spaceEnc : Bytes) : SubRow :=
  stage r.startStep ⟨r.member, r.path, r.selStart, r.selCount, dcplEnc, [], spaceEnc, [], .live, 0⟩

end SubRow

structure SubTable where
  rows : List SubRow
  cap : Nat
deriving DecidableEq

/-- The loop over the table: the first entry of the member and the path is amended, unless that fails. -/
def amendFirst (k : MemberId × Path) (f : SubRow → Option SubRow) : List SubRow → List SubRow × Bool
  | [] => ([], false)
  | e :: rows =>
    if e.key = k then
      match f e with
      | none => (e :: rows, false)
      | some e' => (e' :: rows, true)
    else
      let rest := amendFirst k f rows
      (e :: rest.1, rest.2)

/-- What changes the table: a request; a departure, or a move to another address (`vs_membership_cb`); and
`vs_tr_writer_take_backfill`, for the paths of a member it gathered. -/
inductive SubEvent where
  | request (r : SubscribeIn) (a : SubAllocs)
  | left (member : MemberId)
  | taken (member : MemberId) (paths : List Path)

namespace SubTable

def empty : SubTable := ⟨[], 0⟩

-- a full table doubles
def grown (t : SubTable) (granted : Bool) : Nat :=
  if t.rows.length = t.cap ∧ granted = true then if t.cap = 0 then 8 else t.cap * 2 else t.cap

/-- A new entry at the end. -/
def append (t : SubTable) (r : SubscribeIn) (a : SubAllocs) : SubTable × Bool :=
  if t.rows.length < t.grown a.table then
    match a.path, blobDup r.dcplEnc a.dcpl, blobDup r.spaceEnc a.space with
    | true, some dcplEnc, some spaceEnc => (⟨t.rows ++ [.made r dcplEnc spaceEnc], t.grown a.table⟩, true)
    | _, _, _ => (⟨t.rows, t.grown a.table⟩, false)
  else (⟨t.rows, t.grown a.table⟩, false)

-- every staged entry of the member
def release (t : SubTable) (member : MemberId) : SubTable × Bool :=
  (⟨t.rows.map fun e => if e.member = member ∧ e.backfillState = .staged then { e with backfillState := .released } else e, t.cap⟩,
    t.rows.any fun e => decide (e.member = member ∧ e.backfillState = .staged))

/-- `vs_subscribe_ult` on the writer: the table, and `matched`. -/
def subscribeUlt (t : SubTable) (r : SubscribeIn) (a : SubAllocs) : SubTable × Bool :=
  if r.fromOnly then t.release r.member
  else
    let q := amendFirst r.key
      (fun e => if r.predOnly then e.amendPred r a else if r.typeOnly then e.amendType r a else some (e.resubscribe r a)) t.rows
    if !q.2 && !r.predOnly && !r.typeOnly then append ⟨q.1, t.cap⟩ r a else (⟨q.1, t.cap⟩, q.2)

/-- The table after an event, and whether a request was matched. -/
def step (t : SubTable) : SubEvent → SubTable × Bool
  | .request r a => t.subscribeUlt r a
  | .left member => (⟨t.rows.filter (·.member ≠ member), t.cap⟩, true)
  | .taken member paths =>
    (⟨t.rows.map fun e =>
      if e.member = member ∧ e.backfillState = .released ∧ e.path ∈ paths then { e with backfillState := .live } else e, t.cap⟩, true)

end SubTable

/-! ## What the table is for -/

/-- Whether an entry is served live, or from which step it waits for its backfill. -/
inductive Staging where
  | live
  | staged (start : Nat)
  | released (start : Nat)
deriving DecidableEq, Repr

/-- A subscription, as a subscribe describes it and later requests amend it. -/
structure Described where
  selStart : Nat
  selCount : Nat
  dcplEnc : Bytes
  spaceEnc : Bytes
  predEnc : Bytes
  wantTypeEnc : Bytes
  staging : Staging
deriving DecidableEq

/-- A subscribe describes everything, and inherits nothing. -/
def SubscribeIn.described (r : SubscribeIn) : Described :=
  ⟨r.selStart, r.selCount, r.dcplEnc, r.spaceEnc, [], [], if r.plain then .live else .staged r.startStep⟩

def Described.release (v : Described) : Described :=
  match v.staging with
  | .staged start => { v with staging := .released start }
  | _ => v

def Described.take (v : Described) : Described :=
  match v.staging with
  | .released _ => { v with staging := .live }
  | _ => v

/-- The descriptions by member and path, in the order of the first subscribe. -/
abbrev Desk := Table (MemberId × Path) Described

namespace SubEvent

/-- The event is a subscribe of the key. -/
def subscribes (ev : SubEvent) (k : MemberId × Path) : Bool :=
  match ev with
  | .request r _ => r.kind = .subscribe ∧ r.key = k
  | _ => false

/-- The key's member goes. -/
def ends (ev : SubEvent) (k : MemberId × Path) : Bool :=
  match ev with
  | .left member => k.1 = member
  | _ => false

/-- What the event amends in a description. -/
def amends (ev : SubEvent) (k : MemberId × Path) (v : Described) : Described :=
  match ev with
  | .request r _ =>
    match r.kind with
    | .subscribe => v
    | .predicate => if k = r.key then { v with predEnc := r.predEnc } else v
    | .wantType => if k = r.key then { v with wantTypeEnc := r.typeEnc } else v
    | .release => if k.1 = r.member then v.release else v
  | .left _ => v
  | .taken member paths => if k.1 = member ∧ k.2 ∈ paths then v.take else v

end SubEvent

/-- The fold over the events; a request that was not matched is not one of them. -/
def Desk.apply (d : Desk) : SubEvent → Desk
  | .request r a => if r.kind = .subscribe then d.set r.key r.described else d.amend (SubEvent.request r a).amends
  | .left member => d.filter fun e => decide (e.1.1 ≠ member)
  | .taken member paths => d.amend (SubEvent.taken member paths).amends

def Desk.log (d : Desk) (e : SubEvent × Bool) : Desk := if e.2 then d.apply e.1 else d

/-- `backfill_state`; `backfill_from` means nothing where it is 0. -/
def stagingOf (state : BackfillState) (start : Nat) : Staging :=
  match state with
  | .live => .live
  | .staged => .staged start
  | .released => .released start

/-- What an entry says. -/
def SubRow.described (e : SubRow) : Described :=
  ⟨e.selStart, e.selCount, e.dcplEnc, e.spaceEnc, e.predEnc, e.wantTypeEnc, stagingOf e.backfillState e.backfillFrom⟩

def SubRow.entry (e : SubRow) : (MemberId × Path) × Described := (e.key, e.described)

/-- The table and the events it has seen, each with whether it was matched. -/
structure SubLedger where
  table : SubTable
  log : List (SubEvent × Bool)

namespace SubLedger

def start : SubLedger := ⟨.empty, []⟩

def step (s : SubLedger) (ev : SubEvent) : SubLedger :=
  let q := s.table.step ev
  ⟨q.1, s.log ++ [(ev, q.2)]⟩

def after (events : List SubEvent) : SubLedger := Runs.run step start events

def desk (s : SubLedger) : Desk := s.log.foldl Desk.log []

end SubLedger

/-- A description amended by what was matched later. -/
def amended (k : MemberId × Path) (log : List (SubEvent × Bool)) (v : Described) : Described :=
  log.foldl (fun v e => if e.2 then e.1.amends k v else v) v

/-- The entry is what the last subscribe of its key describes, amended by what came after it; its member has not left
since. A plain subscribe has made it live. -/
def SubRow.FromLast (e : SubRow) (log : List (SubEvent × Bool)) : Prop :=
  ∃ pre r a post, log = pre ++ (.request r a, true) :: post ∧ r.kind = .subscribe ∧ r.key = e.key ∧
    (∀ p ∈ post, p.2 = true → p.1.ends e.key = false ∧ p.1.subscribes e.key = false) ∧
    e.described = amended e.key post r.described ∧ (r.plain = true → e.backfillState = .live)

/-- The table is the fold of what it has seen. -/
structure SubLedger.Folds (s : SubLedger) : Prop where
  entries : s.table.rows.map SubRow.entry = s.desk
  unique : (s.table.rows.map SubRow.key).Nodup
  last : ∀ e ∈ s.table.rows, e.FromLast s.log

/-- A subscribe that finds an entry of its key leaves nothing of it: a plain one finds it live, and each blob that
cannot be copied is the one the entry has. -/
def SubTable.Afresh (t : SubTable) : SubEvent → Prop
  | .request r a => r.kind = .subscribe → ∀ e ∈ t.rows, e.key = r.key →
      (r.plain = true → e.backfillState = .live) ∧
      (r.dcplEnc ≠ [] → a.dcpl = false → e.dcplEnc = r.dcplEnc) ∧
      (r.spaceEnc ≠ [] → a.space = false → e.spaceEnc = r.spaceEnc)
  | _ => True

/-! ## The desk -/

/-- Where a description comes from: the event describes it, or amends what was there. -/
theorem Desk.find?_apply {d : Desk} {ev : SubEvent} {k : MemberId × Path} {v : Described}
    (h : (d.apply ev).find? k = some v) :
    (∃ r a, ev = .request r a ∧ r.kind = .subscribe ∧ r.key = k ∧ v = r.described) ∨
      (ev.ends k = false ∧ ev.subscribes k = false ∧ ∃ w, d.find? k = some w ∧ v = ev.amends k w) := by
  have hamend : (d.amend ev.amends).find? k = some v → ∃ w, d.find? k = some w ∧ v = ev.amends k w := by
    intro h
    rw [Table.find?_amend] at h
    obtain ⟨w, hw, hv⟩ := Option.map_eq_some_iff.mp h
    exact ⟨w, hw, hv.symm⟩
  cases ev with
  | request r a =>
    rw [Desk.apply] at h
    by_cases hkind : r.kind = .subscribe
    · rw [if_pos hkind, Table.find?_set] at h
      by_cases hk : r.key = k
      · rw [if_pos hk, Option.some.injEq] at h
        exact .inl ⟨r, a, rfl, hkind, hk, h.symm⟩
      · rw [if_neg hk] at h
        refine .inr ⟨rfl, decide_eq_false fun hsub => hk hsub.2, v, h, ?_⟩
        simp [SubEvent.amends, hkind]
    · rw [if_neg hkind] at h
      exact .inr ⟨rfl, decide_eq_false fun hsub => hkind hsub.1, hamend h⟩
  | left member =>
    have hkeep := Table.find?_filter d (fun k => decide (k.1 ≠ member)) k
    rw [Desk.apply, hkeep] at h
    by_cases hk : k.1 = member
    · simp [hk] at h
    · rw [if_pos (decide_eq_true hk)] at h
      exact .inr ⟨decide_eq_false hk, rfl, v, h, rfl⟩
  | taken member paths => exact .inr ⟨rfl, rfl, hamend h⟩

theorem Desk.nodup_apply {d : Desk} (h : d.keys.Nodup) (ev : SubEvent) : (d.apply ev).keys.Nodup := by
  cases ev with
  | request r a =>
    rw [Desk.apply]
    split
    · exact Table.nodup_keys_set h _ _
    · rwa [Table.keys_amend]
  | left member => exact (List.filter_sublist.map _).nodup h
  | taken member paths =>
    rw [Desk.apply, Table.keys_amend]
    exact h

theorem Desk.nodup_log {d : Desk} (h : d.keys.Nodup) (log : List (SubEvent × Bool)) :
    (log.foldl Desk.log d).keys.Nodup := by
  induction log generalizing d with
  | nil => exact h
  | cons e log ih =>
    rw [List.foldl_cons]
    apply ih
    rw [Desk.log]
    split
    · exact nodup_apply h e.1
    · exact h

/-- A description on the desk is the last subscribe's, amended by what was matched after it. -/
theorem Desk.find?_log {log : List (SubEvent × Bool)} {k : MemberId × Path} {v : Described}
    (h : Table.find? (log.foldl Desk.log []) k = some v) :
    ∃ pre r a post, log = pre ++ (.request r a, true) :: post ∧ r.kind = .subscribe ∧ r.key = k ∧
      (∀ p ∈ post, p.2 = true → p.1.ends k = false ∧ p.1.subscribes k = false) ∧ v = amended k post r.described := by
  induction log using List.reverseRecOn generalizing v with
  | nil => cases h
  | append_singleton log e ih =>
    obtain ⟨ev, matched⟩ := e
    -- an event that keeps the description, amended or not
    have hkeep : ∀ w, Table.find? (log.foldl Desk.log []) k = some w →
        (matched = true → ev.ends k = false ∧ ev.subscribes k = false) → v = (if matched then ev.amends k w else w) →
        ∃ pre r a post, log ++ [(ev, matched)] = pre ++ (.request r a, true) :: post ∧ r.kind = .subscribe ∧ r.key = k ∧
          (∀ p ∈ post, p.2 = true → p.1.ends k = false ∧ p.1.subscribes k = false) ∧
          v = amended k post r.described := by
      intro w hw hmild hv
      obtain ⟨pre, r, a, post, hlog, hkind, hkey, hpost, hdesc⟩ := ih hw
      refine ⟨pre, r, a, post ++ [(ev, matched)], by rw [hlog, List.append_assoc, List.cons_append], hkind, hkey, ?_, ?_⟩
      · intro p hp
        rcases List.mem_append.mp hp with hp | hp
        · exact hpost p hp
        · rw [List.mem_singleton.mp hp]
          exact hmild
      · rw [amended, List.foldl_append, hv, hdesc]
        rfl
    rw [List.foldl_append, List.foldl_cons, List.foldl_nil, Desk.log] at h
    cases matched with
    | false => exact hkeep v h (fun hf => absurd hf Bool.false_ne_true) rfl
    | true =>
      simp only [if_true] at h
      rcases find?_apply h with ⟨r, a, rfl, hkind, hkey, hv⟩ | ⟨hends, hsub, w, hw, hv⟩
      · exact ⟨log, r, a, [], rfl, hkind, hkey, fun p hp => absurd hp List.not_mem_nil, hv⟩
      · exact hkeep w hw (fun _ => ⟨hends, hsub⟩) hv

/-- Nothing stages a description that a plain subscribe made. -/
theorem amended_live {k : MemberId × Path} {l : List (SubEvent × Bool)} {v : Described} (h : v.staging = .live) :
    (amended k l v).staging = .live := by
  induction l generalizing v with
  | nil => exact h
  | cons e l ih =>
    apply ih
    show (if e.2 then e.1.amends k v else v).staging = .live
    split
    · cases he : e.1 with
      | request r a =>
        rw [SubEvent.amends]
        cases r.kind with
        | subscribe => exact h
        | predicate => simp only; split <;> exact h
        | wantType => simp only; split <;> exact h
        | release =>
          simp only [Described.release, h]
          split <;> exact h
      | left member => exact h
      | taken member paths =>
        rw [SubEvent.amends]
        simp only [Described.take, h]
        split <;> exact h
    · exact h

/-! ## The handler keeps to the desk -/

theorem amendFirst_cases (k : MemberId × Path) (f : SubRow → Option SubRow) (rows : List SubRow) :
    (amendFirst k f rows = (rows, false) ∧ ∀ e ∈ rows, e.key = k → ∃ e ∈ rows, e.key = k ∧ f e = none) ∨
      ∃ pre e e' post, rows = pre ++ e :: post ∧ (∀ x ∈ pre, x.key ≠ k) ∧ e.key = k ∧ f e = some e' ∧
        amendFirst k f rows = (pre ++ e' :: post, true) := by
  induction rows with
  | nil => exact .inl ⟨rfl, nofun⟩
  | cons e rows ih =>
    rw [amendFirst]
    by_cases hk : e.key = k
    · rw [if_pos hk]
      cases hf : f e with
      | none => exact .inl ⟨rfl, fun _ _ _ => ⟨e, List.mem_cons_self, hk, hf⟩⟩
      | some e' => exact .inr ⟨[], e, e', rows, rfl, nofun, hk, hf, rfl⟩
    · rw [if_neg hk]
      rcases ih with ⟨hrest, hnone⟩ | ⟨pre, x, x', post, hrows, hpre, hx, hf, hrest⟩
      · rw [hrest]
        refine .inl ⟨rfl, fun x hx hxk => ?_⟩
        rcases List.mem_cons.mp hx with rfl | hx
        · exact absurd hxk hk
        · obtain ⟨y, hy, hyk, hfy⟩ := hnone x hx hxk
          exact ⟨y, List.mem_cons_of_mem _ hy, hyk, hfy⟩
      · rw [hrest]
        refine .inr ⟨e :: pre, x, x', post, by rw [hrows, List.cons_append], fun y hy => ?_, hx, hf, rfl⟩
        rcases List.mem_cons.mp hy with rfl | hy
        · exact hk
        · exact hpre y hy

section step

variable {rows : List SubRow}

theorem keys_entries (rows : List SubRow) : Table.keys (rows.map SubRow.entry) = rows.map SubRow.key := by
  rw [Table.keys, List.map_map]
  rfl

theorem not_mem_keys {k : MemberId × Path} (h : ∀ e ∈ rows, e.key ≠ k) : k ∉ Table.keys (rows.map SubRow.entry) := by
  rw [keys_entries]
  intro hk
  obtain ⟨e, he, hek⟩ := List.mem_map.mp hk
  exact h e he hek

/-- Amending the one entry of a key, on both sides. -/
theorem entries_amend {f : MemberId × Path → Described → Described} {k : MemberId × Path}
    (hnodup : (rows.map SubRow.key).Nodup) (hf : ∀ k' v, k' ≠ k → f k' v = v) {pre post : List SubRow} {e e' : SubRow}
    (hrows : rows = pre ++ e :: post) (hk : e.key = k) (hk' : e'.key = k) (he' : e'.described = f k e.described) :
    (pre ++ e' :: post).map SubRow.entry = Table.amend f (rows.map SubRow.entry) := by
  subst hrows
  rw [List.map_append, List.map_cons, List.nodup_append, List.nodup_cons] at hnodup
  obtain ⟨-, ⟨hpost, -⟩, hpre⟩ := hnodup
  have hsame : ∀ x : SubRow, x.key ≠ k → (x.entry.1, f x.entry.1 x.entry.2) = x.entry := by
    intro x hx
    show (x.key, f x.key x.described) = x.entry
    rw [hf _ _ hx]
    rfl
  rw [Table.amend, List.map_map, List.map_append, List.map_append, List.map_cons, List.map_cons]
  congr 1
  · refine List.map_congr_left fun x hx => (hsame x fun hxk => ?_).symm
    exact hpre x.key (List.mem_map_of_mem hx) e.key List.mem_cons_self (hxk.trans hk.symm)
  · congr 1
    · show (e'.key, e'.described) = (e.key, f e.key e.described)
      rw [hk', hk, he']
    · refine List.map_congr_left fun x hx => (hsame x fun hxk => ?_).symm
      exact hpost (List.mem_map.mpr ⟨x, hx, hxk.trans hk.symm⟩)

/-- Amending entries one by one, on both sides. -/
theorem entries_map {f : MemberId × Path → Described → Described} {g : SubRow → SubRow}
    (hkey : ∀ e, (g e).key = e.key) (hg : ∀ e, (g e).described = f e.key e.described) :
    (rows.map g).map SubRow.entry = Table.amend f (rows.map SubRow.entry) := by
  rw [Table.amend, List.map_map, List.map_map]
  refine List.map_congr_left fun e _ => ?_
  show ((g e).key, (g e).described) = (e.key, f e.key e.described)
  rw [hkey, hg]

/-- A request that amends one entry, or none. -/
theorem amendFirst_entries {f : SubRow → Option SubRow} {g : MemberId × Path → Described → Described}
    {k : MemberId × Path} (hnodup : (rows.map SubRow.key).Nodup) (hg : ∀ k' v, k' ≠ k → g k' v = v)
    (hf : ∀ e e', e.key = k → f e = some e' → e'.key = k ∧ e'.described = g k e.described) :
    if (amendFirst k f rows).2 = true then
      (amendFirst k f rows).1.map SubRow.entry = Table.amend g (rows.map SubRow.entry)
    else (amendFirst k f rows).1 = rows := by
  rcases amendFirst_cases k f rows with ⟨hq, -⟩ | ⟨pre, e, e', post, hrows, -, hk, he, hq⟩
  · rw [hq]
    exact rfl
  · rw [hq]
    obtain ⟨hk', hdesc⟩ := hf e e' hk he
    exact entries_amend hnodup hg hrows hk hk' hdesc

theorem described_amendPred {r : SubscribeIn} {a : SubAllocs} {e e' : SubRow} (h : e.amendPred r a = some e') :
    e'.key = e.key ∧ e'.described = { e.described with predEnc := r.predEnc } := by
  unfold SubRow.amendPred blobDup at h
  split at h
  · rename_i hnil
    cases h
    exact ⟨rfl, by rw [hnil]; rfl⟩
  · split at h
    · cases h
      exact ⟨rfl, rfl⟩
    · cases h

theorem described_amendType {r : SubscribeIn} {a : SubAllocs} {e e' : SubRow} (h : e.amendType r a = some e') :
    e'.key = e.key ∧ e'.described = { e.described with wantTypeEnc := r.typeEnc } := by
  unfold SubRow.amendType blobDup at h
  split at h
  · rename_i hnil
    cases h
    exact ⟨rfl, by rw [hnil]; rfl⟩
  · split at h
    · cases h
      exact ⟨rfl, rfl⟩
    · cases h

theorem blobDup_some {b c : Bytes} {granted : Bool} (h : blobDup b granted = some c) : c = b := by
  unfold blobDup at h
  split at h
  · rename_i hnil
    cases h
    exact hnil.symm
  · split at h
    · cases h
      rfl
    · cases h

/-- What a copy leaves behind is the blob, or the old one when it could not be made. -/
theorem blobDup_getD_eq_iff (b old : Bytes) (granted : Bool) :
    (blobDup b granted).getD old = b ↔ (b ≠ [] → granted = false → old = b) := by
  unfold blobDup
  by_cases hb : b = []
  · simp [hb]
  · cases granted with
    | true => simp [hb]
    | false => simp [hb]

theorem key_resubscribe (r : SubscribeIn) (a : SubAllocs) (e : SubRow) : (e.resubscribe r a).key = e.key := by
  unfold SubRow.resubscribe SubRow.stage
  simp only
  split <;> rfl

theorem stagingOf_eq_live (state : BackfillState) (start : Nat) : stagingOf state start = .live ↔ state = .live := by
  cases state <;> simp [stagingOf]

/-- An entry is described afresh exactly when nothing of it is left. -/
theorem described_resubscribe_iff (r : SubscribeIn) (a : SubAllocs) (e : SubRow) :
    (e.resubscribe r a).described = r.described ↔
      (r.plain = true → e.backfillState = .live) ∧ (r.dcplEnc ≠ [] → a.dcpl = false → e.dcplEnc = r.dcplEnc) ∧
        (r.spaceEnc ≠ [] → a.space = false → e.spaceEnc = r.spaceEnc) := by
  rw [← blobDup_getD_eq_iff, ← blobDup_getD_eq_iff]
  by_cases hplain : r.startStep = uint64Max
  · have hp : r.plain = true := decide_eq_true hplain
    simp only [SubRow.resubscribe, SubRow.stage, hplain, ne_eq, not_true_eq_false, if_false, SubRow.described,
      SubscribeIn.described, hp, if_true, Described.mk.injEq, true_and, stagingOf_eq_live, forall_const]
    constructor
    · rintro ⟨hd, hs, hst⟩
      exact ⟨hst, hd, hs⟩
    · rintro ⟨hst, hd, hs⟩
      exact ⟨hd, hs, hst⟩
  · have hp : r.plain = false := decide_eq_false hplain
    simp only [SubRow.resubscribe, SubRow.stage, ne_eq, hplain, not_false_eq_true, if_true, SubRow.described,
      SubscribeIn.described, hp, Bool.false_eq_true, if_false, Described.mk.injEq, true_and, stagingOf, and_true,
      false_imp_iff]

theorem described_made (r : SubscribeIn) : (SubRow.made r r.dcplEnc r.spaceEnc).described = r.described := by
  by_cases hplain : r.startStep = uint64Max
  · have hp : r.plain = true := decide_eq_true hplain
    simp [SubRow.made, SubRow.stage, hplain, SubRow.described, SubscribeIn.described, hp, stagingOf]
  · have hp : r.plain = false := decide_eq_false hplain
    simp [SubRow.made, SubRow.stage, hplain, SubRow.described, SubscribeIn.described, hp, stagingOf]

theorem key_made (r : SubscribeIn) (dcplEnc spaceEnc : Bytes) : (SubRow.made r dcplEnc spaceEnc).key = r.key := by
  unfold SubRow.made SubRow.stage
  split <;> rfl

/-- A new entry is what the request describes, or there is none and the request is not matched. -/
theorem append_cases (t : SubTable) (r : SubscribeIn) (a : SubAllocs) :
    (t.append r a).1.rows = t.rows ++ [.made r r.dcplEnc r.spaceEnc] ∧ (t.append r a).2 = true ∨
      (t.append r a).1.rows = t.rows ∧ (t.append r a).2 = false := by
  unfold SubTable.append
  split
  · split
    · rename_i dcplEnc spaceEnc hpath hdcpl hspace
      rw [blobDup_some hdcpl, blobDup_some hspace]
      exact .inl ⟨rfl, rfl⟩
    · exact .inr ⟨rfl, rfl⟩
  · exact .inr ⟨rfl, rfl⟩

theorem described_release (member : MemberId) (e : SubRow) :
    (if e.member = member ∧ e.backfillState = .staged then { e with backfillState := .released } else e : SubRow).described =
      if e.key.1 = member then e.described.release else e.described := by
  have hkey : e.key.1 = e.member := rfl
  rw [hkey]
  by_cases hm : e.member = member
  · cases hs : e.backfillState <;> simp [hm, hs, SubRow.described, stagingOf, Described.release]
  · simp [hm]

theorem described_take (member : MemberId) (paths : List Path) (e : SubRow) :
    (if e.member = member ∧ e.backfillState = .released ∧ e.path ∈ paths then { e with backfillState := .live }
      else e : SubRow).described =
      if e.key.1 = member ∧ e.key.2 ∈ paths then e.described.take else e.described := by
  have hkey : e.key = (e.member, e.path) := rfl
  rw [hkey]
  by_cases hm : e.member = member ∧ e.path ∈ paths
  · cases hs : e.backfillState <;> simp [hm.1, hm.2, hs, SubRow.described, stagingOf, Described.take]
  · have hno : ¬(e.member = member ∧ e.backfillState = .released ∧ e.path ∈ paths) := fun h => hm ⟨h.1, h.2.2⟩
    rw [if_neg hno, if_neg hm]

end step

section request

variable {t : SubTable} (hnodup : (t.rows.map SubRow.key).Nodup) {r : SubscribeIn} (a : SubAllocs)

/-- A release leaves the table as the desk would have it; when nothing was staged it leaves it as it was. -/
theorem release_entries (hkind : r.kind = .release) :
    (t.release r.member).1.rows.map SubRow.entry =
      Desk.log (t.rows.map SubRow.entry) (.request r a, (t.release r.member).2) := by
  have hamends : (SubEvent.request r a).amends = fun k v => if k.1 = r.member then v.release else v := by
    funext k v
    rw [SubEvent.amends, hkind]
  have hentries : (t.release r.member).1.rows.map SubRow.entry =
      Table.amend (SubEvent.request r a).amends (t.rows.map SubRow.entry) := by
    rw [hamends]
    refine entries_map (fun e => ?_) (described_release r.member)
    split <;> rfl
  rw [Desk.log]
  cases hany : (t.release r.member).2 with
  | true =>
    rw [if_pos rfl, Desk.apply, if_neg (by rw [hkind]; decide)]
    exact hentries
  | false =>
    rw [if_neg Bool.false_ne_true]
    have hnone : ∀ e ∈ t.rows, ¬(e.member = r.member ∧ e.backfillState = .staged) := by
      simpa [SubTable.release] using hany
    refine congrArg (List.map SubRow.entry) ?_
    show t.rows.map _ = t.rows
    refine (List.map_congr_left fun e he => ?_).trans (List.map_id t.rows)
    rw [if_neg (hnone e he)]
    rfl

include hnodup

/-- An amendment of one entry. -/
theorem amend_entries (f : SubRow → Option SubRow) (hkind : r.kind ≠ .subscribe)
    (hother : ∀ k' v, k' ≠ r.key → (SubEvent.request r a).amends k' v = v)
    (hf : ∀ e e', e.key = r.key → f e = some e' →
      e'.key = r.key ∧ e'.described = (SubEvent.request r a).amends r.key e.described) :
    (amendFirst r.key f t.rows).1.map SubRow.entry =
      Desk.log (t.rows.map SubRow.entry) (.request r a, (amendFirst r.key f t.rows).2) := by
  have hspec := amendFirst_entries hnodup hother hf
  rw [Desk.log]
  cases hq : (amendFirst r.key f t.rows).2 with
  | true =>
    rw [if_pos hq] at hspec
    rw [if_pos rfl, Desk.apply, if_neg hkind, hspec]
  | false =>
    rw [if_neg (by rw [hq]; exact Bool.false_ne_true)] at hspec
    rw [if_neg Bool.false_ne_true, hspec]

/-- A subscribe makes an entry, makes none, or describes the one there is; only the last may leave something of it. -/
theorem subscribe_entries_iff (hkind : r.kind = .subscribe) :
    let q := amendFirst r.key (fun e => some (e.resubscribe r a)) t.rows
    let left := if !q.2 then SubTable.append ⟨q.1, t.cap⟩ r a else (⟨q.1, t.cap⟩, q.2)
    left.1.rows.map SubRow.entry = Desk.log (t.rows.map SubRow.entry) (.request r a, left.2) ↔ t.Afresh (.request r a) := by
  have happly : (Desk.apply (t.rows.map SubRow.entry) (.request r a)) =
      Table.set (t.rows.map SubRow.entry) r.key r.described := if_pos hkind
  rcases amendFirst_cases r.key (fun e => some (e.resubscribe r a)) t.rows with
    ⟨hq, hnone⟩ | ⟨pre, e, e', post, hrows, hpre, hk, he', hq⟩
  · -- no entry of the key
    have habsent : ∀ e ∈ t.rows, e.key ≠ r.key := by
      intro e he hk
      obtain ⟨x, -, -, hx⟩ := hnone e he hk
      cases hx
    simp only [hq, Bool.not_false, if_true]
    refine iff_of_true ?_ fun _ e he hk => absurd hk (habsent e he)
    rcases append_cases ⟨t.rows, t.cap⟩ r a with ⟨hrows, hmatched⟩ | ⟨hrows, hmatched⟩
    · rw [hrows, hmatched, Desk.log, if_pos rfl, happly, Table.set_of_not_mem (not_mem_keys habsent), List.map_append,
        List.map_singleton, SubRow.entry, key_made, described_made]
    · rw [hrows, hmatched]
      rfl
  · -- the entry of the key
    cases he'
    simp only [hq, Bool.not_true, Bool.false_eq_true, if_false]
    rw [Desk.log, if_pos rfl, happly]
    have hkeys : r.key ∉ Table.keys (pre.map SubRow.entry) := not_mem_keys hpre
    have hset : Table.set (t.rows.map SubRow.entry) r.key r.described =
        pre.map SubRow.entry ++ (r.key, r.described) :: post.map SubRow.entry := by
      rw [hrows, List.map_append, List.map_cons, SubRow.entry, hk]
      exact Table.set_append_cons hkeys r.described e.described
    have honly : ∀ x ∈ t.rows, x.key = r.key → x = e := by
      intro x hx hxk
      have hemem : e ∈ t.rows := by rw [hrows]; simp
      exact List.inj_on_of_nodup_map hnodup hx hemem (hxk.trans hk.symm)
    have hafresh : t.Afresh (.request r a) ↔ (e.resubscribe r a).described = r.described := by
      rw [described_resubscribe_iff]
      constructor
      · exact fun h => h hkind e (by rw [hrows]; simp) hk
      · intro h _ x hx hxk
        rw [honly x hx hxk]
        exact h
    rw [hset, hafresh, List.map_append, List.map_cons, SubRow.entry, key_resubscribe, hk]
    simp

end request

/-- An event leaves the table as the desk would have it, if and only if it finds nothing that a subscribe would
inherit. -/
theorem step_entries_iff {t : SubTable} (hnodup : (t.rows.map SubRow.key).Nodup) (ev : SubEvent) :
    (t.step ev).1.rows.map SubRow.entry = Desk.log (t.rows.map SubRow.entry) (ev, (t.step ev).2) ↔ t.Afresh ev := by
  cases ev with
  | left member =>
    refine iff_of_true ?_ trivial
    show (t.rows.filter _).map SubRow.entry = (t.rows.map SubRow.entry).filter _
    rw [List.filter_map]
    rfl
  | taken member paths =>
    refine iff_of_true (entries_map (f := (SubEvent.taken member paths).amends) (fun e => ?_) (described_take member paths))
      trivial
    split <;> rfl
  | request r a =>
    show (t.subscribeUlt r a).1.rows.map SubRow.entry =
      Desk.log (t.rows.map SubRow.entry) (.request r a, (t.subscribeUlt r a).2) ↔ _
    unfold SubTable.subscribeUlt
    cases hfrom : r.fromOnly with
    | true =>
      have hkind : r.kind = .release := by rw [SubscribeIn.kind, hfrom, if_pos rfl]
      refine iff_of_true (release_entries a hkind) fun h => ?_
      rw [hkind] at h
      cases h
    | false =>
      cases hpred : r.predOnly with
      | true =>
        have hkind : r.kind = .predicate := by simp [SubscribeIn.kind, hfrom, hpred]
        simp only [Bool.false_eq_true, if_false, if_true, Bool.not_true, Bool.and_false, Bool.false_and]
        refine iff_of_true (amend_entries hnodup a (fun e => e.amendPred r a) (by rw [hkind]; decide) ?_ ?_) fun h => ?_
        · intro k' v hk'
          simp [SubEvent.amends, hkind, hk']
        · intro e e' hk he'
          obtain ⟨hkey, hdesc⟩ := described_amendPred he'
          exact ⟨hkey.trans hk, by simp [SubEvent.amends, hkind, hdesc]⟩
        · rw [hkind] at h
          cases h
      | false =>
        cases htype : r.typeOnly with
        | true =>
          have hkind : r.kind = .wantType := by simp [SubscribeIn.kind, hfrom, hpred, htype]
          simp only [Bool.false_eq_true, if_false, if_true, Bool.not_true, Bool.and_false]
          refine iff_of_true (amend_entries hnodup a (fun e => e.amendType r a) (by rw [hkind]; decide) ?_ ?_) fun h => ?_
          · intro k' v hk'
            simp [SubEvent.amends, hkind, hk']
          · intro e e' hk he'
            obtain ⟨hkey, hdesc⟩ := described_amendType he'
            exact ⟨hkey.trans hk, by simp [SubEvent.amends, hkind, hdesc]⟩
          · rw [hkind] at h
            cases h
        | false =>
          have hkind : r.kind = .subscribe := by simp [SubscribeIn.kind, hfrom, hpred, htype]
          simp only [Bool.false_eq_true, if_false, Bool.not_false, Bool.and_true]
          exact subscribe_entries_iff hnodup a hkind

theorem SubLedger.folds_of_entries {s : SubLedger} (h : s.table.rows.map SubRow.entry = s.desk) : s.Folds := by
  have hkeys : (s.table.rows.map SubRow.key).Nodup := by
    rw [← keys_entries, h]
    exact Desk.nodup_log (d := []) List.nodup_nil s.log
  refine ⟨h, hkeys, fun e he => ?_⟩
  have hfind : s.desk.find? e.key = some e.described := by
    rw [← h, Table.find?_eq_some_iff (by rw [keys_entries]; exact hkeys)]
    exact List.mem_map_of_mem (f := SubRow.entry) he
  obtain ⟨pre, r, a, post, hlog, hkind, hkey, hpost, hdesc⟩ := Desk.find?_log hfind
  refine ⟨pre, r, a, post, hlog, hkind, hkey, hpost, hdesc, fun hplain => ?_⟩
  have hlive : r.described.staging = .live := by rw [SubscribeIn.described, if_pos hplain]
  have := amended_live (k := e.key) (l := post) hlive
  rw [← hdesc] at this
  exact (stagingOf_eq_live _ _).mp this

theorem SubLedger.step_folds_iff {s : SubLedger} (h : s.Folds) (ev : SubEvent) :
    (s.step ev).Folds ↔ s.table.Afresh ev := by
  have hdesk : (s.step ev).desk = Desk.log (s.table.rows.map SubRow.entry) (ev, (s.table.step ev).2) := by
    rw [h.entries, desk, desk, SubLedger.step, List.foldl_append]
    rfl
  rw [← step_entries_iff h.unique ev, ← hdesk]
  exact ⟨fun hf => hf.entries, fun he => folds_of_entries he⟩

/-- For every sequence of events, from the empty table: the table is the fold of the requests and departures in every
state reached, if and only if no subscribe finds an entry it would inherit something from. -/
theorem subTable_folds_iff (events : List SubEvent) :
    (∀ k ≤ events.length, (SubLedger.after (events.take k)).Folds) ↔
      Runs.Meets SubLedger.step (fun s ev => s.table.Afresh ev) .start events := by
  have hstart : SubLedger.start.Folds := SubLedger.folds_of_entries rfl
  suffices h : ∀ s : SubLedger, s.Folds →
      ((∀ k ≤ events.length, (Runs.run SubLedger.step s (events.take k)).Folds) ↔
        Runs.Meets SubLedger.step (fun s ev => s.table.Afresh ev) s events) from h _ hstart
  induction events with
  | nil => exact fun s hs => iff_of_true (fun k _ => by rwa [List.take_nil, Runs.run_nil]) trivial
  | cons ev events ih =>
    intro s hs
    constructor
    · intro h
      have hfirst : (s.step ev).Folds := h 1 (Nat.le_add_left 1 _)
      refine ⟨(SubLedger.step_folds_iff hs ev).mp hfirst, (ih _ hfirst).mp fun k hk => ?_⟩
      exact h (k + 1) (Nat.succ_le_succ hk)
    · rintro ⟨hfresh, hrest⟩ k hk
      have hfirst := (SubLedger.step_folds_iff hs ev).mpr hfresh
      cases k with
      | zero => exact hs
      | succ k => exact (ih _ hfirst).mpr hrest k (Nat.le_of_succ_le_succ hk)

-- a subscribe of `/a` from a start step on, and a plain one before the first is released
def stagedThenPlain : List SubEvent :=
  [.request ⟨7, ['/', 'a'], 0, uint64Max, [], 0, [], [], [], 0⟩ .granted,
    .request ⟨7, ['/', 'a'], 0, uint64Max, [], 0, [], [], [], uint64Max⟩ .granted]

/-- The plain subscribe leaves the entry staged, and the path is not live. -/
theorem stagedThenPlain_not_fold :
    ¬∀ events : List SubEvent, ∀ k ≤ events.length, (SubLedger.after (events.take k)).Folds := by
  intro h
  have hentries := (h stagedThenPlain 2 (by decide)).entries
  revert hentries
  decide

end VolStream
