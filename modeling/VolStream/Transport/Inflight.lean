import VolStream.Lib.Custody
import VolStream.Lib.Run
import VolStream.Transport.Routing

/-!
# Pushes in flight

The writer issues a push and completes it later. A large payload is not copied but registered, and the subscriber
pulls it while the push is out: from a payload the push owns, or from memory of the caller, through a registration of
its own or one shared by a whole region. What must not be freed yet is kept by the push, or put on a list of deferred
frees that `vs_tr_writer_release_sources` clears.

`Pushes` is that part of `vs_tr_t`. Its `log` is what the calls did with requests, handles, registrations and memory,
in order; it is no state of the code.
-/

namespace VolStream

/-! ## State -/

/-- What a push can hold: a heap block, a registration, a call handle. -/
inductive Held where
  | block (p : Nat)
  | bulk (b : Nat)
  | handle (h : Nat)
deriving DecidableEq, Repr

def Held.block? : Held → Option Nat
  | .block p => some p
  | _ => none

abbrev PushEvent := Custody.Event Nat Held

-- `vs_tr_region_t`
structure Region where
  base : Nat
  len : Nat
  bulk : Option Nat
deriving DecidableEq, Repr

def Region.covers (p len : Nat) (r : Region) : Bool := r.base ≤ p ∧ p + len ≤ r.base + r.len

def Region.held (r : Region) : List Held := r.bulk.toList.map .bulk

/-- `vs_tr_inflight_t`. -/
structure InflightPush where
  handle : Nat
  req : Nat
  owned : Option Nat
  member : MemberId
  bulk : Option Nat
  borrowed : Bool
deriving DecidableEq, Repr

-- in the order `vs_tr_drain_one` frees them
def InflightPush.held (e : InflightPush) : List Held :=
  .handle e.handle :: (e.bulk.toList.map .bulk ++ e.owned.toList.map .block)

/-- `fresh` is the next name Margo hands out. -/
structure Pushes where
  inflight : List InflightPush
  capInflight : Nat
  nBorrowedBulk : Nat
  failed : List MemberId
  capFailed : Nat
  regions : List Region
  capRegions : Nat
  deferred : List Nat
  capDeferred : Nat
  bulkThreshold : Nat
  testDropPush : Option Nat
  nPushesIssued : Nat
  bytesPushed : Nat
  fresh : Nat
  log : List PushEvent

def maxInflightPushes : Nat := 256

namespace Pushes

def start (bulkThreshold : Nat) (testDropPush : Option Nat) : Pushes where
  inflight := []
  capInflight := 0
  nBorrowedBulk := 0
  failed := []
  capFailed := 0
  regions := []
  capRegions := 0
  deferred := []
  capDeferred := 0
  bulkThreshold := bulkThreshold
  testDropPush := testDropPush
  nPushesIssued := 0
  bytesPushed := 0
  fresh := 0
  log := []

def emit (e : PushEvent) (tr : Pushes) : Pushes := { tr with log := tr.log ++ [e] }

def emits (es : List PushEvent) (tr : Pushes) : Pushes := { tr with log := tr.log ++ es }

-- the capacity after `realloc`, which is asked only when the list is full
def grown (n cap first : Nat) : Nat := if n = cap then if cap = 0 then first else cap * 2 else cap

/-! ## The list of pushes in flight -/

/-- `vs_tr_inflight_add`; none when the list could not be grown. -/
def inflightAdd (e : InflightPush) (growFails : Bool) (tr : Pushes) : Option Pushes :=
  if tr.inflight.length = tr.capInflight ∧ growFails then none
  else
    let tr := emit (.recorded e.req) tr
    some { tr with
      inflight := tr.inflight ++ [e]
      capInflight := grown tr.inflight.length tr.capInflight 8
      nBorrowedBulk := if e.borrowed then tr.nBorrowedBulk + 1 else tr.nBorrowedBulk }

-- `vs_tr_member_failed`
def memberFailed (member : MemberId) (tr : Pushes) : Bool := tr.failed.contains member

/-- `vs_tr_member_failed_add`. -/
def memberFailedAdd (member : MemberId) (growFails : Bool) (tr : Pushes) : Pushes :=
  if tr.memberFailed member then tr
  else if tr.failed.length = tr.capFailed ∧ growFails then tr
  else { tr with failed := tr.failed ++ [member], capFailed := grown tr.failed.length tr.capFailed 4 }

/-- What becomes of the requests a drain waits for: the ones that fail, and the ones whose member could then not be
noted. -/
structure WaitEnv where
  waitFails : Nat → Bool
  noteFails : Nat → Bool

/-- `vs_tr_drain_one`. -/
def drainOne (env : WaitEnv) (tr : Pushes) : Pushes :=
  match tr.inflight with
  | [] => tr
  | e :: rest =>
    let tr := emit (.completed e.req) tr
    let tr := if env.waitFails e.req then memberFailedAdd e.member (env.noteFails e.req) tr else tr
    let tr := emits (e.held.map .freed) tr
    { tr with
      inflight := rest
      nBorrowedBulk := if e.borrowed then tr.nBorrowedBulk - 1 else tr.nBorrowedBulk }

-- every pass takes one push off the list, so its length is enough fuel
def drainWhile (cond : Pushes → Bool) (env : WaitEnv) : Nat → Pushes → Pushes
  | 0, tr => tr
  | n + 1, tr => if cond tr then drainWhile cond env n (drainOne env tr) else tr

def outstanding (tr : Pushes) : Bool := 0 < tr.inflight.length

/-- `vs_tr_drain_pushes`. -/
def drainPushes (env : WaitEnv) (tr : Pushes) : Pushes := drainWhile outstanding env tr.inflight.length tr

def borrowing (tr : Pushes) : Bool := 0 < tr.nBorrowedBulk ∧ 0 < tr.inflight.length

/-- `vs_tr_drain_borrowed`. -/
def drainBorrowed (env : WaitEnv) (tr : Pushes) : Pushes := drainWhile borrowing env tr.inflight.length tr

/-! ## Regions and deferred frees -/

/-- `vs_tr_region_add`. -/
def regionAdd (base len : Nat) (growFails : Bool) (tr : Pushes) : Pushes :=
  if base = 0 ∨ len = 0 then tr
  else if tr.regions.any fun r => r.base = base ∧ r.len = len then tr
  else if tr.regions.length = tr.capRegions ∧ growFails then tr
  else { tr with
    regions := tr.regions ++ [⟨base, len, none⟩]
    capRegions := grown tr.regions.length tr.capRegions 8 }

/-- `vs_tr_region_bulk`: the registration of the first region that covers the slice, and the slice's offset there. -/
def regionBulk (p len : Nat) (createFails : Bool) (tr : Pushes) : Pushes × Option (Nat × Nat) :=
  match tr.regions.span fun r => !r.covers p len with
  | (_, []) => (tr, none)
  | (skipped, r :: rest) =>
    match r.bulk with
    | some b => (tr, some (b, p - r.base))
    | none =>
      if createFails then (tr, none)
      else
        let b := tr.fresh
        let tr := emit (.shared (.bulk b)) tr
        ({ tr with regions := skipped ++ { r with bulk := some b } :: rest, fresh := b + 1 }, some (b, p - r.base))

-- `regions[i] = regions[--n_regions]`
def swapRemove (l : List Region) (i : Nat) : List Region :=
  match l.getLast? with
  | none => l
  | some last => l.dropLast.set i last

/-- The loop of `vs_tr_defer_free` over the regions, from index `i`: those at `p` are dropped. -/
def dropRegions (p : Nat) : Nat → Nat → Pushes → Pushes
  | 0, _, tr => tr
  | n + 1, i, tr =>
    match tr.regions[i]? with
    | none => tr
    | some r =>
      if r.base = p then
        let tr := emits (r.held.map .released) tr
        dropRegions p n i { tr with regions := swapRemove tr.regions i }
      else dropRegions p n (i + 1) tr

/-- `vs_tr_defer_free`. -/
def deferFree (p : Nat) (growFails : Bool) (env : WaitEnv) (tr : Pushes) : Pushes :=
  if p = 0 then tr
  else
    let tr := emit (.shared (.block p)) tr
    if tr.deferred.length = tr.capDeferred ∧ growFails then
      -- it cannot be recorded: complete the pulls, drop its region, free
      let tr := drainBorrowed env tr
      let tr := dropRegions p tr.regions.length 0 tr
      emit (.released (.block p)) tr
    else { tr with
      deferred := tr.deferred ++ [p]
      capDeferred := grown tr.deferred.length tr.capDeferred 8 }

/-- `vs_tr_writer_release_sources`. -/
def releaseSources (env : WaitEnv) (tr : Pushes) : Pushes :=
  let tr := drainBorrowed env tr
  let tr := { emits ((tr.regions.flatMap Region.held).map .released) tr with regions := [] }
  { emits ((tr.deferred.map Held.block).map .released) tr with deferred := [] }

/-! ## Issuing a push -/

/-- The arguments of `vs_tr_push_one_item` its bookkeeping looks at. -/
structure PushItemArgs where
  member : MemberId
  payloadBuf : Nat
  payloadLen : Nat
  payloadOwned : Option Nat
deriving DecidableEq, Repr

/-- Which of the calls of one `vs_tr_push_one_item` fail: registering the region, or the payload alone; making the
call; forwarding it; growing the list. -/
structure PushEnv where
  regionFails : Bool
  bulkFails : Bool
  createFails : Bool
  forwardFails : Bool
  growFails : Bool
  wait : WaitEnv

/-- How the payload travels: in the message, or pulled from a registration at an offset. -/
inductive PayloadVia where
  | inline
  | bulk (b offset : Nat)
deriving DecidableEq, Repr

def PayloadVia.byBulk : PayloadVia → Bool
  | .inline => false
  | .bulk _ _ => true

/-- The registration half of `vs_tr_push_one_item`: how the payload travels, and the registration of its own the push
has then. -/
def registerPayload (a : PushItemArgs) (env : PushEnv) (tr : Pushes) : Pushes × PayloadVia × Option Nat :=
  if 0 < a.payloadLen ∧ tr.bulkThreshold ≤ a.payloadLen then
    let (tr, use) :=
      if a.payloadOwned = none then regionBulk a.payloadBuf a.payloadLen env.regionFails tr else (tr, none)
    match use with
    | some (b, offset) => (tr, .bulk b offset, none)
    | none =>
      if env.bulkFails then (tr, .inline, none)
      else
        let b := tr.fresh
        ({ emit (.handed (.bulk b)) tr with fresh := b + 1 }, .bulk b 0, some b)
  else (tr, .inline, none)

/-- The second half, with whether the member is to be treated as unreachable. What is left to the function at its end
is freed there. -/
def forwardPush (a : PushItemArgs) (env : PushEnv) (via : PayloadVia) (bulk : Option Nat) (tr : Pushes) :
    Pushes × Bool :=
  let left := bulk.toList.map Held.bulk ++ a.payloadOwned.toList.map Held.block
  if env.createFails then (emits (left.map .freed) tr, true)
  else
    let handle := tr.fresh
    let tr := { emit (.handed (.handle handle)) tr with fresh := handle + 1 }
    if env.forwardFails then (emits ((.handle handle :: left).map .freed) tr, true)
    else
      let req := tr.fresh
      let pulls := via.byBulk && a.payloadOwned.isNone
      let tr := { emit (.issued ⟨req, .handle handle :: left, pulls⟩) tr with fresh := req + 1 }
      match inflightAdd ⟨handle, req, a.payloadOwned, a.member, bulk, pulls⟩ env.growFails tr with
      | some tr => (tr, tr.memberFailed a.member)
      | none =>
        let tr := emits ((.handle handle :: left).map .freed) (emit (.completedAtOnce req) tr)
        (tr, tr.memberFailed a.member)

/-- `vs_tr_push_one_item`. -/
def pushOneItem (a : PushItemArgs) (env : PushEnv) (tr : Pushes) : Pushes × Bool :=
  let owned := a.payloadOwned.toList.map Held.block
  let drop := tr.testDropPush = some tr.nPushesIssued
  let tr := { emits (owned.map .handed) tr with nPushesIssued := (tr.nPushesIssued + 1) % 2 ^ 64 }
  if drop then (emits (owned.map .freed) tr, false)
  else
    let tr := { tr with bytesPushed := (tr.bytesPushed + a.payloadLen) % 2 ^ 64 }
    let (tr, via, bulk) := registerPayload a env tr
    let tr := if tr.inflight.length ≥ maxInflightPushes then drainOne env.wait tr else tr
    forwardPush a env via bulk tr

/-! ## Runs -/

/-- A call on the writer's pushes. `newWrite` is `vs_tr_writer_push_data` clearing the failed members. -/
inductive PushCall where
  | push (a : PushItemArgs) (env : PushEnv)
  | drainOne (env : WaitEnv)
  | drainPushes (env : WaitEnv)
  | deferFree (p : Nat) (growFails : Bool) (env : WaitEnv)
  | releaseSources (env : WaitEnv)
  | regionAdd (base len : Nat) (growFails : Bool)
  | newWrite

def step (tr : Pushes) : PushCall → Pushes
  | .push a env => (pushOneItem a env tr).1
  | .drainOne env => drainOne env tr
  | .drainPushes env => drainPushes env tr
  | .deferFree p growFails env => deferFree p growFails env tr
  | .releaseSources env => releaseSources env tr
  | .regionAdd base len growFails => regionAdd base len growFails tr
  | .newWrite => { tr with failed := [] }

end Pushes

/-! ## The books of a state

Between calls nothing is due; in the middle of one, `due` is what the call still has to free, and `extra` what it
keeps that is on no list. -/

def InflightPush.loan (e : InflightPush) : Custody.Loan Nat Held := ⟨e.req, e.held, e.borrowed⟩

namespace Pushes

def kept (tr : Pushes) : Multiset Held := ↑(tr.deferred.map Held.block) + ↑(tr.regions.flatMap Region.held)

structure Accounted (due extra : Multiset Held) (tr : Pushes) : Prop where
  keeps : Custody.Keeps maxInflightPushes tr.log ⟨tr.inflight.map InflightPush.loan, none, due, extra + tr.kept⟩
  fresh : ∀ loan ∈ Custody.issues tr.log, loan.req < tr.fresh
  once : ((Custody.issues tr.log).map Custody.Loan.req).Nodup
  borrowed : tr.nBorrowedBulk = tr.inflight.countP InflightPush.borrowed

section Accounted

variable {due extra : Multiset Held} {tr : Pushes}

theorem accounted_start (bulkThreshold : Nat) (testDropPush : Option Nat) :
    (start bulkThreshold testDropPush).Accounted 0 0 where
  keeps := .start
  fresh := fun _ hmem => by cases hmem
  once := List.nodup_nil
  borrowed := rfl

/-- A call that issues nothing. -/
theorem Accounted.extend (h : tr.Accounted due extra) {due' extra' : Multiset Held} {tr' : Pushes}
    {es : List PushEvent} (hlog : tr'.log = tr.log ++ es) (hes : Custody.issues es = []) (hfresh : tr.fresh ≤ tr'.fresh)
    (hkeeps : Custody.Keeps maxInflightPushes tr'.log
      ⟨tr'.inflight.map InflightPush.loan, none, due', extra' + tr'.kept⟩)
    (hborrowed : tr'.nBorrowedBulk = tr'.inflight.countP InflightPush.borrowed) : tr'.Accounted due' extra' := by
  have hissues : Custody.issues tr'.log = Custody.issues tr.log := by
    rw [hlog, Custody.issues_append, hes, List.append_nil]
  refine ⟨hkeeps, fun loan hmem => ?_, ?_, hborrowed⟩
  · rw [hissues] at hmem
    exact Nat.lt_of_lt_of_le (h.fresh loan hmem) hfresh
  · rw [hissues]
    exact h.once

theorem Accounted.handAll (h : tr.Accounted due extra) (l : List Held) :
    (emits (l.map .handed) tr).Accounted (↑l + due) extra :=
  h.extend rfl (Custody.issues_handed l) (Nat.le_refl _) h.keeps.handAll h.borrowed

theorem Accounted.freeAll {l : List Held} (h : tr.Accounted (↑l + due) extra) :
    (emits (l.map .freed) tr).Accounted due extra :=
  h.extend rfl (Custody.issues_freed l) (Nat.le_refl _) h.keeps.freeAll h.borrowed

/-- No push in flight pulls from memory the push does not own. -/
def Quiet (tr : Pushes) : Prop := ∀ e ∈ tr.inflight, e.borrowed = false

theorem Quiet.loans (h : tr.Quiet) : ∀ loan ∈ tr.inflight.map InflightPush.loan, loan.pulls = false := by
  intro loan hmem
  obtain ⟨e, he, rfl⟩ := List.mem_map.mp hmem
  exact h e he

/-- Releasing what was kept besides, while nothing pulls. -/
theorem Accounted.releaseAll {l : List Held} (h : tr.Accounted due (↑l + extra)) (hquiet : tr.Quiet) :
    (emits (l.map .released) tr).Accounted due extra := by
  have hkeeps := h.keeps
  rw [Multiset.add_assoc] at hkeeps
  exact h.extend rfl (Custody.issues_released l) (Nat.le_refl _) (hkeeps.releaseAll hquiet.loans) h.borrowed

theorem Accounted.share (h : tr.Accounted due extra) (a : Held) :
    (emit (.shared a) tr).Accounted due (a ::ₘ extra) := by
  have hkeeps := h.keeps.step (.shared a)
  rw [← Multiset.cons_add] at hkeeps
  exact h.extend rfl rfl (Nat.le_refl _) hkeeps h.borrowed

theorem Accounted.length_inflight (h : tr.Accounted due extra) : tr.inflight.length ≤ maxInflightPushes := by
  have hlen := h.keeps.length_loans
  rwa [Custody.Books.loans, Option.toList_none, List.append_nil, List.length_map] at hlen

/-- The books do not look at the noted members. -/
theorem Accounted.memberFailedAdd (h : tr.Accounted due extra) (member : MemberId) (growFails : Bool) :
    (memberFailedAdd member growFails tr).Accounted due extra := by
  unfold Pushes.memberFailedAdd
  split
  · exact h
  · split
    · exact h
    · exact ⟨h.keeps, h.fresh, h.once, h.borrowed⟩

/-! ## Draining -/

-- the counter once the oldest push is off the list
theorem countP_rest {e : InflightPush} {rest : List InflightPush} {n : Nat}
    (h : n = (e :: rest).countP InflightPush.borrowed) :
    (if e.borrowed then n - 1 else n) = rest.countP InflightPush.borrowed := by
  rw [List.countP_cons] at h
  split
  · rename_i he
    rw [if_pos he] at h
    omega
  · rename_i he
    rw [if_neg he] at h
    exact h

theorem drainOne_eq {e : InflightPush} {rest : List InflightPush} (hinflight : tr.inflight = e :: rest)
    (env : WaitEnv) : ∃ failed capFailed, drainOne env tr = emits (e.held.map .freed) { emit (.completed e.req) tr with
      inflight := rest
      nBorrowedBulk := if e.borrowed then tr.nBorrowedBulk - 1 else tr.nBorrowedBulk
      failed := failed
      capFailed := capFailed } := by
  unfold drainOne
  rw [hinflight]
  simp only
  cases env.waitFails e.req with
  | false => exact ⟨tr.failed, tr.capFailed, rfl⟩
  | true =>
    simp only [if_true]
    unfold Pushes.memberFailedAdd
    split
    · exact ⟨tr.failed, tr.capFailed, rfl⟩
    · split
      · exact ⟨tr.failed, tr.capFailed, rfl⟩
      · exact ⟨_, _, rfl⟩

theorem Accounted.drainOne (h : tr.Accounted due extra) (env : WaitEnv) :
    (drainOne env tr).Accounted due extra := by
  cases hinflight : tr.inflight with
  | nil =>
    unfold Pushes.drainOne
    rw [hinflight]
    exact h
  | cons e rest =>
    obtain ⟨failed, capFailed, heq⟩ := drainOne_eq hinflight env
    rw [heq]
    refine Accounted.freeAll ?_
    have hkeeps := h.keeps
    have hborrowed := h.borrowed
    rw [hinflight] at hkeeps hborrowed
    exact h.extend rfl rfl (Nat.le_refl _) (hkeeps.step (.completed e.loan)) (countP_rest hborrowed)

theorem Accounted.drainWhile (h : tr.Accounted due extra) (cond : Pushes → Bool) (env : WaitEnv) (n : Nat) :
    (drainWhile cond env n tr).Accounted due extra := by
  induction n generalizing tr with
  | zero => exact h
  | succ n ih =>
    unfold Pushes.drainWhile
    split
    · exact ih (h.drainOne env)
    · exact h

/-- Draining takes pushes off the front of the list, and leaves the rest of what is kept alone. -/
structure Shortens (tr tr' : Pushes) : Prop where
  suffix : tr'.inflight <:+ tr.inflight
  regions : tr'.regions = tr.regions
  deferred : tr'.deferred = tr.deferred

theorem shortens_drainOne (env : WaitEnv) (tr : Pushes) : Shortens tr (Pushes.drainOne env tr) := by
  cases hinflight : tr.inflight with
  | nil =>
    unfold Pushes.drainOne
    rw [hinflight]
    exact ⟨List.suffix_refl _, rfl, rfl⟩
  | cons e rest =>
    obtain ⟨failed, capFailed, heq⟩ := drainOne_eq hinflight env
    rw [heq]
    refine ⟨?_, rfl, rfl⟩
    rw [hinflight]
    exact List.suffix_cons e rest

theorem shortens_drainWhile (cond : Pushes → Bool) (env : WaitEnv) (n : Nat) (tr : Pushes) :
    Shortens tr (Pushes.drainWhile cond env n tr) := by
  induction n generalizing tr with
  | zero => exact ⟨List.suffix_refl _, rfl, rfl⟩
  | succ n ih =>
    unfold Pushes.drainWhile
    split
    · have hone := shortens_drainOne env tr
      have hrest := ih (Pushes.drainOne env tr)
      exact ⟨hrest.suffix.trans hone.suffix, hrest.regions.trans hone.regions, hrest.deferred.trans hone.deferred⟩
    · exact ⟨List.suffix_refl _, rfl, rfl⟩

theorem length_drainOne (env : WaitEnv) (tr : Pushes) : (Pushes.drainOne env tr).inflight.length = tr.inflight.length - 1 := by
  cases hinflight : tr.inflight with
  | nil =>
    unfold Pushes.drainOne
    rw [hinflight]
    exact congrArg List.length hinflight
  | cons e rest =>
    obtain ⟨failed, capFailed, heq⟩ := drainOne_eq hinflight env
    rw [heq]
    rfl

/-- With fuel for the whole list the loop ends because its condition fails. -/
theorem drainWhile_done (cond : Pushes → Bool) (hcond : ∀ tr : Pushes, tr.inflight = [] → cond tr = false)
    (env : WaitEnv) {n : Nat} (tr : Pushes) (hn : tr.inflight.length ≤ n) : cond (Pushes.drainWhile cond env n tr) = false := by
  induction n generalizing tr with
  | zero => exact hcond tr (List.eq_nil_of_length_eq_zero (by omega))
  | succ n ih =>
    unfold Pushes.drainWhile
    split
    · refine ih _ ?_
      rw [length_drainOne]
      omega
    · rename_i hstop
      exact Bool.eq_false_iff.mpr hstop

theorem drainPushes_inflight (env : WaitEnv) (tr : Pushes) : (Pushes.drainPushes env tr).inflight = [] := by
  have hdone : (Pushes.drainPushes env tr).outstanding = false :=
    drainWhile_done outstanding (fun tr h => by simp [outstanding, h]) env tr (Nat.le_refl _)
  have hlen := of_decide_eq_false hdone
  exact List.eq_nil_of_length_eq_zero (by omega)

theorem Accounted.quiet_drainBorrowed (h : tr.Accounted due extra) (env : WaitEnv) :
    (Pushes.drainBorrowed env tr).Quiet := by
  have hdone : (drainBorrowed env tr).borrowing = false :=
    drainWhile_done borrowing (fun tr h => by simp [borrowing, h]) env tr (Nat.le_refl _)
  have hstop := of_decide_eq_false hdone
  have hborrowed : (drainBorrowed env tr).nBorrowedBulk = (drainBorrowed env tr).inflight.countP InflightPush.borrowed :=
    (h.drainWhile _ env _).borrowed
  intro e he
  by_contra hpulls
  refine hstop ⟨?_, List.length_pos_of_mem he⟩
  rw [hborrowed]
  exact List.countP_pos_iff.mpr ⟨e, he, by simpa using hpulls⟩

/-! ## Regions -/

/-- Something moves between the lists and what is kept besides. -/
theorem Accounted.rekeep (h : tr.Accounted due extra) {extra' : Multiset Held} {tr' : Pushes}
    (hkept : extra' + tr'.kept = extra + tr.kept) (hlog : tr'.log = tr.log) (hinflight : tr'.inflight = tr.inflight)
    (hfresh : tr.fresh ≤ tr'.fresh) (hborrowed : tr'.nBorrowedBulk = tr.nBorrowedBulk) : tr'.Accounted due extra' := by
  refine h.extend (show tr'.log = tr.log ++ [] by rw [hlog, List.append_nil]) rfl hfresh ?_ ?_
  · rw [hlog, hinflight, hkept]
    exact h.keeps
  · rw [hborrowed, hinflight]
    exact h.borrowed

theorem Accounted.regionAdd (h : tr.Accounted due extra) (base len : Nat) (growFails : Bool) :
    (regionAdd base len growFails tr).Accounted due extra := by
  unfold Pushes.regionAdd
  split
  · exact h
  · split
    · exact h
    · split
      · exact h
      · refine h.rekeep ?_ rfl rfl (Nat.le_refl _) rfl
        simp [kept, Region.held]

theorem kept_register {skipped rest : List Region} {r : Region} (hregions : tr.regions = skipped ++ r :: rest)
    (hbulk : r.bulk = none) (b : Nat) :
    { tr with regions := skipped ++ { r with bulk := some b } :: rest }.kept = .bulk b ::ₘ tr.kept := by
  have hheld : r.held = [] := by rw [Region.held, hbulk]; rfl
  unfold kept
  rw [hregions]
  simp only [List.flatMap_append, List.flatMap_cons, hheld, List.nil_append]
  rw [← Multiset.add_cons]
  congr 1
  exact Multiset.coe_eq_coe.mpr List.perm_middle

theorem Accounted.regionBulk (h : tr.Accounted due extra) (p len : Nat) (createFails : Bool) :
    (regionBulk p len createFails tr).1.Accounted due extra := by
  unfold Pushes.regionBulk
  rw [List.span_eq_takeWhile_dropWhile]
  split
  · exact h
  · rename_i skipped r rest hspan
    have hregions : tr.regions = skipped ++ r :: rest := by
      rw [← List.takeWhile_append_dropWhile (p := fun r => !r.covers p len) (l := tr.regions)]
      rw [(Prod.mk.inj hspan).1, (Prod.mk.inj hspan).2]
    split
    · exact h
    · rename_i hbulk
      split
      · exact h
      · refine (h.share (.bulk tr.fresh)).rekeep ?_ rfl rfl (Nat.le_succ _) rfl
        rw [Multiset.cons_add, ← Multiset.add_cons]
        congr 1
        exact kept_register hregions hbulk tr.fresh

theorem swapRemove_perm {l : List Region} {i : Nat} {r : Region} (hi : l[i]? = some r) :
    (r :: swapRemove l i).Perm l := by
  unfold swapRemove
  cases hlast : l.getLast? with
  | none =>
    rw [List.getLast?_eq_none_iff.mp hlast] at hi
    cases hi
  | some last =>
    have hl : l = l.dropLast ++ [last] := (List.dropLast_append_getLast? last hlast).symm
    obtain ⟨hlen, hget⟩ := List.getElem?_eq_some_iff.mp hi
    by_cases hinit : i < l.dropLast.length
    · have hr : l.dropLast[i] = r := by rw [List.getElem_dropLast]; exact hget
      simp only
      calc (r :: l.dropLast.set i last).Perm (r :: last :: l.dropLast.eraseIdx i) :=
            (List.set_perm_cons_eraseIdx hinit last).cons r
        _ |>.Perm (last :: r :: l.dropLast.eraseIdx i) := .swap _ _ _
        _ |>.Perm (last :: l.dropLast) := by
            rw [← hr]
            exact (List.getElem_cons_eraseIdx_perm hinit).cons last
        _ |>.Perm l := by
            conv_rhs => rw [hl]
            exact (List.perm_append_singleton last l.dropLast).symm
    · -- the last region itself
      have hi' : i = l.dropLast.length := by
        rw [List.length_dropLast] at hinit ⊢
        omega
      have hr : last = r := by
        rw [hl, hi', List.getElem?_append_right (Nat.le_refl _), Nat.sub_self] at hi
        exact Option.some.inj hi
      simp only
      rw [List.set_eq_of_length_le (by omega), ← hr]
      conv_rhs => rw [hl]
      exact (List.perm_append_singleton last l.dropLast).symm

theorem inflight_dropRegions (p n i : Nat) (tr : Pushes) : (Pushes.dropRegions p n i tr).inflight = tr.inflight := by
  induction n generalizing tr i with
  | zero => rfl
  | succ n ih =>
    unfold Pushes.dropRegions
    cases tr.regions[i]? with
    | none => rfl
    | some r =>
      simp only
      split
      · exact ih i _
      · exact ih (i + 1) tr

theorem Accounted.dropRegions (h : tr.Accounted due extra) (hquiet : tr.Quiet) (p n i : Nat) :
    (dropRegions p n i tr).Accounted due extra := by
  induction n generalizing tr i with
  | zero => exact h
  | succ n ih =>
    unfold Pushes.dropRegions
    cases hi : tr.regions[i]? with
    | none => exact h
    | some r =>
      simp only
      split
      · have hkept : Accounted due (↑r.held + extra) { tr with regions := swapRemove tr.regions i } := by
          refine h.rekeep (Multiset.ext.mpr fun a => ?_) rfl rfl (Nat.le_refl _) rfl
          have hcount := ((swapRemove_perm hi).flatMap_right Region.held).count_eq a
          rw [List.flatMap_cons, List.count_append] at hcount
          simp only [kept, Multiset.count_add, Multiset.coe_count]
          omega
        have hreleased := hkept.releaseAll hquiet
        exact ih hreleased hquiet i
      · exact ih h hquiet (i + 1)

theorem Accounted.deferFree (h : tr.Accounted due extra) (p : Nat) (growFails : Bool) (env : WaitEnv) :
    (deferFree p growFails env tr).Accounted due extra := by
  unfold Pushes.deferFree
  split
  · exact h
  · have hshared := h.share (.block p)
    simp only
    split
    · have hquiet := hshared.quiet_drainBorrowed env
      have hdrained : (drainBorrowed env (emit (.shared (.block p)) tr)).Accounted due (.block p ::ₘ extra) :=
        hshared.drainWhile _ env _
      have hdropped := hdrained.dropRegions hquiet p
        (drainBorrowed env (emit (.shared (.block p)) tr)).regions.length 0
      have hstill : (Pushes.dropRegions p (drainBorrowed env (emit (.shared (.block p)) tr)).regions.length 0
          (drainBorrowed env (emit (.shared (.block p)) tr))).Quiet := by
        unfold Quiet
        rw [inflight_dropRegions]
        exact hquiet
      exact Accounted.releaseAll (l := [.block p]) hdropped hstill
    · refine hshared.rekeep ?_ rfl rfl (Nat.le_refl _) rfl
      have hkept : { emit (.shared (.block p)) tr with
          deferred := tr.deferred ++ [p]
          capDeferred := grown tr.deferred.length tr.capDeferred 8 }.kept = .block p ::ₘ tr.kept := by
        unfold kept
        rw [← Multiset.cons_add]
        congr 1
        simp only [List.map_append, List.map_cons, List.map_nil]
        exact Multiset.coe_eq_coe.mpr (List.perm_append_singleton _ _)
      rw [Multiset.cons_add, ← Multiset.add_cons]
      exact congrArg (extra + ·) hkept

theorem Accounted.clearRegions (h : tr.Accounted due extra) (hquiet : tr.Quiet) :
    Accounted due extra { emits ((tr.regions.flatMap Region.held).map .released) tr with regions := [] } := by
  show Accounted due extra (emits _ { tr with regions := [] })
  refine Accounted.releaseAll ?_ hquiet
  refine h.rekeep (Multiset.ext.mpr fun a => ?_) rfl rfl (Nat.le_refl _) rfl
  simp only [kept, List.flatMap_nil, Multiset.count_add, Multiset.coe_count, List.count_nil]
  omega

theorem Accounted.clearDeferred (h : tr.Accounted due extra) (hquiet : tr.Quiet) :
    Accounted due extra { emits ((tr.deferred.map Held.block).map .released) tr with deferred := [] } := by
  show Accounted due extra (emits _ { tr with deferred := [] })
  refine Accounted.releaseAll ?_ hquiet
  refine h.rekeep (Multiset.ext.mpr fun a => ?_) rfl rfl (Nat.le_refl _) rfl
  simp only [kept, List.map_nil, Multiset.count_add, Multiset.coe_count, List.count_nil]
  omega

theorem Accounted.releaseSources (h : tr.Accounted due extra) (env : WaitEnv) :
    (releaseSources env tr).Accounted due extra := by
  have hquiet := h.quiet_drainBorrowed env
  have hdrained : (drainBorrowed env tr).Accounted due extra := h.drainWhile _ env _
  have hregions := hdrained.clearRegions hquiet
  exact hregions.clearDeferred hquiet

/-! ## Issuing -/

/-- A request issued under a fresh name, and settled next. -/
theorem Accounted.settle (h : tr.Accounted due extra) {loan : Custody.Loan Nat Held} (hreq : loan.req = tr.fresh)
    {e : PushEvent} (hsettles : e.loan? = none) {due' extra' : Multiset Held} {tr' : Pushes}
    (hlog : tr'.log = tr.log ++ [.issued loan] ++ [e]) (hfresh : tr'.fresh = tr.fresh + 1)
    (hkeeps : Custody.Keeps maxInflightPushes tr'.log
      ⟨tr'.inflight.map InflightPush.loan, none, due', extra' + tr'.kept⟩)
    (hborrowed : tr'.nBorrowedBulk = tr'.inflight.countP InflightPush.borrowed) : tr'.Accounted due' extra' := by
  have hissues : Custody.issues tr'.log = Custody.issues tr.log ++ [loan] := by
    rw [hlog, Custody.issues_concat, Custody.issues_concat, hsettles]
    exact List.append_nil _
  refine ⟨hkeeps, fun l hmem => ?_, ?_, hborrowed⟩
  · rw [hissues] at hmem
    rcases List.mem_append.mp hmem with hmem | hmem
    · have := h.fresh l hmem
      omega
    · rw [List.mem_singleton.mp hmem]
      omega
  · rw [hissues, List.map_append, List.map_singleton]
    refine List.Nodup.append h.once (List.nodup_singleton _) ?_
    intro r hmem hlast
    obtain ⟨l, hl, rfl⟩ := List.mem_map.mp hmem
    have := h.fresh l hl
    rw [List.mem_singleton.mp hlast] at this
    omega

section Issue

variable {e : InflightPush} (h : tr.Accounted (↑e.held + due) extra)
  (hroom : tr.inflight.length < maxInflightPushes) (hreq : e.req = tr.fresh)

include h hroom hreq

theorem Accounted.recorded {growFails : Bool} {tr' : Pushes}
    (hadd : inflightAdd e growFails { emit (.issued e.loan) tr with fresh := tr.fresh + 1 } = some tr') :
    tr'.Accounted due extra := by
  have hkeeps := (h.keeps.step (.issued e.loan (by rw [List.length_map]; exact hroom))).step (.recorded e.loan)
  unfold inflightAdd at hadd
  split at hadd
  · cases hadd
  · obtain rfl := Option.some.inj hadd
    refine h.settle (show e.loan.req = tr.fresh from hreq) (e := .recorded e.req) rfl rfl rfl ?_ ?_
    · show Custody.Keeps _ _ ⟨(tr.inflight ++ [e]).map InflightPush.loan, none, due, extra + tr.kept⟩
      rw [List.map_append]
      exact hkeeps
    · show (if e.borrowed then tr.nBorrowedBulk + 1 else tr.nBorrowedBulk)
        = (tr.inflight ++ [e]).countP InflightPush.borrowed
      rw [List.countP_append, ← h.borrowed, List.countP_singleton]
      split <;> rfl

/-- A push that could not be recorded is completed at once. -/
theorem Accounted.unrecorded :
    Accounted (↑e.held + due) extra
      (emit (.completedAtOnce e.req) { emit (.issued e.loan) tr with fresh := tr.fresh + 1 }) := by
  have hkeeps := (h.keeps.step (.issued e.loan (by rw [List.length_map]; exact hroom))).step (.completedAtOnce e.loan)
  exact h.settle (show e.loan.req = tr.fresh from hreq) (e := .completedAtOnce e.req) rfl rfl rfl hkeeps h.borrowed

end Issue

theorem Accounted.forwardPush {a : PushItemArgs} {bulk : Option Nat}
    (h : tr.Accounted (↑(bulk.toList.map Held.bulk ++ a.payloadOwned.toList.map Held.block) + due) extra)
    (hroom : tr.inflight.length < maxInflightPushes) (env : PushEnv) (via : PayloadVia) :
    (forwardPush a env via bulk tr).1.Accounted due extra := by
  unfold Pushes.forwardPush
  simp only
  split
  · exact h.freeAll
  · have hhandle : Accounted (↑(Held.handle tr.fresh :: (bulk.toList.map Held.bulk ++ a.payloadOwned.toList.map Held.block))
        + due) extra { emit (.handed (.handle tr.fresh)) tr with fresh := tr.fresh + 1 } := by
      have hhanded := h.handAll [.handle tr.fresh]
      rw [← Multiset.add_assoc, Multiset.coe_add, List.singleton_append] at hhanded
      exact hhanded.rekeep rfl rfl rfl (Nat.le_succ _) rfl
    split
    · exact hhandle.freeAll
    · split
      · rename_i tr' hadd
        exact Accounted.recorded (e := ⟨tr.fresh, tr.fresh + 1, a.payloadOwned, a.member, bulk,
          via.byBulk && a.payloadOwned.isNone⟩) hhandle hroom rfl hadd
      · exact (Accounted.unrecorded (e := ⟨tr.fresh, tr.fresh + 1, a.payloadOwned, a.member, bulk,
          via.byBulk && a.payloadOwned.isNone⟩) hhandle hroom rfl).freeAll

theorem Accounted.registerPayload {a : PushItemArgs}
    (h : tr.Accounted (↑(a.payloadOwned.toList.map Held.block) + due) extra) (env : PushEnv) :
    (registerPayload a env tr).1.Accounted
      (↑((registerPayload a env tr).2.2.toList.map Held.bulk ++ a.payloadOwned.toList.map Held.block) + due) extra := by
  have hregion : ∀ st use, (if a.payloadOwned = none then Pushes.regionBulk a.payloadBuf a.payloadLen env.regionFails tr
      else (tr, none)) = (st, use) → st.Accounted (↑(a.payloadOwned.toList.map Held.block) + due) extra := by
    intro st use heq
    split at heq
    · have hbulk := h.regionBulk a.payloadBuf a.payloadLen env.regionFails
      rw [heq] at hbulk
      exact hbulk
    · rw [← (Prod.mk.inj heq).1]
      exact h
  unfold Pushes.registerPayload
  split
  · generalize hpair : (if a.payloadOwned = none then
      Pushes.regionBulk a.payloadBuf a.payloadLen env.regionFails tr else (tr, none)) = pair
    obtain ⟨st, use⟩ := pair
    have hst := hregion st use hpair
    cases use with
    | some pos => exact hst
    | none =>
      simp only
      split
      · exact hst
      · have hhanded := hst.handAll [.bulk st.fresh]
        rw [← Multiset.add_assoc, Multiset.coe_add] at hhanded
        exact hhanded.rekeep rfl rfl rfl (Nat.le_succ _) rfl
  · exact h

theorem inflight_regionBulk (p len : Nat) (createFails : Bool) (tr : Pushes) :
    (Pushes.regionBulk p len createFails tr).1.inflight = tr.inflight := by
  unfold Pushes.regionBulk
  split
  · rfl
  · split
    · rfl
    · split
      · rfl
      · rfl

/-- When the list is at its bound, the oldest push makes room. -/
theorem Accounted.makeRoom (h : tr.Accounted due extra) (env : WaitEnv) :
    (if tr.inflight.length ≥ maxInflightPushes then Pushes.drainOne env tr else tr).Accounted due extra
      ∧ (if tr.inflight.length ≥ maxInflightPushes then Pushes.drainOne env tr else tr).inflight.length
        < maxInflightPushes := by
  have hcap := h.length_inflight
  have hpos : 0 < maxInflightPushes := by decide
  split
  · refine ⟨h.drainOne env, ?_⟩
    rw [length_drainOne]
    omega
  · exact ⟨h, by omega⟩

theorem Accounted.pushOneItem (h : tr.Accounted due extra) (a : PushItemArgs) (env : PushEnv) :
    (pushOneItem a env tr).1.Accounted due extra := by
  have hhanded := h.handAll (a.payloadOwned.toList.map Held.block)
  unfold Pushes.pushOneItem
  simp only
  split
  · have hcounted : Accounted (↑(a.payloadOwned.toList.map Held.block) + due) extra
        { emits ((a.payloadOwned.toList.map Held.block).map .handed) tr with
          nPushesIssued := (tr.nPushesIssued + 1) % 2 ^ 64 } :=
      hhanded.rekeep rfl rfl rfl (Nat.le_refl _) rfl
    exact hcounted.freeAll
  · have hcounted : Accounted (↑(a.payloadOwned.toList.map Held.block) + due) extra
        { emits ((a.payloadOwned.toList.map Held.block).map .handed) tr with
          nPushesIssued := (tr.nPushesIssued + 1) % 2 ^ 64
          bytesPushed := (tr.bytesPushed + a.payloadLen) % 2 ^ 64 } :=
      hhanded.rekeep rfl rfl rfl (Nat.le_refl _) rfl
    have hregistered := hcounted.registerPayload env
    obtain ⟨hroomy, hroom⟩ := hregistered.makeRoom env.wait
    exact hroomy.forwardPush hroom env _

theorem Accounted.step (h : tr.Accounted due extra) (call : PushCall) : (step tr call).Accounted due extra := by
  cases call with
  | push a env => exact h.pushOneItem a env
  | drainOne env => exact h.drainOne env
  | drainPushes env => exact h.drainWhile _ env _
  | deferFree p growFails env => exact h.deferFree p growFails env
  | releaseSources env => exact h.releaseSources env
  | regionAdd base len growFails => exact h.regionAdd base len growFails
  | newWrite => exact h.rekeep rfl rfl rfl (Nat.le_refl _) rfl

/-- The books are kept along every run. -/
theorem accounted_run (bulkThreshold : Nat) (testDropPush : Option Nat) (calls : List PushCall) :
    (Runs.run Pushes.step (start bulkThreshold testDropPush) calls).Accounted 0 0 :=
  Runs.run_always (fun _ call h => h.step call) (accounted_start bulkThreshold testDropPush) calls

end Accounted

/-! ## The buffers of a run's calls -/

/-- The payload a call hands over. -/
def PushCall.payload? : PushCall → Option Nat
  | .push a _ => a.payloadOwned
  | _ => none

/-- The buffer a call defers. -/
def PushCall.deferred? : PushCall → Option Nat
  | .deferFree p _ _ => if p = 0 then none else some p
  | _ => none

def handedBlocks (log : List PushEvent) : List Nat := (Custody.handovers log).filterMap Held.block?

def sharedBlocks (log : List PushEvent) : List Nat := (Custody.shares log).filterMap Held.block?

/-- What a call adds to the log: the buffers handed over, and the ones deferred. -/
structure Gets (payloads deferred : List Nat) (log log' : List PushEvent) : Prop where
  handed : handedBlocks log' = handedBlocks log ++ payloads
  shared : sharedBlocks log' = sharedBlocks log ++ deferred

variable {log log' log'' : List PushEvent}

theorem Gets.refl (log : List PushEvent) : Gets [] [] log log := ⟨(List.append_nil _).symm, (List.append_nil _).symm⟩

theorem Gets.trans {p p' d d' : List Nat} (h : Gets p d log log') (h' : Gets p' d' log' log'') :
    Gets (p ++ p') (d ++ d') log log'' where
  handed := by rw [h'.handed, h.handed, List.append_assoc]
  shared := by rw [h'.shared, h.shared, List.append_assoc]

theorem Gets.append (log es : List PushEvent) : Gets (handedBlocks es) (sharedBlocks es) log (log ++ es) where
  handed := by simp only [handedBlocks, Custody.handovers, List.filterMap_append]
  shared := by simp only [sharedBlocks, Custody.shares, List.filterMap_append]

theorem Gets.freed (log : List PushEvent) (l : List Held) : Gets [] [] log (log ++ l.map .freed) := by
  have hgets := Gets.append log (l.map .freed)
  simpa [handedBlocks, sharedBlocks, Custody.handovers, Custody.shares, Function.comp_def, Custody.Event.handed?,
    Custody.Event.shared?] using hgets

theorem Gets.released (log : List PushEvent) (l : List Held) : Gets [] [] log (log ++ l.map .released) := by
  have hgets := Gets.append log (l.map .released)
  simpa [handedBlocks, sharedBlocks, Custody.handovers, Custody.shares, Function.comp_def, Custody.Event.handed?,
    Custody.Event.shared?] using hgets

theorem Gets.payload (log : List PushEvent) (owned : Option Nat) :
    Gets owned.toList [] log (log ++ (owned.toList.map Held.block).map .handed) := by
  have hgets := Gets.append log ((owned.toList.map Held.block).map .handed)
  cases owned with
  | none => exact hgets
  | some p => exact hgets

theorem gets_drainOne (env : WaitEnv) (tr : Pushes) : Gets [] [] tr.log (Pushes.drainOne env tr).log := by
  cases hinflight : tr.inflight with
  | nil =>
    unfold Pushes.drainOne
    rw [hinflight]
    exact .refl _
  | cons e rest =>
    obtain ⟨failed, capFailed, heq⟩ := drainOne_eq hinflight env
    rw [heq]
    exact (Gets.append tr.log [.completed e.req]).trans (.freed _ e.held)

theorem gets_drainWhile (cond : Pushes → Bool) (env : WaitEnv) (n : Nat) (tr : Pushes) :
    Gets [] [] tr.log (Pushes.drainWhile cond env n tr).log := by
  induction n generalizing tr with
  | zero => exact .refl _
  | succ n ih =>
    unfold Pushes.drainWhile
    split
    · exact (gets_drainOne env tr).trans (ih _)
    · exact .refl _

theorem gets_dropRegions (p n i : Nat) (tr : Pushes) : Gets [] [] tr.log (Pushes.dropRegions p n i tr).log := by
  induction n generalizing tr i with
  | zero => exact .refl _
  | succ n ih =>
    unfold Pushes.dropRegions
    cases tr.regions[i]? with
    | none => exact .refl _
    | some r =>
      simp only
      split
      · have hrest := ih i { emits (r.held.map .released) tr with regions := swapRemove tr.regions i }
        exact (Gets.released tr.log r.held).trans hrest
      · exact ih (i + 1) tr

theorem gets_deferFree (p : Nat) (growFails : Bool) (env : WaitEnv) (tr : Pushes) :
    Gets [] (PushCall.deferFree p growFails env).deferred?.toList tr.log (Pushes.deferFree p growFails env tr).log := by
  have hdeferred : (PushCall.deferFree p growFails env).deferred? = if p = 0 then none else some p := rfl
  rw [hdeferred]
  unfold Pushes.deferFree
  by_cases hp : p = 0
  · rw [if_pos hp, if_pos hp]
    exact .refl _
  · rw [if_neg hp, if_neg hp]
    have hshared : Gets [] [p] tr.log (emit (.shared (.block p)) tr).log := Gets.append tr.log [.shared (.block p)]
    simp only
    split
    · generalize emit (.shared (.block p)) tr = st at hshared ⊢
      have hdrained : Gets [] [p] tr.log (drainBorrowed env st).log :=
        hshared.trans (gets_drainWhile borrowing env st.inflight.length st)
      have hdropped := hdrained.trans
        (gets_dropRegions p (drainBorrowed env st).regions.length 0 (drainBorrowed env st))
      exact hdropped.trans (Gets.released _ [.block p])
    · exact hshared

theorem gets_releaseSources (env : WaitEnv) (tr : Pushes) :
    Gets [] [] tr.log (Pushes.releaseSources env tr).log := by
  have hdrained : Gets [] [] tr.log (drainBorrowed env tr).log := gets_drainWhile borrowing env tr.inflight.length tr
  have hregions := hdrained.trans (Gets.released _ ((drainBorrowed env tr).regions.flatMap Region.held))
  exact hregions.trans (Gets.released _ ((drainBorrowed env tr).deferred.map Held.block))

theorem gets_regionBulk (p len : Nat) (createFails : Bool) (tr : Pushes) :
    Gets [] [] tr.log (Pushes.regionBulk p len createFails tr).1.log := by
  unfold Pushes.regionBulk
  split
  · exact .refl _
  · split
    · exact .refl _
    · split
      · exact .refl _
      · exact Gets.append tr.log [.shared (.bulk tr.fresh)]

theorem gets_registerPayload (a : PushItemArgs) (env : PushEnv) (tr : Pushes) :
    Gets [] [] tr.log (Pushes.registerPayload a env tr).1.log := by
  have hregion : ∀ st use, (if a.payloadOwned = none then Pushes.regionBulk a.payloadBuf a.payloadLen env.regionFails tr
      else (tr, none)) = (st, use) → Gets [] [] tr.log st.log := by
    intro st use heq
    split at heq
    · have hbulk := gets_regionBulk a.payloadBuf a.payloadLen env.regionFails tr
      rw [heq] at hbulk
      exact hbulk
    · rw [← (Prod.mk.inj heq).1]
      exact .refl _
  unfold Pushes.registerPayload
  split
  · generalize hpair : (if a.payloadOwned = none then
      Pushes.regionBulk a.payloadBuf a.payloadLen env.regionFails tr else (tr, none)) = pair
    obtain ⟨st, use⟩ := pair
    have hst := hregion st use hpair
    cases use with
    | some pos => exact hst
    | none =>
      simp only
      split
      · exact hst
      · exact hst.trans (Gets.append st.log [.handed (.bulk st.fresh)])
  · exact .refl _

theorem gets_forwardPush (a : PushItemArgs) (env : PushEnv) (via : PayloadVia) (bulk : Option Nat) (tr : Pushes) :
    Gets [] [] tr.log (Pushes.forwardPush a env via bulk tr).1.log := by
  unfold Pushes.forwardPush
  simp only
  split
  · exact .freed _ _
  · have hhandle := Gets.append tr.log [.handed (.handle tr.fresh)]
    split
    · exact hhandle.trans (.freed _ _)
    · generalize hloan : Custody.Event.issued (ρ := Nat) (α := Held) ⟨tr.fresh + 1, _, _⟩ = issued
      have hissued : Gets [] [] tr.log (tr.log ++ [.handed (.handle tr.fresh)] ++ [issued]) := by
        rw [← hloan]
        exact hhandle.trans (Gets.append _ [.issued _])
      split
      · rename_i tr' hadd
        unfold inflightAdd at hadd
        split at hadd
        · cases hadd
        · obtain rfl := Option.some.inj hadd
          exact hissued.trans (Gets.append _ [.recorded (tr.fresh + 1)])
      · have hcompleted := hissued.trans (Gets.append _ [.completedAtOnce (tr.fresh + 1)])
        exact hcompleted.trans (.freed _ _)

theorem gets_pushOneItem (a : PushItemArgs) (env : PushEnv) (tr : Pushes) :
    Gets a.payloadOwned.toList [] tr.log (Pushes.pushOneItem a env tr).1.log := by
  have hhanded := Gets.payload tr.log a.payloadOwned
  unfold Pushes.pushOneItem
  simp only
  split
  · have hfreed := hhanded.trans (Gets.freed _ (a.payloadOwned.toList.map Held.block))
    rwa [List.append_nil] at hfreed
  · generalize hst : ({ emits ((a.payloadOwned.toList.map Held.block).map .handed) tr with
        nPushesIssued := (tr.nPushesIssued + 1) % 2 ^ 64
        bytesPushed := (tr.bytesPushed + a.payloadLen) % 2 ^ 64 } : Pushes) = st
    have hst' : Gets a.payloadOwned.toList [] tr.log st.log := by
      rw [← hst]
      exact hhanded
    have hregistered := hst'.trans (gets_registerPayload a env st)
    rw [List.append_nil, List.append_nil] at hregistered
    have hroomy : Gets a.payloadOwned.toList [] tr.log
        (if (Pushes.registerPayload a env st).1.inflight.length ≥ maxInflightPushes
          then Pushes.drainOne env.wait (Pushes.registerPayload a env st).1
          else (Pushes.registerPayload a env st).1).log := by
      split
      · have hdrained := hregistered.trans (gets_drainOne env.wait (Pushes.registerPayload a env st).1)
        rwa [List.append_nil] at hdrained
      · exact hregistered
    have hforwarded := hroomy.trans (gets_forwardPush a env (Pushes.registerPayload a env st).2.1
      (Pushes.registerPayload a env st).2.2 _)
    rw [List.append_nil] at hforwarded
    subst hst
    exact hforwarded

theorem gets_step (tr : Pushes) (call : PushCall) :
    Gets call.payload?.toList call.deferred?.toList tr.log (Pushes.step tr call).log := by
  cases call with
  | push a env => exact gets_pushOneItem a env tr
  | drainOne env => exact gets_drainOne env tr
  | drainPushes env => exact gets_drainWhile outstanding env tr.inflight.length tr
  | deferFree p growFails env => exact gets_deferFree p growFails env tr
  | releaseSources env => exact gets_releaseSources env tr
  | regionAdd base len growFails =>
    have hlog : (Pushes.regionAdd base len growFails tr).log = tr.log := by
      unfold Pushes.regionAdd
      split
      · rfl
      · split
        · rfl
        · split <;> rfl
    show Gets [] [] tr.log (Pushes.regionAdd base len growFails tr).log
    rw [hlog]
    exact .refl _
  | newWrite => exact .refl _

/-- The buffers of a run's log are those of its calls. -/
theorem gets_run (tr : Pushes) (calls : List PushCall) :
    Gets (calls.filterMap PushCall.payload?) (calls.filterMap PushCall.deferred?) tr.log
      (Runs.run Pushes.step tr calls).log := by
  induction calls generalizing tr with
  | nil => exact .refl _
  | cons call calls ih =>
    have hrest := (gets_step tr call).trans (ih (Pushes.step tr call))
    rw [Runs.run_cons]
    cases hp : call.payload? <;> cases hd : call.deferred? <;>
      simpa only [List.filterMap_cons, hp, hd, Option.toList, List.nil_append, List.singleton_append] using hrest

theorem count_block (l : List Held) (p : Nat) : (l.filterMap Held.block?).count p = l.count (.block p) := by
  induction l with
  | nil => rfl
  | cons a l ih =>
    cases a with
    | block q =>
      rw [List.filterMap_cons, show Held.block? (.block q) = some q from rfl, List.count_cons, List.count_cons, ih]
      simp only [beq_iff_eq, Held.block.injEq]
    | bulk b =>
      rw [List.count_cons_of_ne (fun h => by cases h)]
      exact ih
    | handle h =>
      rw [List.count_cons_of_ne (fun h => by cases h)]
      exact ih

theorem count_held (e : InflightPush) (p : Nat) : e.held.count (.block p) = e.owned.toList.count p := by
  rw [← count_block]
  cases hb : e.bulk <;> cases ho : e.owned <;> (simp only [InflightPush.held, hb, ho]; rfl)

theorem count_owned (l : List InflightPush) (p : Nat) :
    ((l.map InflightPush.loan).flatMap Custody.Loan.owns).count (.block p)
      = (l.filterMap InflightPush.owned).count p := by
  induction l with
  | nil => rfl
  | cons e l ih =>
    rw [List.map_cons, List.flatMap_cons, List.count_append, ih, show e.loan.owns = e.held from rfl, count_held]
    cases ho : e.owned with
    | none => simp [ho]
    | some q =>
      rw [List.filterMap_cons_some ho, List.count_cons, Option.toList_some, List.count_singleton]
      omega

section Counts

variable (bulkThreshold : Nat) (testDropPush : Option Nat) (calls : List PushCall) (p : Nat)

/-- Every payload handed over is freed, or owned by a push in flight. -/
theorem count_payloads :
    (calls.filterMap PushCall.payload?).count p
      = (Custody.frees (Runs.run Pushes.step (start bulkThreshold testDropPush) calls).log).count (.block p)
        + ((Runs.run Pushes.step (start bulkThreshold testDropPush) calls).inflight.filterMap
            InflightPush.owned).count p := by
  have hcount := (accounted_run bulkThreshold testDropPush calls).keeps.count_handovers (.block p)
  have hgets := (gets_run (start bulkThreshold testDropPush) calls).handed
  rw [show handedBlocks (start bulkThreshold testDropPush).log = [] from rfl, List.nil_append] at hgets
  rw [← hgets, handedBlocks, count_block, hcount, Custody.Books.loans, Option.toList_none, List.append_nil, count_owned,
    Multiset.count_zero, Nat.add_zero]

/-- Every deferred buffer is released, or still on the list. -/
theorem count_deferred :
    (calls.filterMap PushCall.deferred?).count p
      = (Custody.releases (Runs.run Pushes.step (start bulkThreshold testDropPush) calls).log).count (.block p)
        + (Runs.run Pushes.step (start bulkThreshold testDropPush) calls).deferred.count p := by
  have hcount := (accounted_run bulkThreshold testDropPush calls).keeps.count_shares (.block p)
  have hgets := (gets_run (start bulkThreshold testDropPush) calls).shared
  rw [show sharedBlocks (start bulkThreshold testDropPush).log = [] from rfl, List.nil_append] at hgets
  generalize Runs.run Pushes.step (start bulkThreshold testDropPush) calls = tr at hcount hgets ⊢
  have hregions : (tr.regions.flatMap Region.held).count (.block p) = 0 := by
    refine List.count_eq_zero.mpr fun hmem => ?_
    obtain ⟨r, -, hr⟩ := List.mem_flatMap.mp hmem
    obtain ⟨b, -, hb⟩ := List.mem_map.mp hr
    cases hb
  have hdeferred : (tr.deferred.map Held.block).count (.block p) = tr.deferred.count p :=
    List.count_map_of_injective _ _ (fun _ _ h => Held.block.inj h) p
  rw [← hgets, sharedBlocks, count_block, hcount, kept, Multiset.count_add, Multiset.count_zero, Multiset.count_add,
    Multiset.coe_count, Multiset.coe_count, hregions, hdeferred]
  omega

end Counts

/-- The bookkeeping of a run. The log is sound: every request is issued and completed once, in order, at most 256 are
out, nothing is freed under a request that owns it and nothing released under one that pulls. The list in flight is
what is issued and not completed, a payload is freed once or owned by one of those, and the counter tells how many of
them borrow. After `vs_tr_drain_pushes` nothing is in flight; after `vs_tr_writer_release_sources` nothing borrows, no
region is left and every deferred buffer is freed once. -/
theorem push_bookkeeping (bulkThreshold : Nat) (testDropPush : Option Nat) (calls : List PushCall) :
    let tr := Runs.run Pushes.step (start bulkThreshold testDropPush) calls
    Custody.Sound maxInflightPushes tr.log
      ∧ Custody.openLoans tr.log = tr.inflight.map InflightPush.loan
      ∧ (∀ p, (calls.filterMap PushCall.payload?).count p
          = (Custody.frees tr.log).count (.block p) + (tr.inflight.filterMap InflightPush.owned).count p)
      ∧ tr.nBorrowedBulk = tr.inflight.countP InflightPush.borrowed
      ∧ tr.inflight.length ≤ maxInflightPushes
      ∧ (∀ env, (drainPushes env tr).inflight = [])
      ∧ ∀ env, (∀ e ∈ (releaseSources env tr).inflight, e.borrowed = false)
          ∧ (releaseSources env tr).regions = []
          ∧ Custody.Sound maxInflightPushes (releaseSources env tr).log
          ∧ ∀ p, (Custody.releases (releaseSources env tr).log).count (.block p)
              = (calls.filterMap PushCall.deferred?).count p := by
  intro tr
  have haccounted : tr.Accounted 0 0 := accounted_run bulkThreshold testDropPush calls
  refine ⟨haccounted.keeps.sound haccounted.once rfl, ?_, count_payloads bulkThreshold testDropPush calls,
    haccounted.borrowed, haccounted.length_inflight, fun env => drainPushes_inflight env tr, fun env => ?_⟩
  · have hopen := haccounted.keeps.openLoans_eq haccounted.once
    rwa [Custody.Books.loans, Option.toList_none, List.append_nil] at hopen
  · have hreleased := haccounted.releaseSources env
    refine ⟨haccounted.quiet_drainBorrowed env, rfl, hreleased.keeps.sound hreleased.once rfl, fun p => ?_⟩
    have hcount := count_deferred bulkThreshold testDropPush (calls ++ [.releaseSources env]) p
    have hnone : [PushCall.releaseSources env].filterMap PushCall.deferred? = [] := rfl
    rw [List.filterMap_append, hnone, List.append_nil, Runs.run_append] at hcount
    exact hcount.symm

end Pushes

end VolStream
