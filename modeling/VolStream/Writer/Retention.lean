import VolStream.Lib.Run
import VolStream.Writer.EndStep
import Mathlib.Order.Bounds.Basic
import Mathlib.Algebra.Order.BigOperators.Group.List

/-!
# Step retention

`H5Fset_stream_retention_policy` bounds the history a writer keeps: after each commit the oldest
groups under `/step` are unlinked until the bounds hold or only the newest step is left. The
accounting is positional: `retain_bytes[i]` stands for step `retain_floor + i`.
-/

namespace VolStream

/-! ## The accounting -/

/-- The retention fields of `H5VL_stream_file_state_t`; `n_retain` is the length of `bytes`. -/
structure Retention where
  isSet : Bool
  maxSteps : Nat
  maxBytes : Nat
  floor : Nat
  bytes : List Nat
  cap : Nat
deriving DecidableEq, Repr

def Retention.init : Retention := ⟨false, 0, 0, 0, [], 0⟩

/-- The answers of a retention pass: growing the array, and the delete of each group. -/
structure PruneEnv where
  growFails : Bool
  unlinkFails : Nat → Bool

def PruneEnv.quiet : PruneEnv := ⟨false, fun _ => false⟩

-- what a pruning loop works on
structure Pruned where
  file : StepFile
  floor : Nat
  bytes : List Nat

/-- A pruning loop of `H5VL__stream_apply_retention`, each round of which is
`H5VL__stream_retention_drop_oldest`. `beyond` looks at `n_retain` and the running total. -/
def pruneWhile (beyond : Nat → Nat → Bool) (unlinkFails : Nat → Bool) : Nat → List Nat → Nat → StepFile → Pruned
  | total, b :: b' :: bytes, floor, file =>
      if beyond (bytes.length + 2) total then
        pruneWhile beyond unlinkFails ((total + (2 ^ 64 - b % 2 ^ 64)) % 2 ^ 64) (b' :: bytes) (floor + 1)
          (if unlinkFails floor then file else file.unlink floor)
      else ⟨file, floor, b :: b' :: bytes⟩
  | _, bytes, floor, file => ⟨file, floor, bytes⟩

-- the `uint64_t` total of the recorded bytes
def totalBytes (bytes : List Nat) : Nat := bytes.foldl (fun total b => (total + b) % 2 ^ 64) 0

/-- `H5VL__stream_apply_retention`. -/
def applyRetention (env : PruneEnv) (committedBytes : Nat) (file : StepFile) (r : Retention) :
    StepFile × Retention :=
  if !r.isSet then (file, r)
  else if r.bytes.length = r.cap ∧ env.growFails then (file, r)
  else
    let cap := if r.bytes.length = r.cap then (if r.cap = 0 then 16 else r.cap * 2) else r.cap
    let p : Pruned := ⟨file, r.floor, r.bytes ++ [committedBytes]⟩
    let p := if 0 < r.maxSteps then
        pruneWhile (fun n _ => decide (n > r.maxSteps)) env.unlinkFails 0 p.bytes p.floor p.file
      else p
    let p := if 0 < r.maxBytes then
        pruneWhile (fun _ total => decide (total > r.maxBytes)) env.unlinkFails (totalBytes p.bytes)
          p.bytes p.floor p.file
      else p
    (p.file, { r with floor := p.floor, bytes := p.bytes, cap := cap })

/-- `H5Fset_stream_retention_policy`: steps already committed are recorded with 0 bytes. -/
def setRetention (physicalStep maxSteps maxBytes : Nat) (seedFails : Bool) (r : Retention) : Retention :=
  let r := { r with isSet := true, maxSteps := maxSteps, maxBytes := maxBytes }
  if 0 < physicalStep ∧ r.bytes = [] ∧ !seedFails then
    { r with floor := 0, bytes := List.replicate physicalStep 0, cap := physicalStep }
  else r

/-! ## A writer with a retention policy -/

structure Retainer where
  writer : Writer
  retention : Retention

def Retainer.init (config : Config) : Retainer := ⟨.init config, .init⟩

/-- An event of the writer, with the answers of the retention pass should it commit a step; or a
retention policy set. -/
inductive RetainEvent where
  | app (ev : Event) (prune : PruneEnv)
  | setRetention (maxSteps maxBytes : Nat) (seedFails : Bool)

-- `pending_bytes` when the queue policy has done its work
def committedBytes (env : EndEnv) (w : Writer) : Nat :=
  (applyQueuePolicy env ⟨w.core.folded env, [], w.lookups⟩).state.core.pendingBytes

/-- `H5Fend_step` with the retention pass that follows a commit. -/
def Retainer.endStep (env : EndEnv) (prune : PruneEnv) (s : Retainer) : Outcome Retainer :=
  match VolStream.endStep env s.writer with
  | .ok w =>
      let (file, r) := applyRetention prune (committedBytes env s.writer) w.core.file s.retention
      .ok ⟨{ w with core := { w.core with file := file } }, r⟩
  | .fail w => .fail { s with writer := w }

def Retainer.apply (s : Retainer) : RetainEvent → Retainer
  | .app (.endStep env) prune => (s.endStep env prune).state
  | .app ev _ => { s with writer := (s.writer.apply ev).state }
  | .setRetention maxSteps maxBytes seedFails =>
      { s with retention :=
        VolStream.setRetention s.writer.core.physicalStep maxSteps maxBytes seedFails s.retention }

/-- The bytes recorded for the step an event commits: its own, if the policy was set by then. -/
def Retainer.record (s : Retainer) : RetainEvent → List Nat
  | .app (.endStep env) _ =>
      if (VolStream.endStep env s.writer).isOk then
        [if s.retention.isSet then committedBytes env s.writer else 0] else []
  | _ => []

def Retainer.after (config : Config) (events : List RetainEvent) : Retainer :=
  Runs.run Retainer.apply (.init config) events

-- the record of a whole run, by step number
def Retainer.recorded (config : Config) (events : List RetainEvent) : List Nat :=
  Runs.observed Retainer.apply Retainer.record (.init config) events

/-! ## What retention promises -/

/-- Keeping steps of these sizes breaks no bound. -/
def Retention.Bounded (r : Retention) (sizes : List Nat) : Prop :=
  (0 < r.maxSteps → sizes.length ≤ r.maxSteps) ∧ (0 < r.maxBytes → sizes.sum ≤ r.maxBytes)

/-- After a commit, with the floor it found and the bytes recorded for each step: the groups are
those from the floor on, the array is the end of the record, and the floor was raised no further
than the bounds, or keeping the newest step, required. -/
structure Retained (floor : Nat) (recorded : List Nat) (s : Retainer) : Prop where
  count : s.retention.floor + s.retention.bytes.length = s.writer.core.physicalStep
  groups : ∀ n, (s.writer.core.file.find? n).isSome ↔
    s.retention.floor ≤ n ∧ n < s.writer.core.physicalStep
  bytes : ∀ i, s.retention.bytes[i]? = recorded[s.retention.floor + i]?
  newest : (s.writer.core.file.find? (s.writer.core.physicalStep - 1)).isSome
  least : IsLeast {n | floor ≤ n ∧ n < s.writer.core.physicalStep ∧
    (n + 1 = s.writer.core.physicalStep ∨ s.retention.Bounded (recorded.drop n))} s.retention.floor

-- the sizes `max_bytes` looks at, `max_steps` having been applied
def Retention.trimmed (r : Retention) (bytes : Nat) : List Nat :=
  (r.bytes ++ [bytes]).drop (if 0 < r.maxSteps then r.bytes.length + 1 - r.maxSteps else 0)

-- an `H5Ldelete` of an existing step group succeeds
def DeletesSucceed (_ : Retainer) : RetainEvent → Prop
  | .app (.endStep env) prune => env.unlinkFails = false ∧ ∀ n, prune.unlinkFails n = false
  | _ => True

/-- Deletes succeed; the accounting can grow and its total fits; and no queued step the drain may
work on has been pruned. -/
def RetainOkAt (s : Retainer) : RetainEvent → Prop
  | .app (.endStep env) prune =>
      DeletesSucceed s (.app (.endStep env) prune)
        ∧ (s.retention.isSet → s.retention.bytes.length = s.retention.cap → prune.growFails = false)
        ∧ (s.retention.isSet → 0 < s.retention.maxBytes →
          (s.retention.trimmed (committedBytes env s.writer)).sum < 2 ^ 64)
        ∧ ∀ q ∈ s.writer.core.due env, s.retention.floor ≤ q.physicalStep
  | .app _ _ => True
  | .setRetention _ _ seedFails =>
      ¬ s.retention.isSet → 0 < s.writer.core.physicalStep → seedFails = false

/-! ## The pruning loops -/

-- `/step/<n>` for the `k` steps from `floor` on is gone, the rest is as it was
def Unlinked (floor k : Nat) (file file' : StepFile) : Prop :=
  ∀ n, file'.find? n = if floor ≤ n ∧ n < floor + k then none else file.find? n

theorem Unlinked.zero (floor : Nat) (file : StepFile) : Unlinked floor 0 file file := by
  intro n
  rw [if_neg (by omega)]

theorem Unlinked.trans {floor j k : Nat} {file file' file'' : StepFile} (h : Unlinked floor j file file')
    (h' : Unlinked (floor + j) k file' file'') : Unlinked floor (j + k) file file'' := by
  intro n
  rw [h' n, h n]
  by_cases hj : floor ≤ n ∧ n < floor + j
  · rw [if_neg (by omega), if_pos hj, if_pos (by omega)]
  · by_cases hk : floor + j ≤ n ∧ n < floor + j + k
    · rw [if_pos hk, if_pos (by omega)]
    · rw [if_neg hk, if_neg hj, if_neg (by omega)]

theorem Unlinked.one (floor : Nat) (file : StepFile) : Unlinked floor 1 file (file.unlink floor) := by
  intro n
  rw [StepFile.find?_unlink]
  by_cases h : floor = n
  · rw [if_pos h, if_pos (by omega)]
  · rw [if_neg h, if_neg (by omega)]

/-- What a pruning loop leaves: it drops the first `k` while `P` holds of
what is left, and stops at one step. -/
structure PrunedBy (P : List Nat → Prop) (start p : Pruned) (k : Nat) : Prop where
  bytes : p.bytes = start.bytes.drop k
  floor : p.floor = start.floor + k
  file : Unlinked start.floor k start.file p.file
  one : start.bytes ≠ [] → k < start.bytes.length
  stops : (start.bytes.drop k).length ≤ 1 ∨ ¬ P (start.bytes.drop k)
  goes : ∀ j < k, P (start.bytes.drop j)

/-- The loop rule. `T` says what the running total is of the record left. -/
theorem pruneWhile_spec {beyond : Nat → Nat → Bool} {unlinkFails : Nat → Bool} {P : List Nat → Prop}
    {T : Nat → List Nat → Prop}
    (hT : ∀ total b bytes, T total (b :: bytes) → T ((total + (2 ^ 64 - b % 2 ^ 64)) % 2 ^ 64) bytes)
    (hover : ∀ total bytes, T total bytes → (beyond bytes.length total = true ↔ P bytes))
    (hunlink : ∀ n, unlinkFails n = false) {total : Nat} {bytes : List Nat} (floor : Nat) (file : StepFile)
    (htotal : T total bytes) :
    ∃ k, PrunedBy P ⟨file, floor, bytes⟩ (pruneWhile beyond unlinkFails total bytes floor file) k := by
  induction bytes generalizing total floor file with
  | nil => exact ⟨0, rfl, rfl, .zero floor file, fun h => absurd rfl h, .inl (Nat.zero_le 1), by omega⟩
  | cons b bytes ih =>
    cases bytes with
    | nil => exact ⟨0, rfl, rfl, .zero floor file, fun _ => Nat.zero_lt_one, .inl (Nat.le_refl 1), by omega⟩
    | cons b' bytes =>
      unfold pruneWhile
      by_cases hgo : beyond (bytes.length + 2) total = true
      · rw [if_pos hgo, if_neg (by rw [hunlink]; exact Bool.false_ne_true)]
        obtain ⟨k, hbytes, hfloor, hfile, hone, hstops, hgoes⟩ :=
          ih (floor + 1) (file.unlink floor) (hT total b _ htotal)
        refine ⟨k + 1, hbytes, hfloor.trans (Nat.add_right_comm floor 1 k), ?_, fun _ => ?_, hstops, fun j hj => ?_⟩
        · rw [Nat.add_comm k 1]
          exact (Unlinked.one floor file).trans hfile
        · exact Nat.succ_lt_succ (hone (List.cons_ne_nil _ _))
        · cases j with
          | zero => exact (hover total _ htotal).mp hgo
          | succ j => exact hgoes j (Nat.lt_of_succ_lt_succ hj)
      · rw [if_neg hgo]
        refine ⟨0, rfl, rfl, .zero floor file, fun _ => Nat.zero_lt_succ _, .inr fun hP => ?_, by omega⟩
        exact hgo ((hover total _ htotal).mpr hP)

/-- While the sum fits, the running total is the sum. -/
theorem totalBytes_eq {bytes : List Nat} (h : bytes.sum < 2 ^ 64) : totalBytes bytes = bytes.sum := by
  have hfold : ∀ (bytes : List Nat) (total : Nat), total + bytes.sum < 2 ^ 64 →
      bytes.foldl (fun total b => (total + b) % 2 ^ 64) total = total + bytes.sum := by
    intro bytes
    induction bytes with
    | nil => exact fun _ _ => rfl
    | cons b bytes ih =>
      intro total hlt
      rw [List.sum_cons] at hlt ⊢
      rw [List.foldl_cons, Nat.mod_eq_of_lt (by omega), ih _ (by omega), Nat.add_assoc]
  have := hfold bytes 0 (by omega)
  rw [Nat.zero_add] at this
  exact this

theorem sum_drop_le (l : List Nat) (j k : Nat) (h : j ≤ k) : (l.drop k).sum ≤ (l.drop j).sum := by
  obtain ⟨d, rfl⟩ := Nat.exists_eq_add_of_le h
  rw [← List.drop_drop]
  exact (List.drop_sublist d _).sum_le_sum (fun _ _ => Nat.zero_le _)

theorem PrunedBy.idle {P : List Nat → Prop} (hP : ∀ l, ¬ P l) (start : Pruned) : PrunedBy P start start 0 :=
  ⟨rfl, rfl, .zero _ _, fun h => List.length_pos_iff.mpr h, .inr (hP _), fun _ h => absurd h (Nat.not_lt_zero _)⟩

/-- The loop that applies `max_steps`. -/
theorem pruneSteps_spec {unlinkFails : Nat → Bool} (hunlink : ∀ n, unlinkFails n = false) (maxSteps : Nat)
    (start : Pruned) :
    ∃ k, PrunedBy (fun l => 0 < maxSteps ∧ maxSteps < l.length) start
      (if 0 < maxSteps then
        pruneWhile (fun n _ => decide (n > maxSteps)) unlinkFails 0 start.bytes start.floor start.file
      else start) k := by
  by_cases hsteps : 0 < maxSteps
  · rw [if_pos hsteps]
    refine pruneWhile_spec (T := fun _ _ => True) (fun _ _ _ _ => trivial) (fun _ l _ => ?_) hunlink _ _ trivial
    rw [decide_eq_true_eq]
    exact ⟨fun h => ⟨hsteps, h⟩, fun h => h.2⟩
  · rw [if_neg hsteps]
    exact ⟨0, .idle (fun _ h => hsteps h.1) start⟩

/-- The loop that applies `max_bytes`. -/
theorem pruneBytes_spec {unlinkFails : Nat → Bool} (hunlink : ∀ n, unlinkFails n = false) (maxBytes : Nat)
    (start : Pruned) (hsum : 0 < maxBytes → start.bytes.sum < 2 ^ 64) :
    ∃ k, PrunedBy (fun l => 0 < maxBytes ∧ maxBytes < l.sum) start
      (if 0 < maxBytes then
        pruneWhile (fun _ total => decide (total > maxBytes)) unlinkFails (totalBytes start.bytes) start.bytes
          start.floor start.file
      else start) k := by
  by_cases hbytes : 0 < maxBytes
  · rw [if_pos hbytes]
    refine pruneWhile_spec (T := fun total l => total = l.sum ∧ l.sum < 2 ^ 64) ?_ (fun _ l hl => ?_) hunlink
      _ _ ⟨totalBytes_eq (hsum hbytes), hsum hbytes⟩
    · intro total b l ⟨htotal, hlt⟩
      rw [List.sum_cons] at htotal hlt
      rw [htotal]
      omega
    · rw [decide_eq_true_eq, hl.1]
      exact ⟨fun h => ⟨hbytes, h⟩, fun h => h.2⟩
  · rw [if_neg hbytes]
    exact ⟨0, .idle (fun _ h => hbytes h.1) start⟩

/-- The accounting after a commit: the record with the new step, of which the first `k` were
dropped. -/
structure Pass (bytes : Nat) (file : StepFile) (r : Retention) (file' : StepFile) (r' : Retention) (k : Nat) :
    Prop where
  policy : r' = { r with floor := r.floor + k, bytes := (r.bytes ++ [bytes]).drop k, cap := r'.cap }
  file : Unlinked r.floor k file file'
  one : k < r.bytes.length + 1
  stops : r.bytes.length + 1 - k = 1 ∨ r.Bounded ((r.bytes ++ [bytes]).drop k)
  goes : ∀ j < k, ¬ r.Bounded ((r.bytes ++ [bytes]).drop j)

theorem applyRetention_spec {env : PruneEnv} {bytes : Nat} {r : Retention} (file : StepFile) (hset : r.isSet)
    (hgrow : r.bytes.length = r.cap → env.growFails = false) (hunlink : ∀ n, env.unlinkFails n = false)
    (hfits : 0 < r.maxBytes → (r.trimmed bytes).sum < 2 ^ 64) :
    ∃ k, Pass bytes file r (applyRetention env bytes file r).1 (applyRetention env bytes file r).2 k := by
  have hgrow' : ¬ (r.bytes.length = r.cap ∧ env.growFails = true) := by
    rintro ⟨hlen, hfails⟩
    rw [hgrow hlen] at hfails
    cases hfails
  unfold applyRetention
  rw [hset, if_neg (by simp), if_neg hgrow']
  simp only
  obtain ⟨all, hall⟩ : ∃ all, all = r.bytes ++ [bytes] := ⟨_, rfl⟩
  have hlen : all.length = r.bytes.length + 1 := by rw [hall, List.length_append, List.length_singleton]
  rw [← hall]
  obtain ⟨j, hj⟩ := pruneSteps_spec hunlink r.maxSteps ⟨file, r.floor, all⟩
  obtain ⟨p, hp⟩ : ∃ p : Pruned, p = if 0 < r.maxSteps then
      pruneWhile (fun n _ => decide (n > r.maxSteps)) env.unlinkFails 0 all r.floor file
    else ⟨file, r.floor, all⟩ := ⟨_, rfl⟩
  rw [← hp] at hj ⊢
  have hjlen : j < all.length := hj.one (by rw [hall]; simp)
  have hleft : p.bytes = all.drop j := hj.bytes
  have hleftLen : p.bytes.length = all.length - j := by rw [hleft, List.length_drop]
  have hsteps : all.length - j ≤ 1 ∨ (0 < r.maxSteps → all.length - j ≤ r.maxSteps) := by
    have hstops := hj.stops
    simp only [List.length_drop] at hstops
    omega
  have hsum : 0 < r.maxBytes → p.bytes.sum < 2 ^ 64 := by
    intro hbytes
    refine Nat.lt_of_le_of_lt ?_ (hfits hbytes)
    unfold Retention.trimmed
    rw [hleft, ← hall]
    refine sum_drop_le all _ j ?_
    split
    · omega
    · omega
  obtain ⟨k, hk⟩ := pruneBytes_spec hunlink r.maxBytes p hsum
  obtain ⟨p', hp'⟩ : ∃ p' : Pruned, p' = if 0 < r.maxBytes then
      pruneWhile (fun _ total => decide (total > r.maxBytes)) env.unlinkFails (totalBytes p.bytes) p.bytes
        p.floor p.file
    else p := ⟨_, rfl⟩
  rw [← hp'] at hk ⊢
  have hdrop : ∀ i, p.bytes.drop i = all.drop (j + i) := fun i => by rw [hleft, List.drop_drop]
  have hone : k < p.bytes.length := hk.one (by rw [← List.length_pos_iff]; omega)
  have hfloor : p'.floor = r.floor + (j + k) := by
    rw [hk.floor, hj.floor, Nat.add_assoc]
  have hfile : Unlinked r.floor (j + k) file p'.file := by
    refine Unlinked.trans hj.file ?_
    rw [← show p.floor = r.floor + j from hj.floor]
    exact hk.file
  have hstops := hk.stops
  rw [hdrop, List.length_drop] at hstops
  refine ⟨j + k, ?_, hfile, by omega, ?_, fun i hi hbounded => ?_⟩
  · rw [hfloor, hk.bytes, hdrop, hall, hset]
  · rw [← hall, ← hlen]
    by_cases hlast : all.length - (j + k) = 1
    · exact .inl hlast
    · refine .inr ⟨fun hs => ?_, fun hb => ?_⟩
      · rw [List.length_drop]
        omega
      · omega
  · rw [← hall] at hbounded
    -- a step dropped by the first loop broke `max_steps`, by the second `max_bytes`
    by_cases hij : i < j
    · have hover := hj.goes i hij
      exact absurd (hbounded.1 hover.1) (Nat.not_le_of_lt hover.2)
    · have hover := hk.goes (i - j) (by omega)
      rw [hdrop, Nat.add_sub_cancel' (Nat.le_of_not_lt hij)] at hover
      exact absurd (hbounded.2 hover.1) (Nat.not_le_of_lt hover.2)

/-! ## Runs -/

/-- The groups are those from the floor on, the array is the end of the record, and every queued
step is committed. -/
structure RetainInv (s : Retainer) (recorded : List Nat) : Prop where
  count : recorded.length = s.writer.core.physicalStep
  groups : ∀ n, (s.writer.core.file.find? n).isSome ↔
    s.retention.floor ≤ n ∧ n < s.writer.core.physicalStep
  bytes : s.retention.isSet → s.retention.bytes = recorded.drop s.retention.floor
  below : s.retention.floor ≤ s.writer.core.physicalStep
  nonempty : 0 < s.writer.core.physicalStep → s.retention.floor < s.writer.core.physicalStep
  unset : s.retention.isSet = false →
    s.retention.floor = 0 ∧ s.retention.bytes = [] ∧ recorded = List.replicate recorded.length 0
  queue : ∀ q ∈ s.writer.core.pendingSpill,
    q.physicalStep < s.writer.core.physicalStep ∧ q.manifest.physicalStep = q.physicalStep

/-- What the drain works on is there already. -/
theorem RetainInv.touched {s : Retainer} {recorded : List Nat} (hinv : RetainInv s recorded) {env : EndEnv}
    (hdue : ∀ q ∈ s.writer.core.due env, s.retention.floor ≤ q.physicalStep) {n : Nat}
    (h : s.writer.core.touches env n) :
    n = s.writer.core.physicalStep ∨ (s.retention.floor ≤ n ∧ n < s.writer.core.physicalStep) := by
  rcases h with h | ⟨q, hq, rfl⟩
  · exact .inl h
  · obtain ⟨hbefore, hnumber⟩ := hinv.queue q (Core.mem_of_due hq)
    rw [hnumber]
    exact .inr ⟨hdue q hq, hbefore⟩

theorem RetainInv.worked {s : Retainer} {recorded : List Nat} (hinv : RetainInv s recorded) {env : EndEnv}
    (hdue : ∀ q ∈ s.writer.core.due env, s.retention.floor ≤ q.physicalStep) {file : StepFile}
    (h : s.writer.core.file.WorkedIn (s.writer.core.touches env) file) {n : Nat}
    (hn : n ≠ s.writer.core.physicalStep) :
    (file.find? n).isSome ↔ s.retention.floor ≤ n ∧ n < s.writer.core.physicalStep := by
  by_cases ht : s.writer.core.touches env n
  · rcases hinv.touched hdue ht with hown | hin
    · exact absurd hown hn
    · exact ⟨fun _ => hin, fun _ => h.kept n ((hinv.groups n).mpr hin)⟩
  · rw [h.same n ht]
    exact hinv.groups n

/-- A failed step leaves the groups as they were. -/
theorem RetainInv.abandoned {s : Retainer} {recorded : List Nat} (hinv : RetainInv s recorded) {env : EndEnv}
    {w : Writer} (h : Abandoned env s.writer.core w.core) (hunlink : env.unlinkFails = false)
    (hdue : ∀ q ∈ s.writer.core.due env, s.retention.floor ≤ q.physicalStep) :
    RetainInv { s with writer := w } recorded := by
  obtain ⟨file, hworked, hfile⟩ := h.worked
  rw [hunlink, if_neg Bool.false_ne_true] at hfile
  refine ⟨hinv.count.trans h.number.symm, fun n => ?_, hinv.bytes, ?_, ?_, hinv.unset, fun q hq => ?_⟩
  · show (w.core.file.find? n).isSome ↔ s.retention.floor ≤ n ∧ n < w.core.physicalStep
    rw [hfile, h.number, StepFile.find?_unlink]
    by_cases hn : s.writer.core.physicalStep = n
    · rw [if_pos hn]
      refine ⟨fun hf => (by cases hf), fun hlt => ?_⟩
      omega
    · rw [if_neg hn]
      exact hinv.worked hdue hworked (Ne.symm hn)
  · show s.retention.floor ≤ w.core.physicalStep
    rw [h.number]
    exact hinv.below
  · show 0 < w.core.physicalStep → s.retention.floor < w.core.physicalStep
    rw [h.number]
    exact hinv.nonempty
  · show q.physicalStep < w.core.physicalStep ∧ _
    rw [h.number]
    exact hinv.queue q (h.queue.subset hq)

/-- The groups when a commit returns, before the retention pass. -/
theorem RetainInv.ended {s : Retainer} {recorded : List Nat} (hinv : RetainInv s recorded) {env : EndEnv}
    {w : Writer} (h : Ended env s.writer.core w.core)
    (hdue : ∀ q ∈ s.writer.core.due env, s.retention.floor ≤ q.physicalStep) (n : Nat) :
    (w.core.file.find? n).isSome ↔ s.retention.floor ≤ n ∧ n < w.core.physicalStep := by
  rw [h.number]
  by_cases hn : n = s.writer.core.physicalStep
  · rw [hn]
    exact ⟨fun _ => ⟨hinv.below, Nat.lt_succ_self _⟩, fun _ => h.there⟩
  · rw [hinv.worked hdue h.worked hn]
    omega

theorem RetainInv.requeued {s : Retainer} {recorded : List Nat} (hinv : RetainInv s recorded) {env : EndEnv}
    {w : Writer} (h : Ended env s.writer.core w.core) :
    ∀ q ∈ w.core.pendingSpill, q.physicalStep < w.core.physicalStep ∧ q.manifest.physicalStep = q.physicalStep := by
  intro q hq
  rw [h.number]
  rcases h.queue.mem hq with hq | ⟨hn, hm⟩
  · exact ⟨Nat.lt_succ_of_lt (hinv.queue q hq).1, (hinv.queue q hq).2⟩
  · rw [hn, hm]
    exact ⟨Nat.lt_succ_self _, rfl⟩

theorem Retainer.state_endStep {s : Retainer} {env : EndEnv} {prune : PruneEnv} {w : Writer}
    (h : VolStream.endStep env s.writer = .ok w) :
    let pass := applyRetention prune (committedBytes env s.writer) w.core.file s.retention
    (s.endStep env prune).state = ⟨{ w with core := { w.core with file := pass.1 } }, pass.2⟩ := by
  unfold Retainer.endStep
  rw [h]
  rfl

theorem Retainer.record_endStep {s : Retainer} {env : EndEnv} {w : Writer}
    (h : VolStream.endStep env s.writer = .ok w) (prune : PruneEnv) :
    s.record (.app (.endStep env) prune) = [if s.retention.isSet then committedBytes env s.writer else 0] := by
  show (if (VolStream.endStep env s.writer).isOk then _ else _) = _
  rw [h]
  rfl

theorem Retainer.endStep_fail {s : Retainer} {env : EndEnv} {w : Writer}
    (h : VolStream.endStep env s.writer = .fail w) (prune : PruneEnv) :
    (s.endStep env prune).state = { s with writer := w } ∧ s.record (.app (.endStep env) prune) = [] := by
  unfold Retainer.endStep
  show _ ∧ (if (VolStream.endStep env s.writer).isOk then _ else _) = _
  rw [h]
  exact ⟨rfl, rfl⟩

/-- A commit while no policy is set. -/
theorem RetainInv.committed_unset {s : Retainer} {recorded : List Nat} (hinv : RetainInv s recorded)
    {env : EndEnv} {prune : PruneEnv} {w : Writer} (h : endStep env s.writer = .ok w)
    (hended : Ended env s.writer.core w.core) (hset : s.retention.isSet = false) :
    RetainInv (s.endStep env prune).state (recorded ++ s.record (.app (.endStep env) prune)) := by
  obtain ⟨hfloor, hbytes, hzeros⟩ := hinv.unset hset
  have hcount : (recorded ++ [0]).length = w.core.physicalStep := by
    rw [List.length_append, hinv.count, hended.number]
    rfl
  have hpos : s.retention.floor < w.core.physicalStep := by
    rw [hfloor, hended.number]
    exact Nat.zero_lt_succ _
  have hsame : applyRetention prune (committedBytes env s.writer) w.core.file s.retention
      = (w.core.file, s.retention) := by
    unfold applyRetention
    rw [hset]
    rfl
  have hgroups := hinv.ended hended (fun q _ => by rw [hfloor]; exact Nat.zero_le _)
  rw [Retainer.state_endStep h, Retainer.record_endStep h, hset, hsame]
  refine ⟨hcount, hgroups, fun hf => ?_, Nat.le_of_lt hpos, fun _ => hpos, fun _ => ⟨hfloor, hbytes, ?_⟩,
    hinv.requeued hended⟩
  · rw [show s.retention.isSet = true from hf] at hset
    cases hset
  · rw [List.length_append, List.length_singleton, List.replicate_succ', ← hzeros]
    rfl

/-- A commit with the policy set, and the retention pass after it. -/
theorem RetainInv.committed {s : Retainer} {recorded : List Nat} (hinv : RetainInv s recorded) {env : EndEnv}
    {prune : PruneEnv} {w : Writer} (h : endStep env s.writer = .ok w) (hended : Ended env s.writer.core w.core)
    (hset : s.retention.isSet = true) (hat : RetainOkAt s (.app (.endStep env) prune)) :
    RetainInv (s.endStep env prune).state (recorded ++ s.record (.app (.endStep env) prune))
      ∧ Retained s.retention.floor (recorded ++ s.record (.app (.endStep env) prune))
        (s.endStep env prune).state := by
  obtain ⟨⟨-, hprune⟩, hgrow, hfits, hdue⟩ := hat
  have hgroups := hinv.ended hended hdue
  have hbelow := hinv.below
  have hcount := hinv.count
  have hnumber := hended.number
  obtain ⟨k, hpolicy, hfile, hone, hstops, hgoes⟩ :=
    applyRetention_spec w.core.file hset (hgrow hset) hprune (hfits hset)
  rw [Retainer.state_endStep h, Retainer.record_endStep h, hset, if_pos rfl]
  generalize applyRetention prune (committedBytes env s.writer) w.core.file s.retention = pass at hpolicy hfile ⊢
  obtain ⟨file, r⟩ := pass
  simp only at hpolicy hfile ⊢
  obtain ⟨all, hall⟩ : ∃ all, all = recorded ++ [committedBytes env s.writer] := ⟨_, rfl⟩
  have hlen : all.length = w.core.physicalStep := by
    rw [hall, List.length_append, hcount, hnumber]
    rfl
  have hbytesLen : s.retention.bytes.length = s.writer.core.physicalStep - s.retention.floor := by
    rw [hinv.bytes hset, List.length_drop, hcount]
  -- the array with the new step is the end of the record from the old floor on
  have hdrop : ∀ i, (s.retention.bytes ++ [committedBytes env s.writer]).drop i
      = all.drop (s.retention.floor + i) := by
    intro i
    rw [hall, hinv.bytes hset, ← List.drop_append_of_le_length (by rw [hcount]; exact hbelow), List.drop_drop]
  rw [hdrop] at hstops hpolicy
  rw [← hall]
  have hfloor : r.floor = s.retention.floor + k := by rw [hpolicy]
  have hbytes : r.bytes = all.drop r.floor := by rw [hfloor, hpolicy]
  have hbounds : ∀ l, r.Bounded l ↔ s.retention.Bounded l := by
    intro l
    rw [hpolicy]
    rfl
  have hlast : r.floor < w.core.physicalStep := by omega
  have hleft : ∀ n, (file.find? n).isSome ↔ r.floor ≤ n ∧ n < w.core.physicalStep := by
    intro n
    rw [hfile n]
    split
    · refine ⟨fun hf => (by cases hf), fun hn => ?_⟩
      omega
    · rw [hgroups n]
      omega
  have hstop : r.floor + 1 = w.core.physicalStep ∨ r.Bounded (all.drop r.floor) := by
    rcases hstops with hstops | hstops
    · left
      omega
    · right
      rw [hbounds, hfloor]
      exact hstops
  have hnewest : (file.find? (w.core.physicalStep - 1)).isSome := (hleft _).mpr (by omega)
  have hrequeued := hinv.requeued hended
  refine ⟨⟨hlen, hleft, fun _ => hbytes, Nat.le_of_lt hlast, fun _ => hlast, fun hf => ?_, hrequeued⟩,
    ⟨?_, hleft, fun i => ?_, hnewest, ⟨⟨?_, hlast, hstop⟩, ?_⟩⟩⟩
  · rw [hpolicy] at hf
    rw [show s.retention.isSet = false from hf] at hset
    cases hset
  · show r.floor + r.bytes.length = w.core.physicalStep
    rw [hbytes, List.length_drop, hlen]
    omega
  · rw [hbytes, List.getElem?_drop]
  · show s.retention.floor ≤ r.floor
    omega
  · rintro n ⟨hn, hlt, hkeeps⟩
    simp only at hlt hkeeps ⊢
    refine Nat.le_of_not_lt (fun hnot => ?_)
    rcases hkeeps with hnewest | hbounded
    · omega
    · refine hgoes (n - s.retention.floor) (by omega) ?_
      rw [hdrop, Nat.add_sub_cancel' hn]
      exact (hbounds _).mp hbounded

theorem RetainInv.setRetention {s : Retainer} {recorded : List Nat} (hinv : RetainInv s recorded)
    {maxSteps maxBytes : Nat} {seedFails : Bool}
    (hat : RetainOkAt s (.setRetention maxSteps maxBytes seedFails)) :
    RetainInv (s.apply (.setRetention maxSteps maxBytes seedFails)) recorded := by
  have hat' : ¬ s.retention.isSet → 0 < s.writer.core.physicalStep → seedFails = false := hat
  unfold Retainer.apply VolStream.setRetention
  simp only
  cases hset : s.retention.isSet with
  | true =>
    -- an array that is in use is not seeded again
    have hseed : ¬ (0 < s.writer.core.physicalStep ∧ s.retention.bytes = [] ∧ (!seedFails) = true) := by
      rintro ⟨hpos, hempty, -⟩
      have hlen := congrArg List.length (hinv.bytes hset)
      rw [hempty, List.length_drop, hinv.count, List.length_nil] at hlen
      have := hinv.nonempty hpos
      omega
    rw [if_neg hseed]
    exact ⟨hinv.count, hinv.groups, fun _ => hinv.bytes hset, hinv.below, hinv.nonempty,
      fun hf => (by cases hf), hinv.queue⟩
  | false =>
    obtain ⟨hfloor, hbytes, hzeros⟩ := hinv.unset hset
    rcases Nat.eq_zero_or_pos s.writer.core.physicalStep with hzero | hpos
    · rw [if_neg (by omega)]
      refine ⟨hinv.count, hinv.groups, fun _ => ?_, hinv.below, hinv.nonempty, fun hf => (by cases hf), hinv.queue⟩
      have hempty : recorded = [] := List.length_eq_zero_iff.mp (hinv.count.trans hzero)
      simp only [hbytes, hempty, List.drop_nil]
    · have hok : seedFails = false := hat' (by rw [hset]; exact Bool.false_ne_true) hpos
      rw [if_pos ⟨hpos, hbytes, by rw [hok]; rfl⟩]
      refine ⟨hinv.count, ?_, fun _ => ?_, Nat.zero_le _, fun _ => hpos, fun hf => (by cases hf), hinv.queue⟩
      · intro n
        have := hinv.groups n
        rw [hfloor] at this
        exact this
      · show List.replicate s.writer.core.physicalStep 0 = recorded.drop 0
        rw [List.drop_zero, ← hinv.count]
        exact hzeros.symm

theorem RetainInv.apply {s : Retainer} {recorded : List Nat} (hinv : RetainInv s recorded) {ev : RetainEvent}
    (hat : RetainOkAt s ev) : RetainInv (s.apply ev) (recorded ++ s.record ev) := by
  cases ev with
  | setRetention maxSteps maxBytes seedFails =>
    rw [show s.record (.setRetention maxSteps maxBytes seedFails) = [] from rfl, List.append_nil]
    exact hinv.setRetention hat
  | app ev prune =>
    by_cases hev : ∃ env, ev = .endStep env
    · obtain ⟨env, rfl⟩ := hev
      show RetainInv (s.endStep env prune).state _
      rcases endStep_cases env s.writer with ⟨-, h⟩ | ⟨w, h, hended⟩ | ⟨w, h, habandoned⟩
      · obtain ⟨hstate, hrecord⟩ := Retainer.endStep_fail h prune
        rw [hstate, hrecord, List.append_nil]
        exact hinv
      · cases hset : s.retention.isSet with
        | false => exact hinv.committed_unset h hended hset
        | true => exact (hinv.committed h hended hset hat).1
      · obtain ⟨hstate, hrecord⟩ := Retainer.endStep_fail h prune
        rw [hstate, hrecord, List.append_nil]
        exact hinv.abandoned habandoned hat.1.1 hat.2.2.2
    · have hcore := (committed_apply s.writer (fun env h => hev ⟨env, h⟩)).1
      have hfile := congrArg Core.file hcore
      have hqueue := congrArg Core.pendingSpill hcore
      have hnumber := congrArg Core.physicalStep hcore
      simp only [Core.committed] at hfile hqueue hnumber
      have hother : s.apply (.app ev prune) = { s with writer := (s.writer.apply ev).state }
          ∧ s.record (.app ev prune) = [] := by
        cases ev with
        | endStep env => exact absurd ⟨env, rfl⟩ hev
        | _ => exact ⟨rfl, rfl⟩
      rw [hother.1, hother.2, List.append_nil]
      constructor
      · exact hinv.count.trans hnumber.symm
      · simp only [hfile, hnumber]
        exact hinv.groups
      · exact hinv.bytes
      · simp only [hnumber]
        exact hinv.below
      · simp only [hnumber]
        exact hinv.nonempty
      · exact hinv.unset
      · simp only [hqueue, hnumber]
        exact hinv.queue

theorem RetainInv.init (config : Config) : RetainInv (.init config) [] := by
  refine ⟨rfl, fun n => ⟨fun hf => (by cases hf), fun hn => ?_⟩, fun hf => (by cases hf), Nat.le_refl _,
    fun hf => absurd hf (Nat.lt_irrefl _), fun _ => ⟨rfl, rfl, rfl⟩, List.forall_mem_nil _⟩
  exact absurd hn.2 (Nat.not_lt_zero _)

/-- In every run that keeps the accounting whole and drains no step it has pruned, each commit
under the policy leaves the bounded end of the history. -/
theorem retention_bound {config : Config} {events : List RetainEvent} {env : EndEnv} {prune : PruneEnv}
    (hat : Runs.Meets Retainer.apply RetainOkAt (.init config) (events ++ [.app (.endStep env) prune]))
    (hset : (Retainer.after config events).retention.isSet)
    (hok : (endStep env (Retainer.after config events).writer).isOk) :
    Retained (Retainer.after config events).retention.floor
      (Retainer.recorded config (events ++ [.app (.endStep env) prune]))
      (Retainer.after config (events ++ [.app (.endStep env) prune])) := by
  obtain ⟨hbefore, hlast, -⟩ := Runs.meets_append.mp hat
  have hinv : RetainInv (Retainer.after config events) (Retainer.recorded config events) :=
    Runs.run_keeps (P := RetainInv) (fun _ _ _ hs hev => hs.apply hev) (RetainInv.init config) hbefore
  have hafter : Retainer.after config (events ++ [.app (.endStep env) prune])
      = ((Retainer.after config events).endStep env prune).state := Runs.run_append _ _ _
  have hrecorded : Retainer.recorded config (events ++ [.app (.endStep env) prune])
      = Retainer.recorded config events ++ (Retainer.after config events).record (.app (.endStep env) prune) := by
    unfold Retainer.recorded
    rw [Runs.observed_append]
    show _ ++ (_ ++ []) = _
    rw [List.append_nil]
    rfl
  rw [hafter, hrecorded]
  rcases endStep_cases env (Retainer.after config events).writer with ⟨-, h⟩ | ⟨w, h, hended⟩ | ⟨w, h, -⟩
  · rw [h] at hok
    cases hok
  · exact (hinv.committed h hended hset hlast).2
  · rw [h] at hok
    cases hok

/-! ### A pruned step comes back -/

/-- One-step retention under `Spill`. Step 0 is replayed, steps 1 and 2 are spilled while the reader
stays at step 0, and each commit prunes the step before; step 3 drains what is due by then. -/
def prunedRun : List RetainEvent :=
  [.app (.setQueuePolicy .spill 0) .quiet, .setRetention 1 0 false,
    .app (.beginStep [] 0) .quiet, .app (createByte 0 ['a']) .quiet, .app (.closeHandle 0) .quiet,
    .app (.endStep .lagging) .quiet,
    .app (.beginStep [] 1) .quiet, .app (createByte 1 ['a']) .quiet, .app (.closeHandle 1) .quiet,
    .app (.endStep .lagging) .quiet,
    .app (.beginStep [] 2) .quiet, .app (createByte 2 ['a']) .quiet, .app (.closeHandle 2) .quiet,
    .app (.endStep .lagging) .quiet,
    .app (.beginStep [] 3) .quiet, .app (createByte 3 ['a']) .quiet, .app (.closeHandle 3) .quiet]

/-- When the reader has gone, step 3 drains step 1, which was pruned: `/step` holds 1 and 3, and the
floor is 3. -/
theorem prunedRun_not_retained :
    ¬ ∀ config events env prune,
      Runs.Meets Retainer.apply DeletesSucceed (.init config) (events ++ [.app (.endStep env) prune]) →
      (Retainer.after config events).retention.isSet →
      (endStep env (Retainer.after config events).writer).isOk →
      Retained (Retainer.after config events).retention.floor
        (Retainer.recorded config (events ++ [.app (.endStep env) prune]))
        (Retainer.after config (events ++ [.app (.endStep env) prune])) := by
  intro h
  have hdeletes : Runs.Meets Retainer.apply DeletesSucceed (.init .staging)
      (prunedRun ++ [.app (.endStep .quiet) .quiet]) :=
    ⟨trivial, trivial, trivial, trivial, trivial, ⟨rfl, fun _ => rfl⟩, trivial, trivial, trivial,
      ⟨rfl, fun _ => rfl⟩, trivial, trivial, trivial, ⟨rfl, fun _ => rfl⟩, trivial, trivial, trivial,
      ⟨rfl, fun _ => rfl⟩, trivial⟩
  have hretained := h .staging prunedRun .quiet .quiet hdeletes (by decide) (by decide)
  have hback := (hretained.groups 1).mp (by decide)
  exact absurd hback.1 (by decide)

/-- While the reader stays behind nothing is drained, and only step 3 is left. -/
theorem prunedRun_retained :
    (Retainer.after .staging (prunedRun ++ [.app (.endStep .lagging) .quiet])).writer.core.file.keys = [3]
      ∧ Retained (Retainer.after .staging prunedRun).retention.floor
        (Retainer.recorded .staging (prunedRun ++ [.app (.endStep .lagging) .quiet]))
        (Retainer.after .staging (prunedRun ++ [.app (.endStep .lagging) .quiet])) := by
  refine ⟨by decide, retention_bound ?_ (by decide) (by decide)⟩
  have hstep : ∀ s : Retainer, s.retention.maxBytes = 0 → s.writer.core.due .lagging = [] →
      RetainOkAt s (.app (.endStep .lagging) .quiet) := by
    intro s hbytes hdue
    refine ⟨⟨rfl, fun _ => rfl⟩, fun _ _ => rfl, fun _ hpos => ?_, ?_⟩
    · rw [hbytes] at hpos
      exact absurd hpos (Nat.lt_irrefl 0)
    · rw [hdue]
      exact List.forall_mem_nil _
  exact ⟨trivial, fun _ _ => rfl, trivial, trivial, trivial, hstep _ (by decide) (by decide), trivial, trivial,
    trivial, hstep _ (by decide) (by decide), trivial, trivial, trivial, hstep _ (by decide) (by decide), trivial,
    trivial, trivial, hstep _ (by decide) (by decide), trivial⟩

end VolStream
