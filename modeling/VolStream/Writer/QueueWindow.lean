import VolStream.Writer.Capture

/-!
# The window of the queue policy

A step is late when it is more than `reserve_slots` steps beyond the one a tracked reader has acknowledged. The
writer makes that comparison in three places: before it applies the policy, in every iteration of the Block wait,
and for every spilled entry it might drain. All three add the two numbers in a `uint64_t`. They agree with each
other for that reason, and with the exact comparison unless the sum wraps and lands in front of the step.
-/

namespace VolStream

/-- The step is more than `reserve` steps beyond `acked`. -/
def Late (step acked reserve : Nat) : Prop := acked + reserve < step

/-- `min_acked + reserve_slots`, a `uint64_t`. -/
def windowEnd (acked reserve : Nat) : Nat := (acked + reserve) % 2 ^ 64

/-- The loop of the Block wait: the iteration in which it caught up, `none` if it timed out. A view is what
`H5VL__stream_queue_lag_view` finds, `none` once no reader is tracked. -/
def blockWait (step reserve : Nat) (views : Nat → Option Nat) : Nat → Nat → Option Nat
  | 0, _ => none
  | left + 1, iter =>
    match views iter with
    | none => some iter
    | some curMin =>
      if step ≤ windowEnd curMin reserve then some iter else blockWait step reserve views left (iter + 1)

/-- The wait of `H5VL__stream_apply_queue_policy`. -/
def blockCaughtUp (step reserve : Nat) (views : Nat → Option Nat) : Bool :=
  (blockWait step reserve views 600 0).isSome

/-- Nothing the wait reads later brings it back to an iteration it left behind. -/
theorem blockWait_ge {step reserve : Nat} {views : Nat → Option Nat} {left iter i : Nat}
    (h : blockWait step reserve views left iter = some i) : iter ≤ i := by
  induction left generalizing iter with
  | zero => cases h
  | succ left ih =>
    rw [blockWait] at h
    cases hv : views iter with
    | none =>
      simp only [hv, Option.some.injEq] at h
      exact Nat.le_of_eq h
    | some curMin =>
      simp only [hv] at h
      by_cases hin : step ≤ windowEnd curMin reserve
      · rw [if_pos hin, Option.some.injEq] at h
        exact Nat.le_of_eq h
      · rw [if_neg hin] at h
        exact Nat.le_of_succ_le (ih h)

/-- An iteration that sees a reader goes on exactly when the step is behind the window's end. -/
theorem blockWait_goes_on (step reserve : Nat) {views : Nat → Option Nat} (left : Nat) {iter acked : Nat}
    (hv : views iter = some acked) :
    blockWait step reserve views (left + 1) iter ≠ some iter ↔ windowEnd acked reserve < step := by
  rw [blockWait, hv]
  by_cases hin : step ≤ windowEnd acked reserve
  · simp [if_pos hin, Nat.not_lt.mpr hin]
  · simp only [if_neg hin]
    refine iff_of_true (fun h => ?_) (Nat.lt_of_not_le hin)
    exact absurd (blockWait_ge h) (Nat.not_succ_le_self iter)

/-- The loop runs out of iterations exactly when every one of them saw a reader the step was too far beyond. -/
theorem blockWait_eq_none (step reserve : Nat) (views : Nat → Option Nat) (left iter : Nat) :
    blockWait step reserve views left iter = none ↔
      ∀ i < left, ∃ acked, views (iter + i) = some acked ∧ windowEnd acked reserve < step := by
  induction left generalizing iter with
  | zero => exact iff_of_true rfl nofun
  | succ left ih =>
    have hsplit : (∀ i < left + 1, ∃ acked, views (iter + i) = some acked ∧ windowEnd acked reserve < step) ↔
        (∃ acked, views iter = some acked ∧ windowEnd acked reserve < step) ∧
          ∀ i < left, ∃ acked, views (iter + 1 + i) = some acked ∧ windowEnd acked reserve < step := by
      rw [Nat.forall_lt_succ_left]
      simp only [Nat.add_zero, Nat.add_assoc, Nat.add_comm 1]
    rw [blockWait, hsplit, ← ih]
    cases hv : views iter with
    | none => simp
    | some curMin =>
      by_cases hin : step ≤ windowEnd curMin reserve
      · simp [hin]
      · simp [hin, Nat.lt_of_not_le hin]

/-- The policy's comparison, apart from the open placeholders that keep a step on the ordinary path. -/
theorem underPressure_iff (fs : Core) (acked : Nat) :
    fs.underPressure (some acked) = true ↔
      windowEnd acked fs.reserveSlots < fs.physicalStep ∧ fs.hasOpenPlaceholder = false := by
  simp [Core.underPressure, windowEnd]

/-- A drain never puts entries back. -/
theorem drainEntries_length (env : Nat → DrainEnv) (limit k : Nat) (queue : List SpillEntry) (st : Replay) :
    (drainEntries env limit k queue st).1.length ≤ queue.length := by
  induction queue generalizing k st with
  | nil => exact Nat.le_refl _
  | cons q queue ih =>
    rw [drainEntries]
    split
    · exact Nat.le_refl _
    · split
      · exact Nat.le_refl _
      · cases replayManifest (env k).replay q.args st with
        | fail st' => exact Nat.le_refl _
        | ok st' => exact Nat.le_succ_of_le (ih (k + 1) st')

/-- The oldest entry, which nothing else keeps from being drained, stays exactly when it is behind the window's
end. -/
theorem drainSpill_keeps {env : Nat → DrainEnv} {acked : Nat} {st st' : Replay} {q : SpillEntry}
    {queue : List SpillEntry} (hqueue : st.core.pendingSpill = q :: queue) (hread : (env 0).readFails = false)
    (hreplay : replayManifest (env 0).replay q.args st = .ok st') :
    (drainSpill env acked st).core.pendingSpill = q :: queue ↔
      windowEnd acked st.core.reserveSlots < q.physicalStep := by
  have hleft : (drainSpill env acked st).core.pendingSpill =
      (drainEntries env (windowEnd acked st.core.reserveSlots) 0 (q :: queue) st).1 := by
    rw [← hqueue]
    rfl
  rw [hleft, drainEntries]
  by_cases hlate : windowEnd acked st.core.reserveSlots < q.physicalStep
  · simp [hlate]
  · simp only [gt_iff_lt, if_neg hlate, hread, Bool.false_eq_true, if_false, hreplay]
    refine iff_of_false (fun h => ?_) hlate
    have hlen := drainEntries_length env (windowEnd acked st.core.reserveSlots) 1 queue st'
    rw [h, List.length_cons] at hlen
    omega

/-- The three comparisons at one step, acknowledged step and reserve, each made in any state with these. -/
structure WindowTests (step acked reserve : Nat) (late : Prop) : Prop where
  triggered : ∀ fs : Core, fs.physicalStep = step → fs.reserveSlots = reserve →
    (fs.underPressure (some acked) = true ↔ late ∧ fs.hasOpenPlaceholder = false)
  waits : ∀ views left iter, views iter = some acked →
    (blockWait step reserve views (left + 1) iter ≠ some iter ↔ late)
  timesOut : ∀ views, (∀ i, views i = some acked) → (blockCaughtUp step reserve views = false ↔ late)
  undrained : ∀ env st st' q queue, st.core.reserveSlots = reserve → st.core.pendingSpill = q :: queue →
    q.physicalStep = step → (env 0).readFails = false → replayManifest (env 0).replay q.args st = .ok st' →
    ((drainSpill env acked st).core.pendingSpill = q :: queue ↔ late)

/-- They agree with each other. -/
theorem windowTests_wrapped (step acked reserve : Nat) :
    WindowTests step acked reserve (windowEnd acked reserve < step) where
  triggered fs hstep hreserve := by rw [underPressure_iff, hstep, hreserve]
  waits views left iter hv := blockWait_goes_on step reserve left hv
  timesOut views hv := by
    rw [blockCaughtUp, Option.isSome_eq_false_iff, Option.isNone_iff_eq_none, blockWait_eq_none]
    refine ⟨fun h => ?_, fun h i _ => ⟨acked, hv _, h⟩⟩
    obtain ⟨acked', hview, hlate⟩ := h 0 (by decide)
    rw [hv, Option.some.injEq] at hview
    rwa [hview]
  undrained env st st' q queue hreserve hqueue hstep hread hreplay := by
    rw [drainSpill_keeps hqueue hread hreplay, hreserve, hstep]

/-- What they all decide is settled by any one of them. -/
theorem WindowTests.unique {step acked reserve : Nat} {late late' : Prop} (h : WindowTests step acked reserve late)
    (h' : WindowTests step acked reserve late') : late ↔ late' :=
  (h.waits (fun _ => some acked) 0 0 rfl).symm.trans (h'.waits (fun _ => some acked) 0 0 rfl)

theorem WindowTests.congr {step acked reserve : Nat} {late late' : Prop} (h : WindowTests step acked reserve late)
    (hiff : late ↔ late') : WindowTests step acked reserve late' := by
  rwa [← propext hiff]

/-- When that is the exact comparison. -/
theorem windowTests_late_iff {step acked reserve : Nat} (hs : step < 2 ^ 64) (ha : acked < 2 ^ 64)
    (hr : reserve < 2 ^ 64) :
    WindowTests step acked reserve (Late step acked reserve) ↔
      acked + reserve < 2 ^ 64 ∨ step + 2 ^ 64 ≤ acked + reserve := by
  have hwrapped := windowTests_wrapped step acked reserve
  have hexact : (windowEnd acked reserve < step ↔ Late step acked reserve) ↔
      acked + reserve < 2 ^ 64 ∨ step + 2 ^ 64 ≤ acked + reserve := by
    unfold windowEnd Late
    omega
  rw [← hexact]
  exact ⟨fun h => hwrapped.unique h, fun h => hwrapped.congr h⟩

/-- For all values the three tests agree, and they are the exact comparison if and only if the sum stays below
`2 ^ 64`, or wraps and the wrapped sum is still not in front of the step. -/
theorem queue_window_exact_iff (step acked reserve : UInt64) :
    (∃ late, WindowTests step.toNat acked.toNat reserve.toNat late) ∧
      (WindowTests step.toNat acked.toNat reserve.toNat (Late step.toNat acked.toNat reserve.toNat) ↔
        acked.toNat + reserve.toNat < 2 ^ 64 ∨ step.toNat + 2 ^ 64 ≤ acked.toNat + reserve.toNat) :=
  ⟨⟨_, windowTests_wrapped step.toNat acked.toNat reserve.toNat⟩,
    windowTests_late_iff step.toNat_lt acked.toNat_lt reserve.toNat_lt⟩

/-- With a reserve of `UINT64_MAX`, which no reader can fall behind, step 5 is late for a reader at step 1: the
policy is triggered and the wait times out. -/
theorem queue_window_max_reserve :
    ¬ ∀ step acked reserve : UInt64,
      WindowTests step.toNat acked.toNat reserve.toNat (Late step.toNat acked.toNat reserve.toNat) := by
  intro h
  have hexact := h 5 1 18446744073709551615
  rw [windowTests_late_iff (UInt64.toNat_lt _) (UInt64.toNat_lt _) (UInt64.toNat_lt _)] at hexact
  have hmax : (18446744073709551615 : UInt64).toNat = 2 ^ 64 - 1 := rfl
  have hone : (1 : UInt64).toNat = 1 := rfl
  have hfive : (5 : UInt64).toNat = 5 := rfl
  rw [hmax, hone, hfive] at hexact
  omega

end VolStream
