import VolStream.Transport.Acks
import VolStream.Writer.AgreedPolicy

/-!
# Flow control, from the acknowledgements to the commit

At the end of a step each rank looks at its own lag table, again and again while it waits, and the readers go on
acknowledging to one rank or another, come and leave. A step that is committed under pressure is then within reach of
every reader that was counted when the ranks let it through; and a step is given up only for a reader that is behind.
-/

namespace VolStream

/-! ## The least of the ranks' lags -/

theorem foldl_min (l : List Nat) (a : Nat) :
    (∀ v ∈ l, l.foldl Nat.min a ≤ v) ∧ l.foldl Nat.min a ≤ a ∧ (l.foldl Nat.min a = a ∨ l.foldl Nat.min a ∈ l) := by
  induction l generalizing a with
  | nil => exact ⟨nofun, Nat.le_refl a, .inl rfl⟩
  | cons v l ih =>
    have ⟨hall, hle, hmem⟩ := ih (Nat.min a v)
    rw [List.foldl_cons]
    refine ⟨fun v' hv' => ?_, Nat.le_trans hle (Nat.min_le_left a v), ?_⟩
    · rcases List.mem_cons.mp hv' with rfl | hv'
      · exact Nat.le_trans hle (Nat.min_le_right a v')
      · exact hall v' hv'
    · rcases hmem with heq | hmem
      · rw [heq]
        by_cases hav : a ≤ v
        · exact .inl (Nat.min_eq_left hav)
        · exact .inr (by rw [show Nat.min a v = v from Nat.min_eq_right (by omega)]; exact List.mem_cons_self)
      · exact .inr (List.mem_cons_of_mem _ hmem)

section

variable {n : Nat} {tracked : Fin (n + 1) → Option Nat}

theorem agreedLag_eq_none_iff : agreedLag tracked = none ↔ ∀ r, tracked r = none := by
  unfold agreedLag
  cases hany : (List.ofFn tracked).any Option.isSome with
  | true =>
    simp only [if_true, reduceCtorEq, false_iff]
    intro hnone
    obtain ⟨v, hv, hsome⟩ := List.any_eq_true.mp hany
    obtain ⟨r, rfl⟩ := List.mem_ofFn.mp hv
    rw [hnone r] at hsome
    cases hsome
  | false =>
    simp only [Bool.false_eq_true, if_false, true_iff]
    intro r
    have := List.any_eq_false.mp hany (tracked r) (List.mem_ofFn.mpr ⟨r, rfl⟩)
    simpa using this

theorem agreedLag_le {least k : Nat} (h : agreedLag tracked = some least) {r : Fin (n + 1)} (hr : tracked r = some k) :
    least ≤ k := by
  unfold agreedLag at h
  split at h
  · rw [Option.some.injEq] at h
    have := (foldl_min (List.ofFn fun r => (tracked r).getD (2 ^ 64 - 1)) (2 ^ 64 - 1)).1 k
      (List.mem_ofFn.mpr ⟨r, by simp [hr]⟩)
    exact h ▸ this
  · cases h

theorem agreedLag_attained {least : Nat} (h : agreedLag tracked = some least)
    (hword : ∀ r k, tracked r = some k → k < 2 ^ 64) : ∃ r, tracked r = some least := by
  have hcap : least = 2 ^ 64 - 1 → ∃ r, tracked r = some least := by
    intro heq
    have ⟨r, hr⟩ : ∃ r, tracked r ≠ none := by
      rw [← not_forall, ← agreedLag_eq_none_iff, h]
      exact Option.some_ne_none least
    have ⟨k, hk⟩ := Option.ne_none_iff_exists'.mp hr
    have hle := agreedLag_le h hk
    have hlt := hword r k hk
    exact ⟨r, by rw [hk, show k = least by omega]⟩
  have hvalue := h
  unfold agreedLag at hvalue
  split at hvalue
  · rw [Option.some.injEq] at hvalue
    rcases (foldl_min (List.ofFn fun r => (tracked r).getD (2 ^ 64 - 1)) (2 ^ 64 - 1)).2.2 with hinit | hmem
    · exact hcap (hvalue.symm.trans hinit)
    · obtain ⟨r, hr⟩ := List.mem_ofFn.mp hmem
      have hr : (tracked r).getD (2 ^ 64 - 1) = least := hr.trans hvalue
      cases htracked : tracked r with
      | none =>
        rw [htracked] at hr
        exact hcap hr.symm
      | some k =>
        rw [htracked] at hr
        exact ⟨r, htracked.trans (congrArg some hr)⟩
  · cases hvalue

end

/-! ## The ranks' looks at their tables -/

/-- The ranks of a parallel writer, and when each takes its `i`-th look: after so many events. -/
structure Looks (n : Nat) where
  events : List AckEvent
  rank : Fin (n + 1) → MemberId
  moment : Fin (n + 1) → Nat → Nat

namespace Looks

variable {n : Nat} (l : Looks n)

-- what has happened by then
def before (r : Fin (n + 1)) (i : Nat) : List AckEvent := l.events.take (l.moment r i)

/-- The `i`-th look of a rank counts this reader, with this mark. -/
def Counts (r : Fin (n + 1)) (i : Nat) (reader : MemberId) (mark : Nat) : Prop :=
  (AckGroup.run (l.before r i)).present (l.rank r) reader = true ∧
    ((AckGroup.run (l.before r i)).lag (l.rank r)).find? reader = some mark

/-- What the ranks agree on in the `i`-th look. -/
def lag (i : Nat) : Option Nat :=
  agreedLag fun r => (AckGroup.run (l.before r i)).minAckedStep (l.rank r)

variable {l} {r : Fin (n + 1)} {i : Nat} {reader : MemberId} {mark : Nat}

theorem Counts.acked (h : l.Counts r i reader mark) : .ack reader mark ∈ l.before r i :=
  (AckGroup.honest_run _).acked _ _ _ h.2

theorem Counts.least_le (h : l.Counts r i reader mark) : ∃ least, l.lag i = some least ∧ least ≤ mark := by
  have hnodup := (AckGroup.honest_run (l.before r i)).nodup (l.rank r)
  cases hrank : (AckGroup.run (l.before r i)).minAckedStep (l.rank r) with
  | none =>
    have := (HighWater.least_eq_none_iff hnodup).mp hrank reader h.1
    rw [h.2] at this
    cases this
  | some k =>
    have hk : k ≤ mark := (AckGroup.minAckedStep_run hrank h.1 h.2).1
    cases hlag : l.lag i with
    | none =>
      have := agreedLag_eq_none_iff.mp hlag r
      rw [hrank] at this
      cases this
    | some least => exact ⟨least, rfl, Nat.le_trans (agreedLag_le hlag hrank) hk⟩

/-- The least is the mark of a reader that a rank counts; the acknowledged steps are `uint64_t`. -/
theorem counts_of_lag {least : Nat} (h : l.lag i = some least)
    (hword : ∀ reader step, .ack reader step ∈ l.events → step < 2 ^ 64) :
    ∃ r reader, l.Counts r i reader least := by
  have hleast : ∀ r k, (AckGroup.run (l.before r i)).minAckedStep (l.rank r) = some k →
      ∃ reader, l.Counts r i reader k := fun r k hk =>
    ((HighWater.least_eq_some_iff ((AckGroup.honest_run (l.before r i)).nodup (l.rank r)) k).mp hk).1
  have ⟨r, hr⟩ := agreedLag_attained h fun r k hk => by
    have ⟨reader, hcounts⟩ := hleast r k hk
    exact hword reader k (List.mem_of_mem_take hcounts.acked)
  have ⟨reader, hcounts⟩ := hleast r least hr
  exact ⟨r, reader, hcounts⟩

end Looks

/-! ## The commit -/

theorem windowEnd_le (acked reserve : Nat) : windowEnd acked reserve ≤ acked + reserve := Nat.mod_le _ _

/-- Whether a look lets a step through. -/
theorem blockCaughtUp_iff (step reserve : Nat) (views : Nat → Option Nat) :
    blockCaughtUp step reserve views = true ↔
      ∃ i < 600, ∀ acked, views i = some acked → step ≤ windowEnd acked reserve := by
  rw [← not_iff_not, Bool.not_eq_true, blockCaughtUp, Option.isSome_eq_false_iff, Option.isNone_iff_eq_none,
    blockWait_eq_none]
  simp only [Nat.zero_add, not_exists, not_and, not_forall, Nat.not_le, exists_prop]

/-- A verdict to commit, without a timeout, comes from a look that has the step in the window. -/
theorem Core.verdict_replay {fs : Core} {lags : Nat → Option Nat} (hactive : fs.activePolicy.isSome = true)
    (hopen : fs.hasOpenPlaceholder = false) (h : fs.verdict lags = .replay) :
    ∃ i ≤ 600, ∀ acked, lags i = some acked → fs.physicalStep ≤ windowEnd acked fs.reserveSlots := by
  obtain ⟨policy, hpolicy⟩ := Option.isSome_iff_exists.mp hactive
  have hfate : fs.fate (lags 0) = .replay := congrArg Verdict.fate h
  have htimedOut : (decide (fs.activePolicy = some .block) && fs.underPressure (lags 0) &&
      !blockCaughtUp fs.physicalStep fs.reserveSlots fun i => lags (i + 1)) = false := congrArg Verdict.timedOut h
  cases hpressure : fs.underPressure (lags 0) with
  | false =>
    refine ⟨0, Nat.zero_le _, fun acked hacked => ?_⟩
    rw [hacked] at hpressure
    have hnot := (underPressure_iff fs acked).not.mp (by rw [hpressure]; exact Bool.false_ne_true)
    by_contra hlate
    exact hnot ⟨Nat.lt_of_not_le hlate, hopen⟩
  | true =>
    rw [hpressure, hpolicy] at htimedOut
    unfold fate at hfate
    rw [hpolicy, hpressure] at hfate
    cases policy with
    | block =>
      have hcaughtUp : (blockCaughtUp fs.physicalStep fs.reserveSlots fun i => lags (i + 1)) = true := by
        simpa using htimedOut
      have ⟨i, hi, hwindow⟩ := (blockCaughtUp_iff _ _ _).mp hcaughtUp
      exact ⟨i + 1, hi, hwindow⟩
    | discard => cases hfate
    | spill => cases hbake : fs.config.haveBake <;> rw [hbake] at hfate <;> cases hfate

-- two ranks, 1 and 2, with one reader each; the second has acknowledged the step `behind`
def twoReaders (behind : Nat) : Looks 1 where
  events := [.start 1 true [5, 6], .start 2 true [5, 6], .start 5 false [1, 2], .start 6 false [1, 2], .learn 5 1,
    .learn 6 2, .ack 5 4, .forward 5 (.answered true), .ack 6 behind, .forward 6 (.answered true)]
  rank r := r.val + 1
  moment _ _ := 10

/-- With a queue policy, no open placeholder and no timeout: a step is committed only when each reader that is counted
in one of the looks, the same for all ranks, has acknowledged a step that is at most the reserve behind. -/
theorem committed_within_reach {n : Nat} (l : Looks n) (fs : Core) (hactive : fs.activePolicy.isSome = true)
    (hopen : fs.hasOpenPlaceholder = false) (h : fs.verdict l.lag = .replay) :
    ∃ i ≤ 600, ∀ r reader mark, l.Counts r i reader mark →
      fs.physicalStep ≤ mark + fs.reserveSlots ∧ .ack reader mark ∈ l.before r i := by
  have ⟨i, hi, hwindow⟩ := Core.verdict_replay hactive hopen h
  refine ⟨i, hi, fun r reader mark hcounts => ⟨?_, hcounts.acked⟩⟩
  have ⟨least, hlag, hle⟩ := hcounts.least_le
  have hend := windowEnd_le least fs.reserveSlots
  have hin := hwindow least hlag
  omega

theorem committed_within_reach_twoReaders :
    ∃ i ≤ 600, ∀ r reader mark, (twoReaders 3).Counts r i reader mark →
      laggingRank.physicalStep ≤ mark + laggingRank.reserveSlots ∧ .ack reader mark ∈ (twoReaders 3).before r i :=
  committed_within_reach (twoReaders 3) laggingRank (by decide) (by decide) (by decide)

/-- The Discard policy gives a step up exactly when the first look counts a reader that is further behind. -/
theorem discarded_iff_behind {n : Nat} (l : Looks n) (fs : Core) (hpolicy : fs.activePolicy = some .discard)
    (hopen : fs.hasOpenPlaceholder = false)
    (hword : ∀ reader step, .ack reader step ∈ l.events → step + fs.reserveSlots < 2 ^ 64) :
    (fs.verdict l.lag).fate = .drop ↔
      ∃ r reader mark, l.Counts r 0 reader mark ∧ mark + fs.reserveSlots < fs.physicalStep := by
  have hfate : (fs.verdict l.lag).fate = if fs.underPressure (l.lag 0) = true then .drop else .replay := by
    show fs.fate (l.lag 0) = _
    unfold Core.fate
    rw [hpolicy]
  rw [hfate]
  constructor
  · intro hdrop
    have hpressure : fs.underPressure (l.lag 0) = true := by
      by_contra hnot
      rw [if_neg hnot] at hdrop
      cases hdrop
    cases hlag : l.lag 0 with
    | none =>
      rw [hlag] at hpressure
      cases hpressure
    | some least =>
      rw [hlag, underPressure_iff] at hpressure
      obtain ⟨r, reader, hcounts⟩ := Looks.counts_of_lag hlag fun reader step hacked => by
        have := hword reader step hacked
        omega
      have hmark := hword reader least (List.mem_of_mem_take hcounts.acked)
      refine ⟨r, reader, least, hcounts, ?_⟩
      rw [windowEnd, Nat.mod_eq_of_lt hmark] at hpressure
      exact hpressure.1
  · rintro ⟨r, reader, mark, hcounts, hbehind⟩
    obtain ⟨least, hlag, hle⟩ := hcounts.least_le
    have hend := windowEnd_le least fs.reserveSlots
    rw [if_pos]
    rw [hlag, underPressure_iff]
    exact ⟨by omega, hopen⟩

theorem discarded_iff_behind_twoReaders :
    (laggingRank.verdict (twoReaders 1).lag).fate = .drop ↔
      ∃ r reader mark, (twoReaders 1).Counts r 0 reader mark ∧
        mark + laggingRank.reserveSlots < laggingRank.physicalStep := by
  refine discarded_iff_behind (twoReaders 1) laggingRank rfl rfl fun reader step hacked => ?_
  have hstep : step = 4 ∨ step = 1 := by
    simp [twoReaders] at hacked
    omega
  show step + 2 < 2 ^ 64
  omega

example : (laggingRank.verdict (twoReaders 1).lag).fate = .drop := by decide

end VolStream
