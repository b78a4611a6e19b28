import VolStream.Reader.Logical

/-!
# What a scan leaves in the path index

Indexing the steps of a file in ascending order appends, for each path, every step whose
manifest carries it. A step without a manifest stops `H5VL__stream_reader_build_index`; the scan
here passes over it, so that it can also be asked of a file that has such steps.
-/

namespace VolStream

/-- `H5VL__stream_reader_index_one_step` on each of the steps that has a manifest. -/
def indexSteps (children : Table Path (Option Step)) (steps : List Nat) (fs : Reader) : Reader :=
  steps.foldl (fun fs p => (readerIndexOneStep children p fs).state) fs

/-- The paths the manifest of a step indexes. -/
def stepPaths (children : Table Path (Option Step)) (p : Nat) : List Path :=
  match children.find? (stepName p) with
  | some (some m) => m.indexPaths
  | _ => []

theorem steps_indexSteps (children : Table Path (Option Step)) (steps : List Nat) (fs : Reader)
    (path : Path) :
    ((indexSteps children steps fs).pathIndex path).steps
      = (fs.pathIndex path).steps
        ++ steps.flatMap fun p => List.replicate ((stepPaths children p).count path) p := by
  induction steps generalizing fs with
  | nil => simp [indexSteps]
  | cons p steps ih =>
    have hone : ((readerIndexOneStep children p fs).state.pathIndex path).steps
        = (fs.pathIndex path).steps ++ List.replicate ((stepPaths children p).count path) p := by
      unfold readerIndexOneStep stepPaths
      cases children.find? (stepName p) with
      | none => simp
      | some content =>
        cases content with
        | none => simp
        | some m => exact steps_indexEntries m.entries p fs.pathIndex path
    show ((indexSteps children steps (readerIndexOneStep children p fs).state).pathIndex path).steps = _
    rw [ih, hone, List.flatMap_cons, List.append_assoc]

/-- A path's steps come out ascending, each as often as its manifest carries the path. -/
theorem sorted_scan (count : Nat → Nat) (n : Nat) :
    ((List.range n).flatMap fun p => List.replicate (count p) p).Pairwise (· ≤ ·) := by
  induction n with
  | zero => exact List.Pairwise.nil
  | succ n ih =>
    rw [List.range_succ, List.flatMap_append, List.pairwise_append]
    refine ⟨ih, ?_, ?_⟩
    · rw [List.flatMap_singleton]
      exact List.pairwise_replicate.mpr (.inr (Nat.le_refl n))
    · intro a ha b hb
      rw [List.flatMap_singleton] at hb
      rw [(List.mem_replicate.mp hb).2]
      obtain ⟨p, hp, ha⟩ := List.mem_flatMap.mp ha
      rw [(List.mem_replicate.mp ha).2]
      exact Nat.le_of_lt (List.mem_range.mp hp)

theorem mem_scan (count : Nat → Nat) (n p : Nat) :
    p ∈ ((List.range n).flatMap fun p => List.replicate (count p) p) ↔ p < n ∧ count p ≠ 0 := by
  simp only [List.mem_flatMap, List.mem_range, List.mem_replicate]
  constructor
  · rintro ⟨q, hq, hcount, rfl⟩
    exact ⟨hq, hcount⟩
  · rintro ⟨hp, hcount⟩
    exact ⟨p, hp, hcount, rfl⟩

/-- Steps carried at most once come out strictly ascending. -/
theorem strictly_sorted_scan {count : Nat → Nat} (h : ∀ p, count p ≤ 1) (n : Nat) :
    ((List.range n).flatMap fun p => List.replicate (count p) p).Pairwise (· < ·) := by
  induction n with
  | zero => exact List.Pairwise.nil
  | succ n ih =>
    rw [List.range_succ, List.flatMap_append, List.pairwise_append]
    refine ⟨ih, ?_, ?_⟩
    · rw [List.flatMap_singleton]
      exact List.pairwise_replicate.mpr (.inl (h n))
    · intro a ha b hb
      rw [List.flatMap_singleton] at hb
      rw [(List.mem_replicate.mp hb).2]
      exact ((mem_scan count n a).mp ha).1

/-- The index a successful build leaves. -/
theorem pathIndex_readerBuildIndex {children : Table Path (Option Step)} {fs fs' : Reader}
    (h : readerBuildIndex (some children) fs = .ok fs') :
    ∀ path, (fs'.pathIndex path).steps = (fs.pathIndex path).steps
      ++ (List.range fs'.nStepsTotal).flatMap
          fun p => List.replicate ((stepPaths children p).count path) p := by
  intro path
  unfold readerBuildIndex at h
  simp only at h
  split at h
  · cases h
  · rw [Outcome.bind_eq_ok_iff] at h
    obtain ⟨s, hs, h⟩ := h
    cases h
    have htotal : ∀ (l : List Nat) (r : Reader), (indexSteps children l r).nStepsTotal = r.nStepsTotal := by
      intro l
      induction l with
      | nil => exact fun _ => rfl
      | cons p l ih =>
        intro r
        show (indexSteps children l (readerIndexOneStep children p r).state).nStepsTotal = r.nStepsTotal
        rw [ih, readerIndexOneStep]
        split
        · rfl
        · rfl
    have hscan := Outcome.runAll_eq_ok hs
    have hsteps := steps_indexSteps children
      (List.range ((collectSteps children).insertionSort (· ≤ ·)).length)
      { fs with
        nStepsTotal := ((collectSteps children).insertionSort (· ≤ ·)).length
        stepLogicalIds := List.replicate ((collectSteps children).insertionSort (· ≤ ·)).length [] } path
    have hn : s.nStepsTotal = ((collectSteps children).insertionSort (· ≤ ·)).length := by
      rw [hscan]
      exact htotal _ _
    simp only [hn]
    rw [hscan]
    exact hsteps

end VolStream
