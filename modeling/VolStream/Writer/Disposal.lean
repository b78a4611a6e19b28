import VolStream.Writer.EndStep

/-!
# What becomes of a step

An `H5Fend_step` first drains queued steps that are due and then replays, drops or queues the step it
ends. Here is which: the queued steps it drains and those it leaves, and the disposal of its own.
-/

namespace VolStream

/-- The state in which the step's own disposal is decided. -/
def Writer.afterDrain (w : Writer) (env : EndEnv) : Replay := drained env ⟨w.core.folded env, [], w.lookups⟩

/-- The queued steps `H5Fend_step` leaves. -/
def Writer.left (w : Writer) (env : EndEnv) : List SpillEntry :=
  if w.core.stepState = .inStep then (w.afterDrain env).core.pendingSpill else w.core.pendingSpill

/-- The queued steps `H5Fend_step` replays: those it takes off the queue. -/
def Writer.drains (w : Writer) (env : EndEnv) : List SpillEntry :=
  w.core.pendingSpill.take (w.core.pendingSpill.length - (w.left env).length)

/-- What becomes of the step itself; a spill that fails falls back to replay. -/
def Writer.disposal (w : Writer) (env : EndEnv) : Fate :=
  match (w.core.folded env).fate env.lag with
  | .spill => if (spillStep env.spill (w.afterDrain env).core).isOk then .spill else .replay
  | fate => fate

theorem Writer.left_suffix (w : Writer) (env : EndEnv) : w.left env <:+ w.core.pendingSpill := by
  unfold Writer.left
  split
  · obtain ⟨pending, bytes, hfold⟩ := folded_eq w.core env
    have hsuffix := (workedIn_drained (fun _ => True) env ⟨w.core.folded env, [], w.lookups⟩ (fun _ _ => trivial)).2
    rw [show (⟨w.core.folded env, [], w.lookups⟩ : Replay).core.pendingSpill = w.core.pendingSpill from by rw [hfold]]
      at hsuffix
    exact hsuffix
  · exact List.suffix_refl _

theorem Writer.drains_append_left (w : Writer) (env : EndEnv) :
    w.drains env ++ w.left env = w.core.pendingSpill := by
  obtain ⟨done, hdone⟩ := w.left_suffix env
  unfold Writer.drains
  rw [← hdone, List.length_append, Nat.add_sub_cancel, List.take_left]

theorem Writer.afterDrain_frame (w : Writer) (env : EndEnv) :
    (w.afterDrain env).core.drainFrame = (w.core.folded env).drainFrame := drainFrame_drained env _

theorem Writer.afterDrain_physicalStep (w : Writer) (env : EndEnv) :
    (w.afterDrain env).core.physicalStep = w.core.physicalStep := by
  obtain ⟨pending, bytes, hfold⟩ := folded_eq w.core env
  have hframe := congrArg Core.physicalStep (w.afterDrain_frame env)
  rw [hfold] at hframe
  exact hframe

/-- The encoder looks at nothing a drain changes. -/
theorem buildManifest_drainFrame (env : BuildEnv) (fs : Core) :
    (buildManifest env fs.drainFrame).2 = (buildManifest env fs).2 := by
  unfold buildManifest Core.drainFrame Core.frame
  simp only
  cases buildEntries env 0 0 fs.pending fs.writeTypeCache with
  | mk w res =>
    cases res with
    | none => rfl
    | some pair => rfl

/-- A spilled step is queued with its manifest. -/
theorem spillStep_built {env : SpillEnv} {fs fs' : Core} (h : spillStep env fs = .ok fs') :
    ∃ m, (buildManifest env.build fs).2 = some m
      ∧ fs'.pendingSpill = fs.pendingSpill ++ [⟨fs.physicalStep, m, fs.pending.map (·.payload)⟩] := by
  unfold spillStep discardStep at h
  split at h
  · cases h
  · rw [Outcome.bind_ok] at h
    split at h
    · cases h
    · have hfile := buildManifest_file env.build fs (fs.file.ensure fs.physicalStep)
      cases hbuild : buildManifest env.build { fs with file := fs.file.ensure fs.physicalStep } with
      | mk fs₁ res =>
        obtain ⟨w, hfs, -⟩ := buildManifest_eq hbuild
        rw [hbuild] at h hfile
        cases res with
        | none => cases h
        | some m =>
          simp only at h
          split at h
          · cases h
          · cases h
            refine ⟨m, hfile.symm, ?_⟩
            rw [hfs]

theorem endStep_ok {env : EndEnv} {w w' : Writer} (h : endStep env w = .ok w') :
    w.core.stepState = .inStep ∧ ∃ st, applyQueuePolicy env ⟨w.core.folded env, [], w.lookups⟩ = .ok st
      ∧ w'.core = { st.core.discardPending with physicalStep := st.core.physicalStep + 1, stepState := .notInStep } := by
  unfold endStep at h
  split at h
  · cases h
  · rename_i hin
    refine ⟨not_not.mp hin, ?_⟩
    simp only at h
    cases happly : applyQueuePolicy env ⟨w.core.folded env, [], w.lookups⟩ with
    | fail st =>
      rw [happly] at h
      cases h
    | ok st =>
      rw [happly] at h
      cases h
      exact ⟨st, rfl, rfl⟩

theorem endStep_fail {env : EndEnv} {w w' : Writer} (h : endStep env w = .fail w') :
    (w.core.stepState ≠ .inStep ∧ w' = w)
      ∨ (w.core.stepState = .inStep ∧ ∃ st, applyQueuePolicy env ⟨w.core.folded env, [], w.lookups⟩ = .fail st
        ∧ w'.core = st.core.discardPending.dropStep env.unlinkFails) := by
  unfold endStep at h
  split at h
  · rename_i hout
    cases h
    exact .inl ⟨hout, rfl⟩
  · rename_i hin
    refine .inr ⟨not_not.mp hin, ?_⟩
    simp only at h
    cases happly : applyQueuePolicy env ⟨w.core.folded env, [], w.lookups⟩ with
    | ok st =>
      rw [happly] at h
      cases h
    | fail st =>
      rw [happly] at h
      cases h
      exact ⟨st, rfl, rfl⟩

/-- The three disposals. -/
theorem applyQueuePolicy_disposal (env : EndEnv) (w : Writer) :
    (w.disposal env = .replay ∧ ∃ file cache, applyQueuePolicy env ⟨w.core.folded env, [], w.lookups⟩
        = replayStep env.build env.replay { w.afterDrain env with core := { (w.afterDrain env).core with
            file := file, writeTypeCache := cache } })
      ∨ (w.disposal env = .drop ∧ applyQueuePolicy env ⟨w.core.folded env, [], w.lookups⟩
        = dropped env (w.afterDrain env))
      ∨ (w.disposal env = .spill ∧ ∃ fs, spillStep env.spill (w.afterDrain env).core = .ok fs
        ∧ applyQueuePolicy env ⟨w.core.folded env, [], w.lookups⟩ = .ok { w.afterDrain env with core := fs }) := by
  rw [applyQueuePolicy_eq]
  unfold Writer.disposal
  simp only
  cases (w.core.folded env).fate env.lag with
  | replay => exact .inl ⟨rfl, _, _, rfl⟩
  | drop => exact .inr (.inl ⟨rfl, rfl⟩)
  | spill =>
    rcases spillStep_eq env.spill (w.afterDrain env).core with ⟨file, cache, m, h, -, -, -⟩ | ⟨file, cache, h, -⟩
    · refine .inr (.inr ⟨?_, _, h, ?_⟩)
      · rw [h]
        rfl
      · show spilled env (w.afterDrain env) = _
        unfold spilled
        rw [h]
    · refine .inl ⟨?_, file, cache, ?_⟩
      · rw [h]
        rfl
      · show spilled env (w.afterDrain env) = _
        unfold spilled
        rw [h]

/-- The queue a commit leaves. -/
theorem pendingSpill_committed {env : EndEnv} {w w' : Writer} (h : endStep env w = .ok w') :
    (w.disposal env ≠ .spill → w'.core.pendingSpill = w.left env)
      ∧ (w.disposal env = .spill → ∃ m, (buildManifest env.spill.build (w.core.folded env)).2 = some m
        ∧ w'.core.pendingSpill = w.left env
          ++ [⟨w.core.physicalStep, m, (w.core.folded env).pending.map (·.payload)⟩]) := by
  obtain ⟨hin, st, happly, hcore⟩ := endStep_ok h
  have hleft : w.left env = (w.afterDrain env).core.pendingSpill := if_pos hin
  have hqueue : w'.core.pendingSpill = st.core.pendingSpill := by rw [hcore]; rfl
  rw [hqueue, hleft]
  rcases applyQueuePolicy_disposal env w with ⟨hd, file, cache, heq⟩ | ⟨hd, heq⟩ | ⟨hd, fs, hspill, heq⟩
  · rw [hd]
    refine ⟨fun _ => ?_, fun hf => by cases hf⟩
    have hsame := pendingSpill_replayStep env.build env.replay { w.afterDrain env with core :=
      { (w.afterDrain env).core with file := file, writeTypeCache := cache } }
    rw [← heq, happly] at hsame
    exact hsame
  · rw [hd]
    refine ⟨fun _ => ?_, fun hf => by cases hf⟩
    rw [happly] at heq
    unfold dropped discardStep at heq
    split at heq
    · rename_i hdiscard
      cases heq
      split at hdiscard
      · cases hdiscard
      · cases hdiscard
        rfl
    · cases heq
  · rw [hd]
    refine ⟨fun hf => absurd rfl hf, fun _ => ?_⟩
    rw [happly] at heq
    cases heq
    obtain ⟨m, hm, hspilled⟩ := spillStep_built hspill
    have hframe := w.afterDrain_frame env
    have hnumber : (w.afterDrain env).core.physicalStep = w.core.physicalStep := by
      obtain ⟨pending, bytes, hfold⟩ := folded_eq w.core env
      have := congrArg Core.physicalStep hframe
      rw [hfold] at this
      exact this
    have hpending : (w.afterDrain env).core.pending = (w.core.folded env).pending := by
      have := congrArg Core.pending hframe
      exact this
    refine ⟨m, ?_, ?_⟩
    · rw [← buildManifest_drainFrame, ← hframe, buildManifest_drainFrame]
      exact hm
    · rw [hspilled, hnumber, hpending]

/-- The queue a failed step leaves. -/
theorem pendingSpill_abandoned {env : EndEnv} {w w' : Writer} (h : endStep env w = .fail w') :
    w'.core.pendingSpill = w.left env := by
  rcases endStep_fail h with ⟨hout, rfl⟩ | ⟨hin, st, happly, hcore⟩
  · exact (if_neg hout).symm
  · have hleft : w.left env = (w.afterDrain env).core.pendingSpill := if_pos hin
    have hqueue : w'.core.pendingSpill = st.core.pendingSpill := by rw [hcore]; rfl
    rw [hqueue, hleft]
    rcases applyQueuePolicy_disposal env w with ⟨-, file, cache, heq⟩ | ⟨-, heq⟩ | ⟨-, fs, -, heq⟩
    · have hsame := pendingSpill_replayStep env.build env.replay { w.afterDrain env with core :=
        { (w.afterDrain env).core with file := file, writeTypeCache := cache } }
      rw [← heq, happly] at hsame
      exact hsame
    · rw [happly] at heq
      unfold dropped discardStep at heq
      split at heq
      · cases heq
      · rename_i hdiscard
        cases heq
        split at hdiscard
        · cases hdiscard
          rfl
        · cases hdiscard
    · rw [happly] at heq
      cases heq

end VolStream
