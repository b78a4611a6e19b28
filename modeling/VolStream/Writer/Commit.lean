import VolStream.Writer.Replay

/-!
# Committing a step

`H5Fend_step`: fold what the step inherits into its entries, let the queue policy decide the
step's fate (replay it now, drop it, or spill it to BAKE and drain it later), discard the pending
buffer, and either advance to the next physical step or undo what the failed replay left.
-/

namespace VolStream

/-! ## Folding -/

/-- `H5VL__stream_pending_append`; `none` when the pending-byte limit refuses the entry. -/
def pendingAppend (fs : Core) (e : PendingEntry) : Option Core :=
  let limit := fs.config.maxPending
  if 0 < limit ∧ 0 < e.payload.len ∧ (e.payload.len > limit ∨ fs.pendingBytes > limit - e.payload.len)
  then none
  else some { fs with pending := fs.pending ++ [e], pendingBytes := fs.pendingBytes + e.payload.len }

/-- What the live object answers for a noted group attribute. -/
structure GroupAttr where
  type : Datatype
  space : Dataspace
  acpl : Bytes
  payload : Bytes
deriving DecidableEq, Repr

def foldGroupAttr (answer : Path → Option GroupAttr) (fs : Core) (path : Path) : Core :=
  -- the step wrote it itself
  if fs.pending.any fun pe => pe.kind = .attr ∧ pe.path = path then fs
  else match answer path with
    | none => fs
    | some a =>
        if a.type.unsafeToCapture then fs
        else (pendingAppend fs ⟨.attr, path, a.type, a.space, some a.acpl, .bytes a.payload, none⟩).getD fs

/-- `H5VL__stream_fold_group_attrs`: noted attributes become entries of this step, and the list
is emptied. -/
def foldGroupAttrs (answer : Path → Option GroupAttr) (fs : Core) : Core :=
  { fs.groupAttrs.foldl (foldGroupAttr answer) fs with groupAttrs := [] }

/-- `H5T_NATIVE_UCHAR`, the placeholder type of a link entry. -/
def nativeUchar : Datatype := ⟨[3, 0, 16, 0, 0, 0, 1, 0, 0, 0, 0, 0, 8, 0], 1, .none, false⟩

/-- `H5VL__stream_pending_link`. -/
def pendingLink (fs : Core) (path target : Path) (hard : Bool) : Option Core :=
  pendingAppend fs ⟨.link, path, nativeUchar, ⟨.scalar, .all⟩, none, .link hard target, none⟩

def foldLink (fs : Core) (link : Path × LinkRec) : Core :=
  let writesTarget := fs.pending.any fun pe => pe.kind = .dsetCreate ∧ pe.path = link.2.target
  let linksItself := fs.pending.any fun pe => pe.kind = .link ∧ pe.path = link.1
  if writesTarget ∧ !linksItself then (pendingLink fs link.1 link.2.target link.2.hard).getD fs else fs

/-- `H5VL__stream_fold_links`: a known link whose target this step writes is linked again. -/
def foldLinks (fs : Core) : Core := fs.links.foldl foldLink fs

/-! ## The queue policy -/

/-- `H5VL__stream_discard_step`: an empty `/step/<n>`. -/
def discardStep (fails : Bool) (fs : Core) : Outcome Core :=
  if fails then .fail fs else .ok { fs with file := fs.file.ensure fs.physicalStep }

/-- Where a spill fails: the placeholder group, BAKE not coming up, the encoder, the region
write. -/
structure SpillEnv where
  placeholderFails : Bool
  bakeDown : Bool
  build : BuildEnv
  writeFails : Bool

/-- `H5VL__stream_spill_step`. -/
def spillStep (env : SpillEnv) (fs : Core) : Outcome Core :=
  (discardStep env.placeholderFails fs).bind fun fs =>
    if env.bakeDown then .fail fs
    else match buildManifest env.build fs with
      | (fs, none) => .fail fs
      | (fs, some m) =>
          if env.writeFails then .fail fs
          else .ok { fs with
            pendingSpill := fs.pendingSpill ++ [⟨fs.physicalStep, m, fs.pending.map (·.payload)⟩] }

structure DrainEnv where
  readFails : Bool
  replay : ReplayEnv

/-- The replay of a drained step: payloads from the region, no handle to wire. -/
def SpillEntry.args (q : SpillEntry) : ReplayArgs where
  manifest := q.manifest
  payload := fun i => q.payloads[i]?.getD (.bytes [])
  owned := fun _ => false
  staged := true

/-- The loop of `H5VL__stream_drain_spill`: the entries left, and the state. -/
def drainEntries (env : Nat → DrainEnv) (limit : Nat) :
    Nat → List SpillEntry → Replay → List SpillEntry × Replay
  | _, [], st => ([], st)
  | k, q :: qs, st =>
      if q.physicalStep > limit then (q :: qs, st)
      else if (env k).readFails then (q :: qs, st)
      else match replayManifest (env k).replay q.args st with
        | .fail st => (q :: qs, st)
        | .ok st => drainEntries env limit (k + 1) qs st

/-- `H5VL__stream_drain_spill`; the window's upper end is a `uint64_t`. -/
def drainSpill (env : Nat → DrainEnv) (minAcked : Nat) (st : Replay) : Replay :=
  let (left, st') :=
    drainEntries env ((minAcked + st.core.reserveSlots) % 2 ^ 64) 0 st.core.pendingSpill st
  { st' with core := { st'.core with pendingSpill := left } }

def Core.hasOpenPlaceholder (fs : Core) : Bool := fs.pending.any fun pe => pe.owner.isSome

/-- The replay of the step just captured: payloads and open placeholders are the pending
entries'. -/
def Core.replayArgs (fs : Core) (m : Step) : ReplayArgs where
  manifest := m
  payload := fun i => (fs.pending[i]?.map (·.payload)).getD (.bytes [])
  owned := fun i => (fs.pending[i]?.bind (·.owner)).isSome
  staged := fs.config.stagePayload

/-- `H5VL__stream_replay_step`. -/
def replayStep (build : BuildEnv) (env : ReplayEnv) (st : Replay) : Outcome Replay :=
  match buildManifest build st.core with
  | (fs, none) => .fail { st with core := fs }
  | (fs, some m) => replayManifest env (fs.replayArgs m) { st with core := fs }

/-- The environment of one `H5Fend_step`. `lagDrain` and `lag` are the two readings of the
furthest-behind reader's acknowledged step; `none` when no reader is tracked. -/
structure EndEnv where
  groupAttr : Path → Option GroupAttr
  lagDrain : Option Nat
  lag : Option Nat
  drain : Nat → DrainEnv
  discardFails : Bool
  spill : SpillEnv
  build : BuildEnv
  replay : ReplayEnv
  unlinkFails : Bool

/-- Every call succeeds and no reader is tracked. -/
def EndEnv.quiet : EndEnv where
  groupAttr := fun _ => none
  lagDrain := none
  lag := none
  drain := fun _ => ⟨false, .quiet⟩
  discardFails := false
  spill := ⟨false, false, .quiet, false⟩
  build := .quiet
  replay := .quiet
  unlinkFails := false

/-- Whether the queue policy acts on this step: a tracked reader is more than `reserve_slots`
behind and no placeholder is open. -/
def Core.underPressure (fs : Core) (lag : Option Nat) : Bool :=
  match lag with
  | none => false
  | some minAcked =>
      decide (fs.physicalStep > (minAcked + fs.reserveSlots) % 2 ^ 64) && !fs.hasOpenPlaceholder

/-- The drain at the start of `H5VL__stream_apply_queue_policy`. -/
def drainFirst (env : EndEnv) (st : Replay) : Replay :=
  if st.core.config.haveBake && !st.core.pendingSpill.isEmpty then
    drainSpill env.drain (env.lagDrain.getD st.core.physicalStep) st
  else st

/-- `H5VL__stream_apply_queue_policy`. Waiting for the reader (`Block`) changes no state, so it
is the ordinary replay here. -/
def applyQueuePolicy (env : EndEnv) (st : Replay) : Outcome Replay :=
  match (if st.core.config.transport then st.core.queuePolicy else none) with
  | none => replayStep env.build env.replay st
  | some policy =>
      let st := drainFirst env st
      if st.core.underPressure env.lag then
        match policy with
        | .block => replayStep env.build env.replay st
        | .discard =>
            match discardStep env.discardFails st.core with
            | .ok fs => .ok { st with core := fs }
            | .fail fs => .fail { st with core := fs }
        | .spill =>
            if st.core.config.haveBake then
              match spillStep env.spill st.core with
              | .ok fs => .ok { st with core := fs }
              -- the step is not lost: fall back to Block
              | .fail fs => replayStep env.build env.replay { st with core := fs }
            else
              match discardStep env.discardFails st.core with
              | .ok fs => .ok { st with core := fs }
              | .fail fs => .fail { st with core := fs }
      else replayStep env.build env.replay st

/-! ## Ending the step -/

/-- The placeholders whose entry was replayed now wrap the real object. -/
def wireWrappers (pending : List PendingEntry) (wired : List Nat)
    (wrappers : Handle → Option Wrapper) : Handle → Option Wrapper := fun h =>
  if wired.any fun i => (pending[i]?.bind (·.owner)) = some h then
    (wrappers h).map fun o => { o with state := .live }
  else wrappers h

/-- `H5VL__stream_pending_discard_all`, with the step's logical ids. -/
def Core.discardPending (fs : Core) : Core :=
  { fs with pending := [], pendingBytes := 0, logicalIds := [] }

/-- The failed step is discarded: remove its group and its index entries. -/
def Core.dropStep (fs : Core) (unlinkFails : Bool) : Core :=
  { fs with
    file := if unlinkFails then fs.file else fs.file.unlink fs.physicalStep
    pathIndex := pathIndexDropStep fs.pathIndex fs.physicalStep
    stepState := .notInStep }

/-- The step as it enters the queue policy. -/
def Core.folded (fs : Core) (env : EndEnv) : Core :=
  { foldLinks (foldGroupAttrs env.groupAttr fs) with stepState := .committing }

/-- `H5Fend_step` on a serial writer. -/
def endStep (env : EndEnv) (w : Writer) : Outcome Writer :=
  if w.core.stepState ≠ .inStep then .fail w
  else
    let fs := w.core.folded env
    match applyQueuePolicy env ⟨fs, [], w.lookups⟩ with
    | .ok st =>
        .ok ⟨{ st.core.discardPending with
            physicalStep := st.core.physicalStep + 1, stepState := .notInStep },
          wireWrappers fs.pending st.wired w.wrappers, st.lookups⟩
    | .fail st =>
        .fail ⟨st.core.discardPending.dropStep env.unlinkFails,
          wireWrappers fs.pending st.wired w.wrappers, st.lookups⟩

/-! ## The step's fate

Draining older steps changes none of what the policy looks at, so what happens to a step is
decided by the state `H5Fend_step` finds. -/

inductive Fate where
  | replay
  | drop
  | spill
deriving DecidableEq, Repr

def Core.activePolicy (fs : Core) : Option QueuePolicy :=
  if fs.config.transport then fs.queuePolicy else none

def Core.fate (fs : Core) (lag : Option Nat) : Fate :=
  match fs.activePolicy with
  | none => .replay
  | some policy =>
      if fs.underPressure lag then
        match policy with
        | .block => .replay
        | .discard => .drop
        | .spill => if fs.config.haveBake then .spill else .drop
      else .replay

/-- The state after the drain. -/
def drained (env : EndEnv) (st : Replay) : Replay :=
  if st.core.activePolicy.isSome then drainFirst env st else st

def dropped (env : EndEnv) (st : Replay) : Outcome Replay :=
  match discardStep env.discardFails st.core with
  | .ok fs => .ok { st with core := fs }
  | .fail fs => .fail { st with core := fs }

def spilled (env : EndEnv) (st : Replay) : Outcome Replay :=
  match spillStep env.spill st.core with
  | .ok fs => .ok { st with core := fs }
  | .fail fs => replayStep env.build env.replay { st with core := fs }

/-- The commit state with the tables a drain works on blanked out. -/
def Core.drainFrame (fs : Core) : Core := { fs.frame with pendingSpill := [] }

theorem drainFrame_drainEntries (env : Nat → DrainEnv) (limit k : Nat) (qs : List SpillEntry)
    (st : Replay) : (drainEntries env limit k qs st).2.core.frame = st.core.frame := by
  induction qs generalizing k st with
  | nil => rfl
  | cons q qs ih =>
    unfold drainEntries
    split
    · rfl
    · split
      · rfl
      · have hframe := frame_replayManifest (env k).replay q.args st
        cases hreplay : replayManifest (env k).replay q.args st with
        | fail st' =>
          rw [hreplay] at hframe
          exact hframe
        | ok st' =>
          rw [hreplay] at hframe
          exact (ih (k + 1) st').trans hframe

theorem drainFrame_drained (env : EndEnv) (st : Replay) :
    (drained env st).core.drainFrame = st.core.drainFrame := by
  unfold drained drainFirst
  split
  · split
    · unfold drainSpill
      simp only
      exact congrArg (fun fs : Core => { fs with pendingSpill := [] })
        (drainFrame_drainEntries env.drain _ 0 st.core.pendingSpill st)
    · rfl
  · rfl

/-- What the policy looks at survives a drain. -/
theorem underPressure_drainFrame {fs fs' : Core} (h : fs'.drainFrame = fs.drainFrame)
    (lag : Option Nat) : fs'.underPressure lag = fs.underPressure lag := by
  show fs'.drainFrame.underPressure lag = fs.drainFrame.underPressure lag
  rw [h]

theorem haveBake_drainFrame {fs fs' : Core} (h : fs'.drainFrame = fs.drainFrame) :
    fs'.config.haveBake = fs.config.haveBake := by
  show fs'.drainFrame.config.haveBake = fs.drainFrame.config.haveBake
  rw [h]

/-- The queue policy by fate. -/
theorem applyQueuePolicy_eq (env : EndEnv) (st : Replay) :
    applyQueuePolicy env st = match st.core.fate env.lag with
      | .replay => replayStep env.build env.replay (drained env st)
      | .drop => dropped env (drained env st)
      | .spill => spilled env (drained env st) := by
  have hframe := drainFrame_drained env st
  unfold applyQueuePolicy Core.fate Core.activePolicy
  cases hpolicy : (if st.core.config.transport then st.core.queuePolicy else none) with
  | none =>
    have hdrained : drained env st = st := by
      unfold drained Core.activePolicy
      rw [hpolicy]
      rfl
    simp only [hdrained]
  | some policy =>
    have hdrained : drained env st = drainFirst env st := by
      unfold drained Core.activePolicy
      rw [hpolicy]
      rfl
    rw [hdrained] at hframe
    simp only [hdrained, underPressure_drainFrame hframe env.lag, haveBake_drainFrame hframe]
    cases st.core.underPressure env.lag with
    | false => rfl
    | true =>
      cases policy with
      | block => rfl
      | discard => rfl
      | spill =>
        cases st.core.config.haveBake with
        | false => rfl
        | true => rfl

/-! ## What folding changes -/

/-- `fs'` differs from `fs` in the pending buffer only. -/
def Core.SameButPending (fs fs' : Core) : Prop :=
  ∃ pending bytes, fs' = { fs with pending := pending, pendingBytes := bytes }

theorem Core.SameButPending.refl (fs : Core) : fs.SameButPending fs := ⟨fs.pending, fs.pendingBytes, rfl⟩

theorem Core.SameButPending.trans {a b c : Core} (hab : a.SameButPending b) (hbc : b.SameButPending c) :
    a.SameButPending c := by
  obtain ⟨p, n, rfl⟩ := hab
  obtain ⟨p', n', rfl⟩ := hbc
  exact ⟨p', n', rfl⟩

theorem Core.SameButPending.foldl {α : Type} {f : Core → α → Core}
    (hf : ∀ (fs : Core) (a : α), fs.SameButPending (f fs a))
    (l : List α) (fs : Core) : fs.SameButPending (l.foldl f fs) := by
  induction l generalizing fs with
  | nil => exact .refl fs
  | cons a l ih => exact (hf fs a).trans (ih _)

theorem sameButPending_pendingAppend {fs fs' : Core} {e : PendingEntry}
    (h : pendingAppend fs e = some fs') : fs.SameButPending fs' := by
  unfold pendingAppend at h
  simp only at h
  split at h
  · cases h
  · cases h
    exact ⟨_, _, rfl⟩

theorem sameButPending_appendOrKeep (fs : Core) (e : PendingEntry) :
    fs.SameButPending ((pendingAppend fs e).getD fs) := by
  cases h : pendingAppend fs e with
  | none => exact .refl fs
  | some fs' => exact sameButPending_pendingAppend h

theorem sameButPending_foldGroupAttr (answer : Path → Option GroupAttr) (fs : Core) (path : Path) :
    fs.SameButPending (foldGroupAttr answer fs path) := by
  unfold foldGroupAttr
  split
  · exact .refl fs
  · split
    · exact .refl fs
    · split
      · exact .refl fs
      · exact sameButPending_appendOrKeep fs _

theorem sameButPending_foldLink (fs : Core) (link : Path × LinkRec) :
    fs.SameButPending (foldLink fs link) := by
  unfold foldLink
  simp only
  split
  · exact sameButPending_appendOrKeep fs _
  · exact .refl fs

/-- Folding adds pending entries and empties the list of noted attributes. -/
theorem folded_eq (fs : Core) (env : EndEnv) :
    ∃ pending bytes, fs.folded env = { fs with
      pending := pending, pendingBytes := bytes, groupAttrs := [], stepState := .committing } := by
  obtain ⟨p, n, hattrs⟩ :=
    Core.SameButPending.foldl (sameButPending_foldGroupAttr env.groupAttr) fs.groupAttrs fs
  obtain ⟨p', n', hlinks⟩ := Core.SameButPending.foldl sameButPending_foldLink
    (foldGroupAttrs env.groupAttr fs).links (foldGroupAttrs env.groupAttr fs)
  refine ⟨p', n', ?_⟩
  rw [Core.folded, foldLinks, hlinks, foldGroupAttrs, hattrs]

end VolStream
