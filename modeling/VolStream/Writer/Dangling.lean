import VolStream.Lib.Run
import VolStream.Writer.Disposal
import VolStream.Writer.Placeholders

/-!
# When a placeholder dangles

`H5Fend_step` frees the pending buffer whether or not it succeeds. A placeholder survives it as a live object, if the
replay has come to its entry; on a rank of a parallel writer, if it has come to the entry the ranks merged for its kind
and path, and if that entry is the placeholder's own. Otherwise the wrapper is left with an index into a buffer that is
gone, and the next step's entry at that index is another object's.
-/

namespace VolStream

/-! ## Which wrappers become live -/

/-- The placeholders that own an entry among `wired` now wrap the real object. -/
def wireOwners (owner : Nat → Option Handle) (wired : List Nat) (wrappers : Handle → Option Wrapper) :
    Handle → Option Wrapper := fun h =>
  if wired.any fun i => owner i = some h then (wrappers h).map fun o => { o with state := .live } else wrappers h

/-- Where the pending buffer is gone, no placeholder dangles only if each has been wired. -/
theorem noneDangle_wired_iff {w w' : Writer} {owner : Nat → Option Handle} {wired : List Nat}
    (hstep : w'.core.stepState = .notInStep) (hwrappers : w'.wrappers = wireOwners owner wired w.wrappers) :
    w'.NoneDangle ↔ ∀ h i, w.stateOf h = some (.placeholder i) → ∃ j ∈ wired, owner j = some h := by
  have hstate : ∀ h, w'.stateOf h
      = if wired.any fun i => owner i = some h then (w.wrappers h).map fun _ => .live else w.stateOf h := by
    intro h
    rw [Writer.stateOf, hwrappers, wireOwners]
    split
    · rw [Option.map_map]
      rfl
    · rfl
  constructor
  · intro hnone h i hi
    by_cases hwired : (wired.any fun j => owner j = some h) = true
    · obtain ⟨j, hj, howner⟩ := List.any_eq_true.mp hwired
      exact ⟨j, hj, of_decide_eq_true howner⟩
    · have hleft : w'.stateOf h = some (.placeholder i) := by
        rw [hstate, if_neg hwired]
        exact hi
      have hopen := (hnone h i hleft).1
      rw [hstep] at hopen
      cases hopen
  · intro hall h i hi
    rw [hstate] at hi
    split at hi
    · cases hw : w.wrappers h with
      | none =>
        rw [hw] at hi
        cases hi
      | some o =>
        rw [hw] at hi
        cases hi
    · rename_i hnot
      obtain ⟨j, hj, howner⟩ := hall h i hi
      exact absurd (List.any_eq_true.mpr ⟨j, hj, decide_eq_true howner⟩) hnot

theorem owned_of_freed {w : Writer} (h : w.core.pending = []) : w.Owned where
  held := by
    intro i k hk
    rw [Core.ownerOf, h] at hk
    cases hk
  wire := by
    intro pe hpe
    rw [h] at hpe
    cases hpe

/-! ## Getting to an entry -/

/-- The replay of `args.manifest` gets through its entry `i`. -/
def GetsThrough (env : ReplayEnv) (args : ReplayArgs) (fs : Core) (i : Nat) (e : Entry) : Prop :=
  env.startFails = false ∧
    (i, e) ∈ replayed env args fs.pathIndex fs.replayTypeCache (replayOrder args.manifest.entries)

theorem replayed_subset (env : ReplayEnv) (args : ReplayArgs) (idx : PathIndex) (r : TypeCache)
    (l : List (Nat × Entry)) : replayed env args idx r l ⊆ l := by
  induction l generalizing r with
  | nil => exact List.Subset.refl _
  | cons ie l ih =>
    rw [replayed]
    split
    · exact List.nil_subset _
    · exact List.cons_subset_cons ie (ih _)

theorem GetsThrough.entry {env : ReplayEnv} {args : ReplayArgs} {fs : Core} {i : Nat} {e : Entry}
    (h : GetsThrough env args fs i e) : args.manifest.entries[i]? = some e :=
  getElem?_of_mem_replayOrder (replayed_subset _ _ _ _ _ h.2)

/-- A replay wires the entries it gets through that have a placeholder. -/
theorem mem_wired_replayManifest {env : ReplayEnv} {args : ReplayArgs} {st : Replay} {i : Nat} (hwired : st.wired = []) :
    i ∈ (replayManifest env args st).state.wired ↔
      args.owned i = true ∧ ∃ e, e.kind.wires = true ∧ GetsThrough env args st.core i e := by
  rw [replayManifest_wires, hwired, List.nil_append]
  cases hstart : env.startFails with
  | true =>
    rw [if_pos rfl]
    refine iff_of_false List.not_mem_nil fun h => ?_
    obtain ⟨-, e, -, hgo, -⟩ := h
    rw [hstart] at hgo
    cases hgo
  | false =>
    rw [if_neg Bool.false_ne_true, wiredAmong, List.mem_map]
    constructor
    · rintro ⟨⟨j, e⟩, hmem, rfl⟩
      obtain ⟨hreplayed, hown⟩ := List.mem_filter.mp hmem
      rw [Bool.and_eq_true] at hown
      exact ⟨hown.1, e, hown.2, hstart, hreplayed⟩
    · rintro ⟨hown, e, hkind, -, hreplayed⟩
      refine ⟨(i, e), List.mem_filter.mpr ⟨hreplayed, ?_⟩, rfl⟩
      rw [Bool.and_eq_true]
      exact ⟨hown, hkind⟩

/-! ## A serial writer -/

/-- The manifest of the step is built, and its replay gets through entry `i`. -/
def Core.CommitsEntry (build : BuildEnv) (env : ReplayEnv) (fs : Core) (i : Nat) : Prop :=
  ∃ m e, (buildManifest build fs).2 = some m ∧ GetsThrough env (fs.replayArgs m) fs i e

/-- A replay of the open step wires the placeholders whose entries it commits. -/
theorem mem_wired_replayStep {build : BuildEnv} {env : ReplayEnv} {st : Replay} (hwired : st.wired = [])
    (hwire : st.core.OwnersWire) {i : Nat} :
    i ∈ (replayStep build env st).state.wired ↔
      (st.core.ownerOf i).isSome = true ∧ st.core.CommitsEntry build env i := by
  unfold replayStep Core.CommitsEntry
  cases hbuild : buildManifest build st.core with
  | mk fs res =>
    obtain ⟨w, rfl, -⟩ := buildManifest_eq hbuild
    cases res with
    | none =>
      refine iff_of_false ?_ fun h => ?_
      · show i ∉ st.wired
        rw [hwired]
        exact List.not_mem_nil
      · obtain ⟨-, m, -, hm, -⟩ := h
        cases hm
    | some m =>
      refine Iff.trans (mem_wired_replayManifest ?_) ?_
      · exact hwired
      constructor
      · rintro ⟨hown, e, -, hgets⟩
        exact ⟨hown, m, e, rfl, hgets⟩
      · rintro ⟨hown, m', e, hm, hgets⟩
        cases hm
        refine ⟨hown, e, ?_, hgets⟩
        -- the entry is of its pending entry's kind, and that one has an owner
        obtain ⟨pe, hpe, hshape, -⟩ := entry_of_buildManifest hbuild hgets.entry
        have hkind : e.kind = pe.kind := congrArg Shape.kind hshape
        rw [hkind]
        refine hwire pe (List.mem_of_getElem? hpe) ?_
        rw [Core.ownerOf, hpe] at hown
        exact Option.isSome_iff_ne_none.mp hown

theorem wired_drained (env : EndEnv) (st : Replay) : (drained env st).wired = st.wired := by
  have hentries : ∀ (limit k : Nat) (qs : List SpillEntry) (st : Replay),
      (drainEntries env.drain limit k qs st).2.wired = st.wired := by
    intro limit k qs
    induction qs generalizing k with
    | nil => exact fun st => rfl
    | cons q qs ih =>
      intro st
      unfold drainEntries
      split
      · rfl
      · split
        · rfl
        · have hreplay := wired_replayManifest (env.drain k).replay q.args (fun _ => rfl) st
          cases hrun : replayManifest (env.drain k).replay q.args st with
          | fail st' =>
            rw [hrun] at hreplay
            exact hreplay
          | ok st' =>
            rw [hrun] at hreplay
            exact (ih (k + 1) st').trans hreplay
  unfold drained drainFirst drainSpill
  split
  · split
    · exact hentries _ 0 st.core.pendingSpill st
    · rfl
  · rfl

theorem sameOwners_folded (fs : Core) (env : EndEnv) :
    (∀ i, (fs.folded env).ownerOf i = fs.ownerOf i) ∧ (fs.OwnersWire → (fs.folded env).OwnersWire) := by
  have hsame := Core.SameOwners.of_foldLinks env.groupAttr fs
  exact ⟨hsame.owner, hsame.wire⟩

/-- With a placeholder open the step is replayed, whatever the policy. -/
theorem fate_of_open {fs : Core} {i : Nat} {h : Handle} (howner : fs.ownerOf i = some h) (lag : Option Nat) :
    fs.fate lag = .replay := by
  have hopen : fs.hasOpenPlaceholder = true := by
    rw [Core.ownerOf, Option.bind_eq_some_iff] at howner
    obtain ⟨pe, hpe, hown⟩ := howner
    exact List.any_eq_true.mpr ⟨pe, List.mem_of_getElem? hpe, by rw [hown]; rfl⟩
  have hpressure : fs.underPressure lag = false := by
    unfold Core.underPressure
    rw [hopen]
    cases lag with
    | none => rfl
    | some minAcked => exact Bool.and_false _
  unfold Core.fate
  rw [hpressure]
  cases fs.activePolicy <;> rfl

/-- What `H5Fend_step` must do for the placeholders that are open: commit each one's entry. -/
def EndEnv.CommitsOpen (env : EndEnv) (w : Writer) : Prop :=
  w.core.stepState = .inStep → ∀ h i, w.stateOf h = some (.placeholder i) →
    (w.afterDrain env).core.CommitsEntry env.build env.replay i

theorem noneDangle_endStep_iff {w : Writer} (howned : w.Owned) (hnone : w.NoneDangle) (env : EndEnv) :
    (endStep env w).state.NoneDangle ↔ env.CommitsOpen w := by
  unfold EndEnv.CommitsOpen
  by_cases hstep : w.core.stepState = .inStep
  · obtain ⟨howner, hwire⟩ := sameOwners_folded w.core env
    have hframe := drainFrame_drained env ⟨w.core.folded env, [], w.lookups⟩
    have hsamePending := congrArg Core.pending hframe
    have hpending : (w.afterDrain env).core.pending = (w.core.folded env).pending := hsamePending
    have hdrained : ∀ i, (w.afterDrain env).core.ownerOf i = w.core.ownerOf i := by
      intro i
      rw [Core.ownerOf, hpending]
      exact howner i
    have hdrainedWire : (w.afterDrain env).core.OwnersWire := by
      rw [Core.OwnersWire, hpending]
      exact hwire howned.wire
    have hend : ∃ o, applyQueuePolicy env ⟨w.core.folded env, [], w.lookups⟩ = o ∧
        (endStep env w).state.core.stepState = .notInStep ∧
        (endStep env w).state.wrappers = wireOwners w.core.ownerOf o.state.wired w.wrappers := by
      refine ⟨_, rfl, ?_⟩
      have hsame : (w.core.folded env).ownerOf = w.core.ownerOf := funext howner
      rw [← hsame]
      unfold endStep
      rw [if_neg (not_not_intro hstep)]
      dsimp only
      cases applyQueuePolicy env ⟨w.core.folded env, [], w.lookups⟩ with
      | ok st => exact ⟨rfl, rfl⟩
      | fail st => exact ⟨rfl, rfl⟩
    obtain ⟨o, hpolicy, hstate, hwrappers⟩ := hend
    rw [noneDangle_wired_iff hstate hwrappers]
    refine ⟨fun hall _ h i hi => ?_, fun hall h i hi => ?_⟩
    · have hown := (hnone h i hi).2
      obtain ⟨j, hj, hjOwner⟩ := hall h i hi
      have hij := howned.held j h hjOwner
      rw [hi] at hij
      cases hij
      rw [← hpolicy, applyQueuePolicy_eq, fate_of_open ((howner i).trans hown)] at hj
      exact ((mem_wired_replayStep (wired_drained env _) hdrainedWire).mp hj).2
    · have hown := (hnone h i hi).2
      refine ⟨i, ?_, hown⟩
      rw [← hpolicy, applyQueuePolicy_eq, fate_of_open ((howner i).trans hown)]
      refine (mem_wired_replayStep (wired_drained env _) hdrainedWire).mpr ⟨?_, hall hstep h i hi⟩
      exact Option.isSome_of_eq_some ((hdrained i).trans hown)
  · have hsame : (endStep env w).state = w := by
      unfold endStep
      rw [if_pos hstep]
      rfl
    rw [hsame]
    exact iff_of_true hnone fun h => absurd h hstep

theorem owned_endStep {w : Writer} (howned : w.Owned) (env : EndEnv) : (endStep env w).state.Owned := by
  unfold endStep
  split
  · exact howned
  · dsimp only
    split
    · exact owned_of_freed rfl
    · exact owned_of_freed rfl

/-! ## A rank of a parallel writer -/

/-- The environment of `H5Fend_step` on one rank: what the ranks below and above it hold when the parts are exchanged,
what the queue policy came to, and what this rank's calls answer. A rank that cannot encode its part never comes to
the exchange, and the others do not return from it: theirs are encoded. -/
structure RankEnv where
  groupAttr : Path → Option GroupAttr
  below : List Core
  above : List Core
  drops : Bool
  discardFails : Bool
  junk : Nat → UInt8
  build : BuildEnv
  exchangeFails : Bool
  merge : MergeEnv
  replay : ReplayEnv
  writesFail : Bool

namespace RankEnv

def ranks (env : RankEnv) (fs : Core) : List Core := env.below ++ fs :: env.above

def myRank (env : RankEnv) : Nat := env.below.length

def builds (env : RankEnv) (r : Nat) : BuildEnv := if r = env.myRank then env.build else .quiet

-- the step as it enters the queue policy
def folded (env : RankEnv) (fs : Core) : Core :=
  { foldLinks (foldGroupAttrs env.groupAttr fs) with stepState := .committing }

end RankEnv

/-- The replay of the merged manifest: payloads from the merged buffer, placeholders from the wiring. -/
def MergeResult.args (res : MergeResult) : ReplayArgs where
  manifest := res.manifest
  payload := fun i => .bytes ((res.manifest.entries[i]?.map fun e =>
    (res.payload.mem.drop e.payloadOff).take e.payloadLen).getD [])
  owned := fun i => res.wiring[i]?.join.isSome
  staged := true

/-- `H5VL__stream_replay_step_parallel`, with the wiring it handed to the replay. The rank's own writes come after the
merged manifest. -/
def replayStepParallel (env : RankEnv) (st : Replay) : Outcome Replay × List (Option Handle) :=
  match gatherManifests env.junk env.builds 0 (env.ranks st.core) with
  | .accept gathered =>
    if env.exchangeFails then (.fail st, [])
    else match mergeAggManifests env.junk env.merge st.core env.myRank gathered with
      | .accept res =>
        ((replayManifest env.replay res.args st).bind fun st =>
          if env.writesFail then .fail st else .ok st, res.wiring)
      | _ => (.fail st, [])
  | _ => (.fail st, [])

/-- `H5VL__stream_apply_queue_policy` on a rank: a step is dropped only if no rank has a placeholder open. -/
def applyRankPolicy (env : RankEnv) (st : Replay) : Outcome Replay × List (Option Handle) :=
  if env.drops && !(env.ranks st.core).any Core.hasOpenPlaceholder then
    (match discardStep env.discardFails st.core with
      | .ok fs => .ok { st with core := fs }
      | .fail fs => .fail { st with core := fs }, [])
  else replayStepParallel env st

/-- `H5Fend_step` on a rank. The group and the index entries of a step that failed stay. -/
def endRankStep (env : RankEnv) (w : Writer) : Outcome Writer :=
  if w.core.stepState ≠ .inStep then .fail w
  else match applyRankPolicy env ⟨env.folded w.core, [], w.lookups⟩ with
    | (.ok st, wiring) =>
        .ok ⟨{ st.core.discardPending with physicalStep := st.core.physicalStep + 1, stepState := .notInStep },
          wireOwners (fun i => wiring[i]?.join) st.wired w.wrappers, st.lookups⟩
    | (.fail st, wiring) =>
        .fail ⟨{ st.core.discardPending with stepState := .notInStep },
          wireOwners (fun i => wiring[i]?.join) st.wired w.wrappers, st.lookups⟩

/-- The entry is the first of its kind and path among what the ranks captured, the parts are exchanged and merged, and
the replay gets through what was merged for it. -/
def RankEnv.CommitsFirst (env : RankEnv) (fs : Core) (pe : PendingEntry) : Prop :=
  CapturedFirst (env.ranks fs) (env.myRank, pe) ∧ env.exchangeFails = false ∧
    ∃ gathered res j e, gatherManifests env.junk env.builds 0 (env.ranks fs) = .accept gathered ∧
      mergeAggManifests env.junk env.merge fs env.myRank gathered = .accept res ∧
      GetsThrough env.replay res.args fs j e ∧ e.key = pe.key

theorem RankEnv.ranks_myRank (env : RankEnv) (fs : Core) : (env.ranks fs)[env.myRank]? = some fs := by
  rw [ranks, myRank, List.getElem?_append_right (Nat.le_refl _), Nat.sub_self, List.getElem?_cons_zero]

/-- The state a parallel replay leaves has wired nothing, or what the replay of the merged manifest wires. -/
theorem replayStepParallel_cases (env : RankEnv) (st : Replay) :
    (∃ gathered res, env.exchangeFails = false ∧
        gatherManifests env.junk env.builds 0 (env.ranks st.core) = .accept gathered ∧
        mergeAggManifests env.junk env.merge st.core env.myRank gathered = .accept res ∧
        (replayStepParallel env st).1.state = (replayManifest env.replay res.args st).state ∧
        (replayStepParallel env st).2 = res.wiring) ∨
      (replayStepParallel env st).1.state = st ∧
        ∀ gathered res, env.exchangeFails = false →
          gatherManifests env.junk env.builds 0 (env.ranks st.core) = .accept gathered →
          mergeAggManifests env.junk env.merge st.core env.myRank gathered ≠ .accept res := by
  have hwrites : ∀ o : Outcome Replay,
      (o.bind fun st => if env.writesFail then .fail st else .ok st).state = o.state := by
    intro o
    cases o with
    | fail st' => rfl
    | ok st' =>
      rw [Outcome.bind_ok]
      cases env.writesFail
      · rfl
      · rfl
  unfold replayStepParallel
  cases hgather : gatherManifests env.junk env.builds 0 (env.ranks st.core) with
  | fault => exact .inr ⟨rfl, fun _ _ _ h => nomatch h⟩
  | reject => exact .inr ⟨rfl, fun _ _ _ h => nomatch h⟩
  | accept gathered =>
    cases hexchange : env.exchangeFails with
    | true => exact .inr ⟨rfl, fun _ _ h => nomatch h⟩
    | false =>
      dsimp only
      rw [if_neg Bool.false_ne_true]
      cases hmerge : mergeAggManifests env.junk env.merge st.core env.myRank gathered with
      | fault =>
        refine .inr ⟨rfl, fun gathered' res _ h hmerge' => ?_⟩
        cases h
        rw [hmerge] at hmerge'
        cases hmerge'
      | reject =>
        refine .inr ⟨rfl, fun gathered' res _ h hmerge' => ?_⟩
        cases h
        rw [hmerge] at hmerge'
        cases hmerge'
      | accept res => exact .inl ⟨gathered, res, rfl, rfl, hmerge, hwrites _, rfl⟩

/-- On a rank a placeholder becomes live exactly when its entry was captured first and is committed. -/
theorem wired_replayStepParallel {env : RankEnv} {st : Replay} (hwired : st.wired = []) (hwire : st.core.OwnersWire)
    {h : Handle} {i : Nat} {pe : PendingEntry} (hpe : st.core.pending[i]? = some pe) (hown : pe.owner = some h)
    (hone : ∀ pe' ∈ st.core.pending, pe'.owner = some h → pe' = pe) :
    (∃ j ∈ (replayStepParallel env st).1.state.wired, (replayStepParallel env st).2[j]?.join = some h) ↔
      env.CommitsFirst st.core pe := by
  rcases replayStepParallel_cases env st with ⟨gathered, res, hexchange, hgather, hmerge, hstate, hwiring⟩ | ⟨hstate, hno⟩
  · rw [hstate, hwiring]
    obtain ⟨hkeys, hslots⟩ := slots_of_merge (says_of_gathered hgather) (env.ranks_myRank st.core) hmerge
    -- the merged entry at a place, its capturer and its slot
    have hslot : ∀ {j : Nat} {e : Entry}, res.manifest.entries[j]? = some e →
        ∃ c ∈ firstCapturers (env.ranks st.core), c.2.key = e.key ∧
          res.wiring[j]? = some (if c.1 = env.myRank then c.2.owner else none) := by
      intro j e he
      have hkey := congrArg (fun l => l[j]?) hkeys
      simp only [List.getElem?_map, he, Option.map_some] at hkey
      obtain ⟨c, hc, hkey⟩ := Option.map_eq_some_iff.mp hkey.symm
      refine ⟨c, List.mem_of_getElem? hc, hkey, ?_⟩
      rw [hslots, List.getElem?_map, hc, Option.map_some]
    constructor
    · rintro ⟨j, hj, howner⟩
      obtain ⟨-, e, -, hgets⟩ := (mem_wired_replayManifest hwired).mp hj
      obtain ⟨c, hc, hkey, hwires⟩ := hslot hgets.entry
      rw [hwires, Option.join_some] at howner
      split at howner
      · rename_i hrank
        have hfirst := capturedFirst_of_mem hc
        obtain ⟨fs, hget, hfind⟩ := hfirst.own
        rw [hrank, env.ranks_myRank] at hget
        cases hget
        have hsame := hone c.2 (List.mem_of_find?_eq_some hfind) howner
        have hcpe : c = (env.myRank, pe) := Prod.ext hrank hsame
        rw [hcpe] at hfirst hkey
        exact ⟨hfirst, hexchange, gathered, res, j, e, hgather, hmerge, hgets, hkey.symm⟩
      · cases howner
    · rintro ⟨hfirst, -, gathered', res', j, e, hgather', hmerge', hgets, hkey⟩
      rw [hgather] at hgather'
      cases hgather'
      rw [hmerge] at hmerge'
      cases hmerge'
      obtain ⟨c, hc, hckey, hwires⟩ := hslot hgets.entry
      have hcpe : c = (env.myRank, pe) := (capturedFirst_of_mem hc).unique hfirst (hckey.trans hkey)
      have howner : res.wiring[j]?.join = some h := by
        rw [hwires, hcpe, if_pos rfl, Option.join_some, hown]
      refine ⟨j, (mem_wired_replayManifest hwired).mpr ⟨Option.isSome_of_eq_some howner, e, ?_, hgets⟩, howner⟩
      have hkind : e.kind = pe.kind := congrArg Prod.fst hkey
      rw [hkind]
      exact hwire pe (List.mem_of_getElem? hpe) (by rw [hown]; exact Option.some_ne_none h)
  · rw [hstate, hwired]
    refine iff_of_false ?_ ?_
    · rintro ⟨j, hj, -⟩
      cases hj
    · rintro ⟨-, hexchange, gathered, res, j, e, hgather, hmerge, -⟩
      exact hno gathered res hexchange hgather hmerge

theorem RankEnv.sameOwners_folded (env : RankEnv) (fs : Core) :
    (∀ i, (env.folded fs).ownerOf i = fs.ownerOf i) ∧ (fs.OwnersWire → (env.folded fs).OwnersWire) := by
  have hsame := Core.SameOwners.of_foldLinks env.groupAttr fs
  exact ⟨hsame.owner, hsame.wire⟩

/-- What `H5Fend_step` must do on a rank for the placeholders that are open there. -/
def RankEnv.CommitsOpen (env : RankEnv) (w : Writer) : Prop :=
  w.core.stepState = .inStep → ∀ h i, w.stateOf h = some (.placeholder i) →
    ∃ pe, (env.folded w.core).pending[i]? = some pe ∧ env.CommitsFirst (env.folded w.core) pe

theorem noneDangle_endRankStep_iff {w : Writer} (howned : w.Owned) (hnone : w.NoneDangle) (env : RankEnv) :
    (endRankStep env w).state.NoneDangle ↔ env.CommitsOpen w := by
  unfold RankEnv.CommitsOpen
  by_cases hstep : w.core.stepState = .inStep
  · obtain ⟨howner, hwire⟩ := env.sameOwners_folded w.core
    have hend : (endRankStep env w).state.core.stepState = .notInStep ∧
        (endRankStep env w).state.wrappers = wireOwners
          (fun i => (applyRankPolicy env ⟨env.folded w.core, [], w.lookups⟩).2[i]?.join)
          (applyRankPolicy env ⟨env.folded w.core, [], w.lookups⟩).1.state.wired w.wrappers := by
      unfold endRankStep
      rw [if_neg (not_not_intro hstep)]
      split
      · rename_i hpolicy
        rw [hpolicy]
        exact ⟨rfl, rfl⟩
      · rename_i hpolicy
        rw [hpolicy]
        exact ⟨rfl, rfl⟩
    rw [noneDangle_wired_iff hend.1 hend.2]
    -- with a placeholder open here the step is not dropped, and its entry is the one that has this owner
    have hone : ∀ h i, w.stateOf h = some (.placeholder i) →
        ((∃ j ∈ (applyRankPolicy env ⟨env.folded w.core, [], w.lookups⟩).1.state.wired,
            (applyRankPolicy env ⟨env.folded w.core, [], w.lookups⟩).2[j]?.join = some h) ↔
          ∃ pe, (env.folded w.core).pending[i]? = some pe ∧ env.CommitsFirst (env.folded w.core) pe) := by
      intro h i hi
      have hown := (howner i).trans (hnone h i hi).2
      obtain ⟨pe, hpe, hpeOwner⟩ := Option.bind_eq_some_iff.mp hown
      have hopen : (env.ranks (env.folded w.core)).any Core.hasOpenPlaceholder = true := by
        refine List.any_eq_true.mpr ⟨env.folded w.core, List.mem_append_right _ List.mem_cons_self, ?_⟩
        exact List.any_eq_true.mpr ⟨pe, List.mem_of_getElem? hpe, Option.isSome_of_eq_some hpeOwner⟩
      have hreplay : applyRankPolicy env ⟨env.folded w.core, [], w.lookups⟩
          = replayStepParallel env ⟨env.folded w.core, [], w.lookups⟩ := by
        unfold applyRankPolicy
        rw [hopen, Bool.not_true, Bool.and_false, if_neg Bool.false_ne_true]
      have hsole : ∀ pe' ∈ (env.folded w.core).pending, pe'.owner = some h → pe' = pe := by
        intro pe' hpe' hpeOwner'
        obtain ⟨k, hk⟩ := List.mem_iff_getElem?.mp hpe'
        have hheld := howned.held k h ((howner k).symm.trans (by rw [Core.ownerOf, hk]; exact hpeOwner'))
        rw [hi] at hheld
        cases hheld
        rw [hpe] at hk
        cases hk
        rfl
      rw [hreplay, wired_replayStepParallel rfl (hwire howned.wire) hpe hpeOwner hsole]
      constructor
      · exact fun hcommits => ⟨pe, hpe, hcommits⟩
      · rintro ⟨pe', hpe', hcommits⟩
        rw [hpe] at hpe'
        cases hpe'
        exact hcommits
    exact ⟨fun hall _ h i hi => (hone h i hi).mp (hall h i hi), fun hall h i hi => (hone h i hi).mpr (hall hstep h i hi)⟩
  · have hsame : (endRankStep env w).state = w := by
      unfold endRankStep
      rw [if_pos hstep]
      rfl
    rw [hsame]
    exact iff_of_true hnone fun h => absurd h hstep

theorem owned_endRankStep {w : Writer} (howned : w.Owned) (env : RankEnv) : (endRankStep env w).state.Owned := by
  unfold endRankStep
  split
  · exact howned
  · split
    · exact owned_of_freed rfl
    · exact owned_of_freed rfl

/-! ## Whole runs -/

/-- What happens to a writer, serial or a rank of a parallel one. -/
inductive RankEvent where
  | call (ev : Event)
  | endRankStep (env : RankEnv)

def Writer.rankStep (w : Writer) : RankEvent → Writer
  | .call ev => (w.apply ev).state
  | .endRankStep env => (VolStream.endRankStep env w).state

/-- The condition on one event: every placeholder that is open when the pending buffer is freed has its entry
committed. -/
def CommitsOpen (w : Writer) : RankEvent → Prop
  | .call (.endStep env) => env.CommitsOpen w
  | .endRankStep env => env.CommitsOpen w
  -- a step left open is never committed
  | .call .fileClose => w.core.stepState = .inStep → ∀ h i, w.stateOf h ≠ some (.placeholder i)
  | .call _ => True

/-- A call that leaves every placeholder where it belongs. -/
structure Writer.Tidy (w w' : Writer) : Prop where
  owned : w.Owned → w'.Owned
  noneDangle : w.Owned → w.NoneDangle → w'.NoneDangle

namespace Writer

variable {w w' : Writer}

theorem SameLinks.tidy (h : w.SameLinks w') : w.Tidy w' := ⟨h.owned, fun _ => h.noneDangle⟩

theorem Creates.tidy {h : Handle} (hcreate : w.Creates h w') : w.Tidy w' :=
  ⟨hcreate.owned, fun _ => hcreate.noneDangle⟩

theorem Tidy.of_eq (h : w' = w) : w.Tidy w' := by
  rw [h]
  exact (SameLinks.refl w).tidy

theorem tidy_beginWriterStep (w : Writer) (ids : List Nat) (wall : Nat) :
    w.Tidy (beginWriterStep w ids wall).state := by
  unfold beginWriterStep
  split
  · exact .of_eq rfl
  · rename_i hstep
    rw [not_not] at hstep
    refine ⟨fun hw => ⟨hw.held, hw.wire⟩, fun _ hnone h i hi => ?_⟩
    -- no step was open, so there is no placeholder
    have hopen := (hnone h i hi).1
    rw [hstep] at hopen
    cases hopen

theorem tidy_openLive (w : Writer) (h : Handle) (path : Path) (isDataset : Bool) :
    w.Tidy (w.apply (.openLive h path isDataset)).state := by
  rw [apply]
  split
  · rename_i hfree
    have hstate := stateOf_open w h
    have hnone : w.stateOf h = none := by rw [stateOf, hfree, Option.map_none]
    refine ⟨fun hw => ⟨fun i k hk => ?_, hw.wire⟩, fun _ hdangle k i hk => ?_⟩
    · have hheld := hw.held i k hk
      rw [Outcome.state_ok, hstate, if_neg, hheld]
      rintro rfl
      rw [hnone] at hheld
      cases hheld
    · rw [Outcome.state_ok, hstate] at hk
      split at hk
      · cases hk
      · exact hdangle k i hk
  · exact .of_eq rfl

/-- Every call but those that free the pending buffer. -/
theorem tidy_apply (w : Writer) {ev : Event} (hend : ∀ env, ev ≠ .endStep env) (hclose : ev ≠ .fileClose) :
    w.Tidy (w.apply ev).state := by
  cases ev with
  | beginStep ids wall => exact tidy_beginWriterStep w ids wall
  | datasetCreate h parent name type space dcpl =>
    rcases creates_datasetCreate w h parent name type space dcpl with hsame | hcreate
    · exact .of_eq hsame
    · exact hcreate.tidy
  | openLive h path isDataset => exact tidy_openLive w h path isDataset
  | datasetWrite args => exact (sameLinks_datasetWrite args w).tidy
  | setExtent h size maxDims under => exact (sameLinks_setExtent w h size maxDims under).tidy
  | attrCreate h parent name type space acpl =>
    rcases creates_attrCreate w h parent name type space acpl with hsame | hcreate
    · exact .of_eq hsame
    · exact hcreate.tidy
  | attrWrite h value under => exact (sameLinks_attrWrite w h value under).tidy
  | linkCreate path target hard => exact (sameLinks_captureLink w path target hard).tidy
  | noteGroupAttr path =>
    rw [apply, Outcome.state_ok, noteGroupAttr]
    split
    · exact .of_eq rfl
    · exact SameLinks.tidy ⟨.of_same rfl rfl, fun _ => rfl⟩
  | closeHandle h => exact ⟨fun hw => owned_closeHandle hw h, fun hw hnone => noneDangle_closeHandle hw hnone h⟩
  | setQueuePolicy policy reserve => exact SameLinks.tidy ⟨.of_same rfl rfl, fun _ => rfl⟩
  | endStep env => exact absurd rfl (hend env)
  | fileClose => exact absurd rfl hclose

theorem owned_fileClose (hw : w.Owned) : (fileClose w).Owned := by
  unfold fileClose
  split
  · exact owned_of_freed rfl
  · exact hw

theorem noneDangle_fileClose_iff (hnone : w.NoneDangle) :
    (fileClose w).NoneDangle ↔ (w.core.stepState = .inStep → ∀ h i, w.stateOf h ≠ some (.placeholder i)) := by
  unfold fileClose
  split
  · constructor
    · intro hclosed _ h i hi
      have hopen := (hclosed h i hi).1
      cases hopen
    · intro hfree h i hi
      exact absurd hi (hfree (hnone h i hi).1 h i)
  · rename_i hstep
    rw [not_or] at hstep
    exact iff_of_true hnone fun h => absurd h hstep.1

theorem owned_rankStep (w : Writer) (ev : RankEvent) (hw : w.Owned) : (w.rankStep ev).Owned := by
  cases ev with
  | endRankStep env => exact owned_endRankStep hw env
  | call ev =>
    by_cases hend : ∃ env, ev = .endStep env
    · obtain ⟨env, rfl⟩ := hend
      exact owned_endStep hw env
    · by_cases hclose : ev = .fileClose
      · rw [hclose]
        exact owned_fileClose hw
      · exact (tidy_apply w (fun env heq => hend ⟨env, heq⟩) hclose).owned hw

theorem noneDangle_rankStep_iff (w : Writer) (ev : RankEvent) (hw : w.Owned) (hnone : w.NoneDangle) :
    (w.rankStep ev).NoneDangle ↔ CommitsOpen w ev := by
  cases ev with
  | endRankStep env => exact noneDangle_endRankStep_iff hw hnone env
  | call ev =>
    by_cases hend : ∃ env, ev = .endStep env
    · obtain ⟨env, rfl⟩ := hend
      exact noneDangle_endStep_iff hw hnone env
    · by_cases hclose : ev = .fileClose
      · rw [hclose]
        exact noneDangle_fileClose_iff hnone
      · have htidy := tidy_apply w (fun env heq => hend ⟨env, heq⟩) hclose
        refine iff_of_true (htidy.noneDangle hw hnone) ?_
        cases ev with
        | endStep env => exact absurd ⟨env, rfl⟩ hend
        | fileClose => exact absurd rfl hclose
        | _ => trivial

end Writer

/-- No placeholder dangles in any state of a run exactly when whatever frees the pending buffer has committed the
entries of the placeholders that are open: `H5Fend_step` on a serial writer, `H5Fend_step` on a rank, and `H5Fclose`,
which commits none. -/
theorem placeholders_dangle_iff (config : Config) (events : List RankEvent) :
    (∀ n, (Runs.run Writer.rankStep (Writer.init config) (events.take n)).NoneDangle) ↔
      Runs.Meets Writer.rankStep CommitsOpen (Writer.init config) events := by
  have howned : (Writer.init config).Owned := owned_of_freed rfl
  have hnone : (Writer.init config).NoneDangle := fun h i hi => nomatch hi
  exact Runs.always_iff_meets Writer.owned_rankStep Writer.noneDangle_rankStep_iff howned hnone events

-- no call fails, and no step is dropped
def RankEnv.quiet (below above : List Core) : RankEnv :=
  ⟨fun _ => none, below, above, false, false, fun _ => 0, .quiet, false, .quiet, .quiet, false⟩

/-- The second of two ranks creates `/d`, as the first one does, ends the step, and creates `/e` in the next. -/
def bothCreate : List RankEvent :=
  [.call (.beginStep [] 0), .call (createByte 0 ['d']), .endRankStep (.quiet [rankOf [] [createD]] []),
    .call (.beginStep [] 0), .call (createByte 1 ['e'])]

/-- `H5Fend_step` succeeds, and the wrapper of `/d` is left with the index of what becomes `/e`. -/
theorem bothCreate_stale :
    (endRankStep (.quiet [rankOf [] [createD]] [])
      (Runs.run Writer.rankStep (Writer.init .plain) (bothCreate.take 2))).isOk = true ∧
    (Runs.run Writer.rankStep (Writer.init .plain) bothCreate).stateOf 0 = some (.placeholder 0) ∧
    (Runs.run Writer.rankStep (Writer.init .plain) bothCreate).core.ownerOf 0 = some 1 := by
  decide

theorem placeholders_dangle :
    ¬ ∀ (config : Config) (events : List RankEvent) (n : Nat),
      (Runs.run Writer.rankStep (Writer.init config) (events.take n)).NoneDangle := by
  intro h
  obtain ⟨-, hstale, hother⟩ := bothCreate_stale
  have howner := (h .plain bothCreate 5 0 0 hstale).2
  rw [show bothCreate.take 5 = bothCreate from rfl, hother] at howner
  cases howner

end VolStream
