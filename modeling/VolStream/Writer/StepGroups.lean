import VolStream.Reader.Paths
import VolStream.Writer.Capture

/-!
# What replay leaves under `/step` and in the path index

The reader sees a step through the `.manifest` in its group. A replay that succeeds adds the
manifest of its step, one that fails adds none, and neither touches the manifest of another step.
Along the way the path index receives the step's number once for each entry it indexes.
-/

namespace VolStream

/-! ## Manifests in the file -/

def FileOp.manifestContent : FileOp → Option (Option Step)
  | .manifest content => some content
  | _ => none

/-- The `.manifest` datasets made in a group, with what was written to them. -/
def StepFile.manifestOps (file : StepFile) (n : Nat) : List (Option Step) :=
  (file.ops n).filterMap FileOp.manifestContent

/-- The manifest a reader finds for a step. -/
def StepFile.manifestOf (file : StepFile) (n : Nat) : Option Step := (file.manifestOps n).head?.join

/-- The children of `/step` as a reader lists them. -/
def StepFile.children (file : StepFile) : Table Path (Option Step) :=
  file.map fun g => (stepName g.1, (g.2.filterMap FileOp.manifestContent).head?.join)

theorem find?_children (file : StepFile) (n : Nat) :
    file.children.find? (stepName n)
      = (file.find? n).map fun ops => (ops.filterMap FileOp.manifestContent).head?.join := by
  unfold StepFile.children
  induction file with
  | nil => rfl
  | cons g file ih =>
    obtain ⟨k, ops⟩ := g
    rw [List.map_cons, Table.find?_cons, Table.find?_cons]
    by_cases h : k = n
    · subst h
      simp
    · have hname : stepName k ≠ stepName n := fun hname => h (CString.decimal_injective hname)
      rw [if_neg hname, if_neg h, ih]

/-- What the reader indexes for a step is what its manifest indexes. -/
theorem stepPaths_children (file : StepFile) (n : Nat) :
    stepPaths file.children n = ((file.manifestOf n).map Step.indexPaths).getD [] := by
  unfold stepPaths StepFile.manifestOf StepFile.manifestOps StepFile.ops
  rw [find?_children]
  cases file.find? n with
  | none => rfl
  | some ops =>
    simp only [Option.map_some, Option.getD_some]
    cases (ops.filterMap FileOp.manifestContent).head?.join with
    | none => rfl
    | some m => rfl

theorem manifestContent_of_not_manifest {op : FileOp} (h : op.isManifest = false) :
    op.manifestContent = none := by
  cases op <;> simp_all [FileOp.isManifest, FileOp.manifestContent]

theorem StepFile.manifestOps_appendAll (file : StepFile) (n k : Nat) {ops : List FileOp}
    (hops : ∀ op ∈ ops, op.isManifest = false) :
    (file.appendAll n ops).manifestOps k = file.manifestOps k := by
  have hnone : ops.filterMap FileOp.manifestContent = [] :=
    List.filterMap_eq_nil_iff.mpr fun op hop => manifestContent_of_not_manifest (hops op hop)
  unfold StepFile.manifestOps
  rw [StepFile.ops_appendAll]
  split
  · rw [List.filterMap_append, hnone, List.append_nil]
  · rfl

theorem StepFile.manifestOps_ensure (file : StepFile) (n k : Nat) :
    (file.ensure n).manifestOps k = file.manifestOps k := by
  unfold StepFile.manifestOps
  rw [StepFile.ops_ensure]

theorem StepFile.manifestOps_unlink (file : StepFile) (n k : Nat) :
    (file.unlink n).manifestOps k = if n = k then [] else file.manifestOps k := by
  unfold StepFile.manifestOps
  rw [StepFile.ops_unlink]
  split
  · rfl
  · rfl

-- the `.manifest` a successful replay makes
def ReplayEnv.manifestMade (env : ReplayEnv) (m : Step) : List (Option Step) :=
  if env.manifestCreateFails then [] else [if env.manifestWriteFails then none else some m]

theorem filterMap_closing (env : ReplayEnv) (config : Config) (m : Step) :
    (env.closing config m).filterMap FileOp.manifestContent = env.manifestMade m := by
  unfold ReplayEnv.closing ReplayEnv.manifestMade
  cases env.manifestCreateFails <;> cases config.stagePayload && !env.payloadCreateFails <;> rfl

/-- One entry's replay leaves every manifest. -/
theorem manifestOps_replayEntry (env : ReplayEnv) (args : ReplayArgs) (ie : Nat × Entry) (st : Replay)
    (k : Nat) :
    (replayEntry env args ie st).state.core.file.manifestOps k = st.core.file.manifestOps k := by
  rcases replayEntry_core env args ie st with ⟨h, -⟩ | ⟨r, ops, links, hops, -, -, h⟩
  · rw [h]
  · rw [h]
    exact st.core.file.manifestOps_appendAll _ k hops

theorem manifestOps_loop (env : ReplayEnv) (args : ReplayArgs) (l : List (Nat × Entry)) (st : Replay)
    (k : Nat) :
    (Outcome.runAll (replayEntry env args) l st).state.core.file.manifestOps k
      = st.core.file.manifestOps k :=
  Outcome.state_runAll (P := fun s => s.core.file.manifestOps k = st.core.file.manifestOps k)
    (fun ie _ s hs => (manifestOps_replayEntry env args ie s k).trans hs) rfl

/-- A failed replay leaves every manifest, a successful one adds its own. -/
theorem manifestOps_replayManifest (env : ReplayEnv) (args : ReplayArgs) (st : Replay) (k : Nat) :
    (replayManifest env args st).state.core.file.manifestOps k
      = st.core.file.manifestOps k
        ++ if (replayManifest env args st).isOk ∧ args.manifest.physicalStep = k then
          env.manifestMade args.manifest else [] := by
  have hloop := manifestOps_loop env args (replayOrder args.manifest.entries) st k
  unfold replayManifest
  split
  · simp
  · cases hrun : Outcome.runAll (replayEntry env args) (replayOrder args.manifest.entries) st with
    | fail st' =>
      rw [hrun] at hloop
      simpa using hloop
    | ok st' =>
      rw [hrun, Outcome.state_ok] at hloop
      rw [Outcome.bind_ok, persist_eq]
      obtain ⟨-, ops, hops, hcarry⟩ := applied_carryForwardResized env args.manifest st'
      have hcarried : (carryForwardResized env args.manifest st').core.file.manifestOps k
          = st.core.file.manifestOps k := by
        rw [hcarry]
        exact (st'.core.file.manifestOps_appendAll _ k hops).trans hloop
      split
      · simpa using hcarried
      · simp only [Outcome.state_ok, Outcome.isOk_ok, true_and]
        rw [← hcarried]
        unfold StepFile.manifestOps
        rw [StepFile.ops_appendAll, StepFile.ops_ensure]
        split
        · rw [List.filterMap_append, filterMap_closing]
        · rw [List.append_nil]

/-! ## Groups -/

-- the group is there, last if it was not before
def addGroup (keys : List Nat) (n : Nat) : List Nat := if n ∈ keys then keys else keys ++ [n]

theorem addGroup_addGroup (keys : List Nat) (n : Nat) : addGroup (addGroup keys n) n = addGroup keys n := by
  unfold addGroup
  by_cases h : n ∈ keys
  · rw [if_pos h, if_pos h]
  · rw [if_neg h, if_pos (List.mem_append_right _ List.mem_cons_self)]

theorem addGroup_range (n : Nat) : addGroup (List.range n) n = List.range (n + 1) := by
  unfold addGroup
  rw [if_neg (by simp), List.range_succ]

theorem StepFile.keys_appendAll (file : StepFile) (n : Nat) (ops : List FileOp) :
    (file.appendAll n ops).keys = file.keys ∨ (file.appendAll n ops).keys = addGroup file.keys n := by
  induction ops generalizing file with
  | nil => exact .inl rfl
  | cons op ops ih =>
    have happend : (file.append n op).keys = addGroup file.keys n := Table.keys_set _ _ _
    rcases ih (file.append n op) with h | h
    · exact .inr (h.trans happend)
    · exact .inr (by rw [← addGroup_addGroup, ← happend]; exact h)

theorem StepFile.keys_ensure (file : StepFile) (n : Nat) : (file.ensure n).keys = addGroup file.keys n := by
  have hmem := Table.mem_keys_iff file n
  unfold StepFile.ensure addGroup
  cases hfind : file.find? n with
  | none =>
    rw [hfind] at hmem
    rw [Table.keys_set]
  | some ops =>
    rw [hfind] at hmem
    rw [if_pos (hmem.mpr rfl)]

theorem keys_loop (env : ReplayEnv) (args : ReplayArgs) (l : List (Nat × Entry)) (st : Replay) :
    (Outcome.runAll (replayEntry env args) l st).state.core.file.keys = st.core.file.keys
      ∨ (Outcome.runAll (replayEntry env args) l st).state.core.file.keys
        = addGroup st.core.file.keys args.manifest.physicalStep := by
  refine Outcome.state_runAll (P := fun s : Replay => s.core.file.keys = st.core.file.keys
    ∨ s.core.file.keys = addGroup st.core.file.keys args.manifest.physicalStep) (fun ie _ s hs => ?_) (.inl rfl)
  rcases replayEntry_core env args ie s with ⟨h, -⟩ | ⟨r, ops, links, -, -, -, h⟩
  · rw [h]
    exact hs
  · rw [h]
    rcases s.core.file.keys_appendAll args.manifest.physicalStep ops with hk | hk <;> rcases hs with hs | hs
    · exact .inl (hk.trans hs)
    · exact .inr (hk.trans hs)
    · exact .inr (by rw [← hs]; exact hk)
    · exact .inr (by rw [← addGroup_addGroup, ← hs]; exact hk)

/-- After a successful replay the step's group is there. -/
theorem keys_replayManifest_ok {env : ReplayEnv} {args : ReplayArgs} {st st' : Replay}
    (h : replayManifest env args st = .ok st') :
    st'.core.file.keys = addGroup st.core.file.keys args.manifest.physicalStep := by
  unfold replayManifest at h
  split at h
  · cases h
  · have hloop := keys_loop env args (replayOrder args.manifest.entries) st
    rw [Outcome.bind_eq_ok_iff] at h
    obtain ⟨s, hs, h⟩ := h
    rw [hs, Outcome.state_ok] at hloop
    rw [persist_eq] at h
    split at h
    · cases h
    · cases h
      obtain ⟨-, ops, -, hcarry⟩ := applied_carryForwardResized env args.manifest s
      have hgroup : addGroup (carryForwardResized env args.manifest s).core.file.keys
          args.manifest.physicalStep = addGroup st.core.file.keys args.manifest.physicalStep := by
        rw [hcarry]
        rcases s.core.file.keys_appendAll args.manifest.physicalStep ops with hk | hk <;>
          rcases hloop with hl | hl
        · exact congrArg (addGroup · _) (hk.trans hl)
        · rw [← addGroup_addGroup st.core.file.keys]
          exact congrArg (addGroup · _) (hk.trans hl)
        · rw [← addGroup_addGroup st.core.file.keys, ← hl]
          exact congrArg (addGroup · _) hk
        · rw [← addGroup_addGroup st.core.file.keys, ← addGroup_addGroup (addGroup _ _), ← hl]
          exact congrArg (addGroup · _) hk
      rcases StepFile.keys_appendAll ((carryForwardResized env args.manifest s).core.file.ensure
        args.manifest.physicalStep) args.manifest.physicalStep
        (env.closing (carryForwardResized env args.manifest s).core.config args.manifest) with hk | hk
      · rw [← hgroup, ← StepFile.keys_ensure]
        exact hk
      · rw [← hgroup, ← addGroup_addGroup, ← StepFile.keys_ensure]
        exact hk

/-! ## The path index -/

theorem perm_zipIdx_replayOrder (entries : List Entry) :
    (replayOrder entries).Perm (entries.zipIdx.map fun (e, i) => (i, e)) := by
  unfold replayOrder
  simp only
  refine (List.perm_append_comm).trans ?_
  exact List.filter_append_perm (fun ie : Nat × Entry => ie.2.kind.late) _

theorem perm_replayOrder (entries : List Entry) : ((replayOrder entries).map Prod.snd).Perm entries := by
  have hmap := (perm_zipIdx_replayOrder entries).map Prod.snd
  rw [List.map_map, show (Prod.snd ∘ fun (x : Entry × Nat) => (x.2, x.1)) = Prod.fst from rfl,
    List.zipIdx_map_fst] at hmap
  exact hmap

/-- Replaying an entry appends its step to its own path's list, if it gets that far. -/
theorem steps_replayEntry (env : ReplayEnv) (args : ReplayArgs) (ie : Nat × Entry) (st : Replay)
    (path : Path) :
    ∃ c, ((replayEntry env args ie st).state.core.pathIndex path).steps
        = (st.core.pathIndex path).steps ++ List.replicate c args.manifest.physicalStep
      ∧ ((replayEntry env args ie st).isOk → c = (indexPaths [ie.2.key]).count path) := by
  rcases replayEntry_core env args ie st with ⟨h, hfail⟩ | ⟨r, ops, links, -, -, -, h⟩
  · refine ⟨0, ?_, fun hok => ?_⟩
    · rw [h, List.replicate_zero, List.append_nil]
    · rw [hfail] at hok
      cases hok
  · refine ⟨(indexPaths [ie.2.key]).count path, ?_, fun _ => rfl⟩
    rw [h]
    exact steps_indexEntries [ie.2] args.manifest.physicalStep st.core.pathIndex path

theorem steps_loop (env : ReplayEnv) (args : ReplayArgs) (l : List (Nat × Entry)) (st : Replay)
    (path : Path) :
    ∃ c, ((Outcome.runAll (replayEntry env args) l st).state.core.pathIndex path).steps
        = (st.core.pathIndex path).steps ++ List.replicate c args.manifest.physicalStep
      ∧ ((Outcome.runAll (replayEntry env args) l st).isOk →
          c = (indexPaths (l.map fun ie => ie.2.key)).count path) := by
  induction l generalizing st with
  | nil => exact ⟨0, (List.append_nil _).symm, fun _ => rfl⟩
  | cons ie l ih =>
    obtain ⟨c, hsteps, hc⟩ := steps_replayEntry env args ie st path
    rw [Outcome.runAll_cons]
    cases hentry : replayEntry env args ie st with
    | fail st' =>
      rw [hentry] at hsteps
      exact ⟨c, hsteps, fun h => by cases h⟩
    | ok st' =>
      rw [hentry] at hsteps hc
      obtain ⟨c', hsteps', hc'⟩ := ih st'
      refine ⟨c + c', ?_, fun h => ?_⟩
      · rw [Outcome.bind_ok, hsteps', show st'.core = (Outcome.ok st').state.core from rfl, hsteps,
          List.append_assoc, List.replicate_append_replicate]
      · rw [hc rfl, hc' h, ← List.count_append, ← indexPaths_append]
        rfl

/-- Replay appends the step to each path's list: as often as the manifest indexes it, if it
succeeds. -/
theorem steps_replayManifest (env : ReplayEnv) (args : ReplayArgs) (st : Replay) (path : Path) :
    ∃ c, ((replayManifest env args st).state.core.pathIndex path).steps
        = (st.core.pathIndex path).steps ++ List.replicate c args.manifest.physicalStep
      ∧ ((replayManifest env args st).isOk → c = args.manifest.indexPaths.count path) := by
  unfold replayManifest
  split
  · exact ⟨0, (List.append_nil _).symm, fun h => by cases h⟩
  · obtain ⟨c, hsteps, hc⟩ := steps_loop env args (replayOrder args.manifest.entries) st path
    refine ⟨c, ?_, fun hok => ?_⟩
    · rw [← hsteps]
      cases Outcome.runAll (replayEntry env args) (replayOrder args.manifest.entries) st with
      | fail st' => rfl
      | ok st' =>
        obtain ⟨-, ops, -, hcarry⟩ := applied_carryForwardResized env args.manifest st'
        rw [Outcome.bind_ok, persist_eq]
        split
        · rw [Outcome.state_fail, hcarry]
          rfl
        · simp only [Outcome.state_ok, hcarry]
    · have hrun : (Outcome.runAll (replayEntry env args) (replayOrder args.manifest.entries) st).isOk := by
        cases hrun : Outcome.runAll (replayEntry env args) (replayOrder args.manifest.entries) st with
        | ok st' => rfl
        | fail st' =>
          rw [hrun] at hok
          cases hok
      have hperm : (indexPaths ((replayOrder args.manifest.entries).map fun ie => ie.2.key)).Perm
          args.manifest.indexPaths := by
        have hkeys := (perm_replayOrder args.manifest.entries).map Entry.key
        rw [List.map_map] at hkeys
        exact (hkeys.filter _).map _
      rw [hc hrun, hperm.count_eq]

/-- No entry is indexed before the replay stops. -/
def FailsUnindexed (env : ReplayEnv) (args : ReplayArgs) : List (Nat × Entry) → Bool
  | [] => true
  | ie :: l =>
      if ie.2.kind.indexed then args.outOfBounds ie.2 || env.fails ie.1 .indexAdd
      else FailsUnindexed env args l

theorem replayEntry_unindexed {env : ReplayEnv} {args : ReplayArgs} {ie : Nat × Entry}
    (hkind : ie.2.kind.indexed) (h : args.outOfBounds ie.2 || env.fails ie.1 .indexAdd) (st : Replay) :
    ∃ st', replayEntry env args ie st = .fail st' ∧ st'.core = st.core := by
  unfold replayEntry resolveEntry
  cases hbounds : args.outOfBounds ie.2 with
  | true => exact ⟨st, rfl, rfl⟩
  | false =>
    have hadd : env.fails ie.1 .indexAdd = true := by rwa [hbounds, Bool.false_or] at h
    simp only [Replay.check, Bool.false_eq_true, if_false, Outcome.bind_ok]
    rcases lookupOmitted_eq ie.2 st with ⟨hlook, -⟩ | hlook
    · rw [hlook]
      exact ⟨st.looked ie.2, rfl, Replay.looked_core st ie.2⟩
    · rw [hlook, Outcome.bind_ok, indexReplayed, hkind, hadd]
      exact ⟨st.looked ie.2, rfl, Replay.looked_core st ie.2⟩

theorem steps_loop_unindexed {env : ReplayEnv} {args : ReplayArgs} {l : List (Nat × Entry)}
    (h : FailsUnindexed env args l) (st : Replay) (path : Path) :
    ((Outcome.runAll (replayEntry env args) l st).state.core.pathIndex path).steps
      = (st.core.pathIndex path).steps := by
  induction l generalizing st with
  | nil => rfl
  | cons ie l ih =>
    unfold FailsUnindexed at h
    rw [Outcome.runAll_cons]
    cases hkind : ie.2.kind.indexed with
    | true =>
      rw [hkind, if_pos rfl] at h
      obtain ⟨st', hst', hcore⟩ := replayEntry_unindexed hkind h st
      rw [hst', Outcome.bind_fail, Outcome.state_fail, hcore]
    | false =>
      rw [hkind, if_neg (by decide)] at h
      have hentry : ((replayEntry env args ie st).state.core.pathIndex path).steps
          = (st.core.pathIndex path).steps := by
        rcases replayEntry_core env args ie st with ⟨hcore, -⟩ | ⟨r, ops, links, -, -, -, hcore⟩
        · rw [hcore]
        · rw [hcore]
          simp only [steps_indexEntry, hkind, Bool.false_eq_true, false_and, if_false]
      cases hrun : replayEntry env args ie st with
      | fail st' =>
        rw [hrun] at hentry
        exact hentry
      | ok st' =>
        rw [hrun] at hentry
        exact (ih h st').trans hentry

theorem steps_replayManifest_unindexed {env : ReplayEnv} {args : ReplayArgs}
    (h : env.startFails || FailsUnindexed env args (replayOrder args.manifest.entries)) (st : Replay)
    (path : Path) :
    ((replayManifest env args st).state.core.pathIndex path).steps = (st.core.pathIndex path).steps := by
  unfold replayManifest
  split
  · rfl
  · rename_i hstart
    rw [Bool.not_eq_true] at hstart
    rw [hstart, Bool.false_or] at h
    have hloop := steps_loop_unindexed h st path
    cases hrun : Outcome.runAll (replayEntry env args) (replayOrder args.manifest.entries) st with
    | fail st' =>
      rw [hrun] at hloop
      exact hloop
    | ok st' =>
      rw [hrun, Outcome.state_ok] at hloop
      obtain ⟨-, ops, -, hcarry⟩ := applied_carryForwardResized env args.manifest st'
      rw [Outcome.bind_ok, persist_eq]
      split
      · rw [Outcome.state_fail, hcarry]
        exact hloop
      · simp only [Outcome.state_ok, hcarry]
        exact hloop

/-! ## The manifest of the step just captured -/

def PendingEntry.key (pe : PendingEntry) : Kind × Path := (pe.kind, pe.path)

/-- What an entry makes: its kind, its path and its dataspace. -/
structure Shape where
  kind : Kind
  path : Path
  space : Dataspace
deriving DecidableEq, Repr

def Entry.shape (e : Entry) : Shape := ⟨e.kind, e.path, e.space⟩

def PendingEntry.shape (pe : PendingEntry) : Shape := ⟨pe.kind, pe.path, pe.space⟩

theorem keys_of_shapes {entries : List Entry} {pending : List PendingEntry}
    (h : entries.map Entry.shape = pending.map PendingEntry.shape) :
    entries.map Entry.key = pending.map PendingEntry.key := by
  have hkeys := congrArg (List.map fun s : Shape => (s.kind, s.path)) h
  rw [List.map_map, List.map_map] at hkeys
  exact hkeys

-- the paths the step will index
def Core.pendingPaths (fs : Core) : List Path := indexPaths (fs.pending.map PendingEntry.key)

theorem buildEntries_shapes {env : BuildEnv} {i off total : Nat} {pending : List PendingEntry}
    {w w' : TypeCache} {entries : List Entry}
    (h : buildEntries env i off pending w = (w', some (entries, total))) :
    entries.map Entry.shape = pending.map PendingEntry.shape := by
  induction pending generalizing i off w entries with
  | nil =>
    cases h
    rfl
  | cons pe pending ih =>
    unfold buildEntries at h
    split at h
    · cases h
    · split at h
      · cases h
      · split at h
        · cases h
        · simp only at h
          cases hrest : buildEntries env (i + 1) (off + pe.payload.len) pending (recordType w pe) with
          | mk w₁ res =>
            rw [hrest] at h
            cases res with
            | none => cases h
            | some pair =>
              obtain ⟨es, n⟩ := pair
              cases h
              rw [List.map_cons, List.map_cons, ih hrest]
              rfl

/-- Building changes the encoder's cache only, and lists the pending entries in order. -/
theorem buildManifest_eq {env : BuildEnv} {fs fs' : Core} {res : Option Step}
    (h : buildManifest env fs = (fs', res)) :
    ∃ w, fs' = { fs with writeTypeCache := w } ∧
      ∀ m, res = some m → m.physicalStep = fs.physicalStep ∧ m.indexPaths = fs.pendingPaths := by
  unfold buildManifest at h
  cases hbuild : buildEntries env 0 0 fs.pending fs.writeTypeCache with
  | mk w pair =>
    rw [hbuild] at h
    cases pair with
    | none =>
      cases h
      exact ⟨w, rfl, fun m hm => by cases hm⟩
    | some pair =>
      obtain ⟨entries, total⟩ := pair
      simp only [Prod.mk.injEq] at h
      obtain ⟨rfl, rfl⟩ := h
      refine ⟨w, rfl, fun m hm => ?_⟩
      rw [Option.ite_none_left_eq_some, Option.some.injEq] at hm
      obtain ⟨-, rfl⟩ := hm
      exact ⟨rfl, congrArg indexPaths (keys_of_shapes (buildEntries_shapes hbuild))⟩

theorem shapes_buildManifest {env : BuildEnv} {fs : Core} {m : Step} (h : (buildManifest env fs).2 = some m) :
    m.entries.map Entry.shape = fs.pending.map PendingEntry.shape := by
  unfold buildManifest at h
  cases hbuild : buildEntries env 0 0 fs.pending fs.writeTypeCache with
  | mk w pair =>
    rw [hbuild] at h
    cases pair with
    | none => cases h
    | some pair =>
      rw [Option.ite_none_left_eq_some, Option.some.injEq] at h
      obtain ⟨-, rfl⟩ := h
      exact buildEntries_shapes hbuild

/-- A spill queues the step, or leaves the state but for an empty group and the encoder's cache. -/
theorem spillStep_eq (env : SpillEnv) (fs : Core) :
    (∃ file w m, spillStep env fs = .ok { fs with
        file := file, writeTypeCache := w
        pendingSpill := fs.pendingSpill ++ [⟨fs.physicalStep, m, fs.pending.map (·.payload)⟩] }
        ∧ m.physicalStep = fs.physicalStep ∧ m.indexPaths = fs.pendingPaths
        ∧ file = fs.file.ensure fs.physicalStep)
      ∨ ∃ file w, spillStep env fs = .fail { fs with file := file, writeTypeCache := w }
        ∧ (file = fs.file ∨ file = fs.file.ensure fs.physicalStep) := by
  unfold spillStep discardStep
  split
  · exact .inr ⟨fs.file, fs.writeTypeCache, rfl, .inl rfl⟩
  · rw [Outcome.bind_ok]
    split
    · exact .inr ⟨_, fs.writeTypeCache, rfl, .inr rfl⟩
    · cases hbuild : buildManifest env.build { fs with file := fs.file.ensure fs.physicalStep } with
      | mk fs' res =>
        obtain ⟨w, hfs, hm⟩ := buildManifest_eq hbuild
        cases res with
        | none => exact .inr ⟨_, w, by rw [hfs], .inr rfl⟩
        | some m =>
          simp only
          split
          · exact .inr ⟨_, w, by rw [hfs], .inr rfl⟩
          · obtain ⟨hnumber, hpaths⟩ := hm m rfl
            exact .inl ⟨_, w, m, by rw [hfs], hnumber, hpaths, rfl⟩

/-! ## What a commit leaves alone -/

/-- The commit state with every table the queue policy works on blanked out. -/
def Core.policyFrame (fs : Core) : Core := { fs.drainFrame with writeTypeCache := fun _ => none }

theorem policyFrame_of_drainFrame {fs fs' : Core} (h : fs'.drainFrame = fs.drainFrame) :
    fs'.policyFrame = fs.policyFrame := by
  unfold Core.policyFrame
  rw [h]

theorem policyFrame_replayStep (build : BuildEnv) (env : ReplayEnv) (st : Replay) :
    (replayStep build env st).state.core.policyFrame = st.core.policyFrame := by
  unfold replayStep
  cases hbuild : buildManifest build st.core with
  | mk fs res =>
    obtain ⟨w, hfs, -⟩ := buildManifest_eq hbuild
    cases res with
    | none =>
      rw [hfs]
      rfl
    | some m =>
      have hframe := frame_replayManifest env (fs.replayArgs m) { st with core := fs }
      show (replayManifest env (fs.replayArgs m) { st with core := fs }).state.core.policyFrame = _
      unfold Core.policyFrame Core.drainFrame
      rw [hframe, hfs]
      rfl

theorem pendingSpill_replayStep (build : BuildEnv) (env : ReplayEnv) (st : Replay) :
    (replayStep build env st).state.core.pendingSpill = st.core.pendingSpill := by
  unfold replayStep
  cases hbuild : buildManifest build st.core with
  | mk fs res =>
    obtain ⟨w, rfl, -⟩ := buildManifest_eq hbuild
    cases res with
    | none => rfl
    | some m =>
      have hframe := congrArg Core.pendingSpill (frame_replayManifest env
        (Core.replayArgs { st.core with writeTypeCache := w } m)
        { st with core := { st.core with writeTypeCache := w } })
      exact hframe

theorem policyFrame_applyQueuePolicy (env : EndEnv) (st : Replay) :
    (applyQueuePolicy env st).state.core.policyFrame = st.core.policyFrame := by
  have hdrained := policyFrame_of_drainFrame (drainFrame_drained env st)
  rw [applyQueuePolicy_eq]
  cases st.core.fate env.lag with
  | replay => exact (policyFrame_replayStep env.build env.replay _).trans hdrained
  | drop =>
    simp only [dropped, discardStep]
    cases env.discardFails with
    | false => exact hdrained
    | true => exact hdrained
  | spill =>
    simp only [spilled]
    rcases spillStep_eq env.spill (drained env st).core with ⟨file, w, m, h, -⟩ | ⟨file, w, h, -⟩
    · rw [h]
      exact hdrained
    · rw [h]
      exact (policyFrame_replayStep env.build env.replay _).trans hdrained

end VolStream
