import VolStream.Writer.Through

/-!
# What a replay has made

A create call takes a name in its step's group, and HDF5 refuses a second one with the same name: what
is at a path of `/step/<n>` is what the first call made that took the path. A replay that succeeds has
made every dataset of the step and, where its name was free and the call went through, every link, which
names the copy of its target the index held when the link's turn came.
-/

namespace VolStream

/-! ## Names -/

/-- The name a call takes in its group. -/
def FileOp.name : FileOp → Option Path
  | .datasetCreate path .. => some path
  | .aliasCreate path _ => some path
  | .groupCreate path => some path
  | .linkCreate path .. => some path
  | _ => none

/-- The call that made what is at a path of `/step/<n>`. -/
def StepFile.objectAt (file : StepFile) (n : Nat) (path : Path) : Option FileOp :=
  (file.ops n).find? fun op => decide (op.name = some path)

/-- The name replaying an entry takes, if it takes one: an attribute may make its object. -/
def entryName (key : Kind × Path) : Option Path :=
  match key.1 with
  | .dsetCreate => some key.2
  | .link => some key.2
  | .attr => attrParent key.2
  | _ => none

theorem FileOp.Of.name {n : Nat} {idx : PathIndex} {payload : Payload} {e : Entry} {op : FileOp}
    (h : op.Of n idx payload e) {path : Path} (hname : op.name = some path) : entryName e.key = some path := by
  cases h with
  | datasetCreate t hk =>
    cases hname
    simp only [entryName, Entry.key, hk]
  | datasetWrite t hk => cases hname
  | aliasCreate parent r hk hparent =>
    cases hname
    simp only [entryName, Entry.key, hk, hparent]
  | groupCreate parent hk hparent =>
    cases hname
    simp only [entryName, Entry.key, hk, hparent]
  | attrCreate t hk => cases hname
  | attrWrite hk => cases hname
  | linkCreate hard target hk hpayload =>
    cases hname
    simp only [entryName, Entry.key, hk]

theorem StepFile.objectAt_congr {file file' : StepFile} {n : Nat} (h : file'.ops n = file.ops n) (path : Path) :
    file'.objectAt n path = file.objectAt n path := by
  unfold StepFile.objectAt
  rw [h]

/-- A name that is taken stays what it is. -/
theorem StepFile.objectAt_appendAll (file : StepFile) (n : Nat) (ops : List FileOp) {path : Path} {op : FileOp}
    (h : file.objectAt n path = some op) : (file.appendAll n ops).objectAt n path = some op := by
  unfold StepFile.objectAt at h ⊢
  rw [StepFile.ops_appendAll, if_pos rfl, List.find?_append, h]
  rfl

/-- Calls that do not take the name leave it. -/
theorem StepFile.objectAt_appendAll_of_ne (file : StepFile) (n : Nat) {ops : List FileOp} {path : Path}
    (h : ∀ op ∈ ops, op.name ≠ some path) : (file.appendAll n ops).objectAt n path = file.objectAt n path := by
  unfold StepFile.objectAt
  rw [StepFile.ops_appendAll, if_pos rfl, List.find?_append]
  have hnone : ops.find? (fun op => decide (op.name = some path)) = none := by
    rw [List.find?_eq_none]
    intro op hop
    simpa using h op hop
  rw [hnone, Option.or_none]

/-- A free name goes to the call that takes it. -/
theorem StepFile.objectAt_append (file : StepFile) (n : Nat) {op : FileOp} {path : Path}
    (hfree : file.objectAt n path = none) (hname : op.name = some path) :
    (file.append n op).objectAt n path = some op := by
  unfold StepFile.objectAt at hfree ⊢
  rw [StepFile.ops_append, if_pos rfl, List.find?_append, hfree]
  simp [hname]

/-! ## One entry -/

theorem objectAt_replayEntry_of_ne (env : ReplayEnv) (args : ReplayArgs) (ie : Nat × Entry) {path : Path}
    (h : entryName ie.2.key ≠ some path) (st : Replay) :
    (replayEntry env args ie st).state.core.file.objectAt args.manifest.physicalStep path
      = st.core.file.objectAt args.manifest.physicalStep path := by
  obtain ⟨ops, hops, hfile⟩ := replayEntry_ops env args ie st
  rw [hfile]
  exact StepFile.objectAt_appendAll_of_ne _ _ fun op hop hname => h ((hops op hop).name hname)

theorem objectAt_replayEntry (env : ReplayEnv) (args : ReplayArgs) (ie : Nat × Entry) {path : Path} {op : FileOp}
    {st : Replay} (h : st.core.file.objectAt args.manifest.physicalStep path = some op) :
    (replayEntry env args ie st).state.core.file.objectAt args.manifest.physicalStep path = some op := by
  obtain ⟨ops, -, hfile⟩ := replayEntry_ops env args ie st
  rw [hfile]
  exact StepFile.objectAt_appendAll _ _ _ h

/-- An entry replayed with success, by its two halves. -/
theorem replayEntry_eq_ok {env : ReplayEnv} {args : ReplayArgs} {ie : Nat × Entry} {st st' : Replay}
    (h : replayEntry env args ie st = .ok st') :
    ∃ t, applyEntry env args ie.1 ie.2 t (st.resolved args.manifest.physicalStep ie.2) = .ok st' := by
  unfold replayEntry at h
  rcases resolveEntry_cases env args ie.1 ie.2 st with
    ⟨hr, -⟩ | ⟨hr, -⟩ | ⟨hr, -⟩ | ⟨hr, -⟩ | hr <;> rw [hr] at h
  · cases h
  · cases h
  · cases h
  · cases h
  · rw [Outcome.bind_ok] at h
    split at h
    · cases h
    · exact ⟨_, h⟩

/-- The links an entry replayed with success leaves. -/
theorem links_replayEntry {env : ReplayEnv} {args : ReplayArgs} {ie : Nat × Entry} {st st' : Replay}
    (h : replayEntry env args ie st = .ok st') : st'.core.links = notedLinks env args ie st.core := by
  obtain ⟨t, ht⟩ := replayEntry_eq_ok h
  obtain ⟨-, ops, -, hcore⟩ := applyEntry_core env args ie t (st.resolved args.manifest.physicalStep ie.2)
  rw [ht, Outcome.state_ok, resolved_core] at hcore
  rw [hcore]
  rfl

theorem made_dataset {env : ReplayEnv} {args : ReplayArgs} {ie : Nat × Entry} {st st' : Replay}
    (h : replayEntry env args ie st = .ok st') (hk : ie.2.kind = .dsetCreate) :
    ∃ t, st'.core.file = st.core.file.append args.manifest.physicalStep
      (.datasetCreate ie.2.path t ie.2.space ie.2.dcpl) := by
  obtain ⟨t, ht⟩ := replayEntry_eq_ok h
  refine ⟨t, ?_⟩
  simp only [applyEntry, hk] at ht
  split at ht
  · cases ht
  · cases ht
    rw [Replay.wire_core]
    show (st.resolved args.manifest.physicalStep ie.2).core.file.append _ _ = _
    rw [resolved_core]

theorem made_link {env : ReplayEnv} {args : ReplayArgs} {ie : Nat × Entry} {st st' : Replay}
    (h : replayEntry env args ie st = .ok st') (hk : ie.2.kind = .link) {hard : Bool} {target : Path}
    (hpayload : args.payload ie.1 = .link hard target) (htarget : target ≠ [])
    (hmade : env.fails ie.1 .linkCreate = false) :
    st'.core.file = st.core.file.append args.manifest.physicalStep (.linkCreate ie.2.path hard
      (pathIndexResolve (indexEntry st.core.pathIndex args.manifest.physicalStep ie.2.kind ie.2.path) target
        args.manifest.physicalStep) target) := by
  obtain ⟨t, ht⟩ := replayEntry_eq_ok h
  simp only [applyEntry, hk, replayLink, hpayload] at ht
  rw [if_neg (by simp [htarget, hmade])] at ht
  have hst : st'.core.file = ((st.resolved args.manifest.physicalStep ie.2).logOp args.manifest.physicalStep
      (.linkCreate ie.2.path hard (pathIndexResolve (st.resolved args.manifest.physicalStep ie.2).core.pathIndex target
        args.manifest.physicalStep) target)).core.file := by
    cases ht
    split
    · rfl
    · rfl
  rw [hst]
  show (st.resolved args.manifest.physicalStep ie.2).core.file.append _ _ = _
  rw [resolved_core]

/-! ## A manifest -/

theorem objectAt_loop_of_ne (env : ReplayEnv) (args : ReplayArgs) {l : List (Nat × Entry)} {path : Path}
    (h : ∀ ie ∈ l, entryName ie.2.key ≠ some path) (st : Replay) :
    (Outcome.runAll (replayEntry env args) l st).state.core.file.objectAt args.manifest.physicalStep path
      = st.core.file.objectAt args.manifest.physicalStep path :=
  Outcome.state_runAll (P := fun s : Replay => s.core.file.objectAt args.manifest.physicalStep path
      = st.core.file.objectAt args.manifest.physicalStep path)
    (fun ie hie s hs => (objectAt_replayEntry_of_ne env args ie (h ie hie) s).trans hs) rfl

/-- What an entry took the name for is there when the replay is done. -/
theorem objectAt_replayManifest {env : ReplayEnv} {args : ReplayArgs} {st st' s : Replay} {l l' : List (Nat × Entry)}
    (hok : replayManifest env args st = .ok st') (horder : replayOrder args.manifest.entries = l ++ l')
    (hs : Outcome.runAll (replayEntry env args) l st = .ok s) {path : Path} {op : FileOp}
    (h : s.core.file.objectAt args.manifest.physicalStep path = some op) :
    st'.core.file.objectAt args.manifest.physicalStep path = some op := by
  unfold replayManifest at hok
  split at hok
  · cases hok
  · rw [horder, Outcome.runAll_append, hs, Outcome.bind_ok, Outcome.bind_eq_ok_iff] at hok
    obtain ⟨s', hs', hok⟩ := hok
    have hloop : (Outcome.runAll (replayEntry env args) l' s).state.core.file.objectAt args.manifest.physicalStep path
        = some op :=
      Outcome.state_runAll (P := fun s : Replay => s.core.file.objectAt args.manifest.physicalStep path = some op)
        (fun ie _ s hs => objectAt_replayEntry env args ie hs) h
    rw [hs', Outcome.state_ok] at hloop
    rw [persist_eq] at hok
    split at hok
    · cases hok
    · cases hok
      obtain ⟨-, ops, -, hcarry⟩ := applied_carryForwardResized env args.manifest s'
      refine StepFile.objectAt_appendAll _ _ _ ?_
      rw [StepFile.objectAt_congr (StepFile.ops_ensure _ _ _), hcarry]
      exact StepFile.objectAt_appendAll _ _ _ hloop

/-- A replay that succeeds gave every entry its turn. -/
theorem turn_of_replayManifest {env : ReplayEnv} {args : ReplayArgs} {st st' : Replay}
    (hok : replayManifest env args st = .ok st') {l l' : List (Nat × Entry)} {ie : Nat × Entry}
    (horder : replayOrder args.manifest.entries = l ++ ie :: l') :
    ∃ s s', Outcome.runAll (replayEntry env args) l st = .ok s ∧ replayEntry env args ie s = .ok s'
      ∧ Outcome.runAll (replayEntry env args) (l ++ [ie]) st = .ok s' := by
  unfold replayManifest at hok
  split at hok
  · cases hok
  · rw [horder, Outcome.bind_eq_ok_iff] at hok
    obtain ⟨t, ht, -⟩ := hok
    rw [Outcome.runAll_append, Outcome.bind_eq_ok_iff] at ht
    obtain ⟨s, hs, ht⟩ := ht
    rw [Outcome.runAll_cons, Outcome.bind_eq_ok_iff] at ht
    obtain ⟨s', hs', -⟩ := ht
    refine ⟨s, s', hs, hs', ?_⟩
    rw [Outcome.runAll_append, hs, Outcome.bind_ok, Outcome.runAll_cons, hs']
    rfl

/-- An entry that takes a free name has it. -/
theorem objectAt_of_turn {env : ReplayEnv} {args : ReplayArgs} {st st' s s' : Replay}
    (hok : replayManifest env args st = .ok st') (hempty : st.core.file.ops args.manifest.physicalStep = [])
    {l l' : List (Nat × Entry)} {ie : Nat × Entry} (horder : replayOrder args.manifest.entries = l ++ ie :: l')
    (hs : Outcome.runAll (replayEntry env args) l st = .ok s)
    (hs' : Outcome.runAll (replayEntry env args) (l ++ [ie]) st = .ok s') {path : Path}
    (hfree : ∀ ie' ∈ l, entryName ie'.2.key ≠ some path) {op : FileOp} (hname : op.name = some path)
    (hfile : s'.core.file = s.core.file.append args.manifest.physicalStep op) :
    st'.core.file.objectAt args.manifest.physicalStep path = some op := by
  refine @objectAt_replayManifest _ _ _ _ _ _ l' hok (by rw [horder, List.append_assoc]; rfl) hs' _ _ ?_
  rw [hfile]
  refine StepFile.objectAt_append _ _ ?_ hname
  have hloop := objectAt_loop_of_ne env args hfree st
  rw [hs, Outcome.state_ok] at hloop
  rw [hloop, StepFile.objectAt, hempty]
  rfl

/-! ## Turns -/

/-- Attributes and links have their turn last, in manifest order. -/
theorem pairwise_replayOrder (entries : List Entry) :
    (replayOrder entries).Pairwise fun a b => a.2.kind.late = true → b.2.kind.late = true ∧ a.1 < b.1 := by
  have hindexed : ∀ f : Entry × Nat → Nat × Entry, (∀ ei, (f ei).1 = ei.2) →
      (entries.zipIdx.map f).Pairwise fun a b => a.1 < b.1 := by
    intro f hf
    have hnumbers : (entries.zipIdx.map Prod.snd).Pairwise (· < ·) := by
      rw [List.zipIdx_map_snd]
      exact List.pairwise_lt_range'
    refine List.pairwise_map.mpr ((List.pairwise_map.mp hnumbers).imp ?_)
    intro a b hlt
    rwa [hf, hf]
  have hearly : ∀ (l : List (Nat × Entry)), ∀ a ∈ l.filter (fun ie => !ie.2.kind.late), a.2.kind.late = false := by
    intro l a ha
    simpa using (List.mem_filter.mp ha).2
  unfold replayOrder
  refine List.pairwise_append.mpr ⟨?_, ?_, ?_⟩
  · refine List.Pairwise.imp_of_mem (fun {a b} ha _ _ hlate => ?_) ((hindexed _ fun _ => rfl).filter _)
    rw [hearly _ a ha] at hlate
    cases hlate
  · exact List.Pairwise.imp_of_mem (fun {a b} _ hb hlt _ => ⟨(List.mem_filter.mp hb).2, hlt⟩)
      ((hindexed _ fun _ => rfl).filter _)
  · intro a ha b _ hlate
    rw [hearly _ a ha] at hlate
    cases hlate

theorem mem_replayOrder_iff {entries : List Entry} {ie : Nat × Entry} :
    ie ∈ replayOrder entries ↔ entries[ie.1]? = some ie.2 := by
  refine ⟨getElem?_of_mem_replayOrder, fun h => ?_⟩
  rw [(perm_zipIdx_replayOrder entries).mem_iff, List.mem_map]
  exact ⟨(ie.2, ie.1), List.mem_zipIdx_iff_getElem?.mpr h, rfl⟩

/-- The entries before a link's turn: the creates and writes, and what stands before it. -/
theorem mem_before_link {entries : List Entry} {l l' : List (Nat × Entry)} {ie : Nat × Entry}
    (horder : replayOrder entries = l ++ ie :: l') (hlate : ie.2.kind.late = true) (ie' : Nat × Entry) :
    ie' ∈ l ↔ entries[ie'.1]? = some ie'.2 ∧ (ie'.2.kind.late = false ∨ ie'.1 < ie.1) := by
  have hpair := pairwise_replayOrder entries
  rw [horder, List.pairwise_append, List.pairwise_cons] at hpair
  obtain ⟨-, ⟨hafter, -⟩, hbefore⟩ := hpair
  constructor
  · intro hmem
    refine ⟨mem_replayOrder_iff.mp (by rw [horder]; exact List.mem_append_left _ hmem), ?_⟩
    cases hk : ie'.2.kind.late with
    | false => exact .inl rfl
    | true => exact .inr (hbefore ie' hmem ie List.mem_cons_self hk).2
  · rintro ⟨hget, hfirst⟩
    have hmem : ie' ∈ l ++ ie :: l' := by
      rw [← horder]
      exact mem_replayOrder_iff.mpr hget
    rcases List.mem_append.mp hmem with hmem | hmem
    · exact hmem
    · have hself : ie' = ie ∨ ie' ∈ l' := List.mem_cons.mp hmem
      rcases hself with rfl | hmem
      · rcases hfirst with hk | hlt
        · rw [hlate] at hk
          cases hk
        · omega
      · have hnext := hafter ie' hmem hlate
        rcases hfirst with hk | hlt
        · rw [hnext.1] at hk
          cases hk
        · omega

/-- What resolves at step `n` once the step was appended `c` times. -/
theorem pathIndexResolve_replicate {idx idx' : PathIndex} {path : Path} {c n : Nat}
    (h : (idx' path).steps = (idx path).steps ++ List.replicate c n) :
    pathIndexResolve idx' path n = if c = 0 then pathIndexResolve idx path n else some n := by
  unfold pathIndexResolve
  rw [h, List.reverse_append, List.reverse_replicate, List.find?_append]
  cases c with
  | zero => rfl
  | succ c =>
    rw [List.replicate_succ, List.find?_cons_of_pos (by simp), if_neg (by omega)]
    rfl

/-- The datasets of the step are in its group. -/
theorem dataset_made {env : ReplayEnv} {args : ReplayArgs} {st st' : Replay}
    (hok : replayManifest env args st = .ok st') (hempty : st.core.file.ops args.manifest.physicalStep = [])
    {e : Entry} (he : e ∈ args.manifest.entries) (hk : e.kind = .dsetCreate) :
    ∃ t space dcpl, st'.core.file.objectAt args.manifest.physicalStep e.path
      = some (.datasetCreate e.path t space dcpl) := by
  obtain ⟨i, hi⟩ := List.getElem?_of_mem he
  -- the first create of the path
  obtain ⟨ie, hfind⟩ : ∃ ie, (replayOrder args.manifest.entries).find?
      (fun ie => decide (ie.2.key = (.dsetCreate, e.path))) = some ie := by
    refine Option.isSome_iff_exists.mp (List.find?_isSome.mpr ⟨(i, e), mem_replayOrder_iff.mpr hi, ?_⟩)
    simp [Entry.key, hk]
  rw [List.find?_eq_some_iff_append] at hfind
  obtain ⟨hkey, l, l', horder, hbefore⟩ := hfind
  have hkey : ie.2.key = (.dsetCreate, e.path) := of_decide_eq_true hkey
  have hkind : ie.2.kind = .dsetCreate := congrArg Prod.fst hkey
  have hpath : ie.2.path = e.path := congrArg Prod.snd hkey
  have hfree : ∀ ie' ∈ l, entryName ie'.2.key ≠ some e.path := by
    intro ie' hmem hname
    have hpair := pairwise_replayOrder args.manifest.entries
    rw [horder, List.pairwise_append] at hpair
    have hearly := hpair.2.2 ie' hmem ie List.mem_cons_self
    rw [hkind] at hearly
    have hfirst := hbefore ie' hmem
    unfold entryName Entry.key at hname
    unfold Entry.key at hfirst
    cases hk' : ie'.2.kind with
    | dsetCreate =>
      rw [hk'] at hname hfirst
      simp only [Prod.mk.injEq, true_and, Bool.not_eq_true', decide_eq_false_iff_not] at hfirst
      exact hfirst (Option.some.inj hname)
    | link => exact absurd (hearly (by rw [hk']; rfl)).1 (by decide)
    | attr => exact absurd (hearly (by rw [hk']; rfl)).1 (by decide)
    | dsetWrite =>
      rw [hk'] at hname
      cases hname
    | group =>
      rw [hk'] at hname
      cases hname
  obtain ⟨s, s', hs, hentry, hs'⟩ := turn_of_replayManifest hok horder
  obtain ⟨t, hfile⟩ := made_dataset hentry hkind
  refine ⟨t, ie.2.space, ie.2.dcpl, objectAt_of_turn hok hempty horder hs hs' hfree rfl ?_⟩
  rw [hfile, hpath]

/-- A link whose name is free is in the group, naming its target's copy in the step if that was indexed
before the link's turn, and the copy of an earlier step otherwise. -/
theorem link_made {env : ReplayEnv} {args : ReplayArgs} {st st' : Replay}
    (hok : replayManifest env args st = .ok st') (hempty : st.core.file.ops args.manifest.physicalStep = [])
    {i : Nat} {e : Entry} (he : args.manifest.entries[i]? = some e) (hk : e.kind = .link) {hard : Bool}
    {target : Path} (hpayload : args.payload i = .link hard target) (htarget : target ≠ [])
    (hmade : env.fails i .linkCreate = false)
    (hfree : ∀ j e', args.manifest.entries[j]? = some e' → e'.kind.late = false ∨ j < i →
      entryName e'.key ≠ some e.path) :
    ∃ r, st'.core.file.objectAt args.manifest.physicalStep e.path = some (.linkCreate e.path hard r target)
      ∧ ((∃ j e', args.manifest.entries[j]? = some e' ∧ e'.kind.indexed = true ∧ e'.path = target
          ∧ (e'.kind.late = false ∨ j ≤ i)) → r = some args.manifest.physicalStep)
      ∧ ((∀ j e', args.manifest.entries[j]? = some e' → e'.kind.indexed = true → e'.path = target →
          e'.kind.late = true ∧ i < j) → r = pathIndexResolve st.core.pathIndex target args.manifest.physicalStep) := by
  have hmem : (i, e) ∈ replayOrder args.manifest.entries := mem_replayOrder_iff.mpr he
  obtain ⟨l, l', horder⟩ := List.append_of_mem hmem
  have hlate : e.kind.late = true := by
    rw [hk]
    rfl
  have hbefore := mem_before_link horder hlate
  obtain ⟨s, s', hs, hentry, hs'⟩ := turn_of_replayManifest hok horder
  have hfile := made_link hentry hk hpayload htarget hmade
  refine ⟨_, objectAt_of_turn hok hempty horder hs hs' (fun ie' hmem => ?_) rfl hfile, ?_⟩
  · obtain ⟨hget, hfirst⟩ := (hbefore ie').mp hmem
    exact hfree ie'.1 ie'.2 hget hfirst
  -- the target's list when the link has its turn
  obtain ⟨c, hsteps, hc⟩ := steps_loop env args (l ++ [(i, e)]) st target
  rw [hs', Outcome.state_ok] at hsteps
  rw [hs', Outcome.isOk_ok] at hc
  have hc := hc rfl
  have hidx : (indexEntry s.core.pathIndex args.manifest.physicalStep e.kind e.path target).steps
      = (st.core.pathIndex target).steps ++ List.replicate c args.manifest.physicalStep := by
    rw [← hsteps]
    rcases replayEntry_core env args (i, e) s with ⟨-, hfail⟩ | ⟨r, ops, links, -, -, -, hcore⟩
    · rw [hentry] at hfail
      cases hfail
    · rw [hentry, Outcome.state_ok] at hcore
      rw [hcore]
  have hcount : c ≠ 0 ↔ ∃ ie' ∈ l ++ [(i, e)], ie'.2.kind.indexed = true ∧ ie'.2.path = target := by
    rw [hc, ← Nat.pos_iff_ne_zero, List.count_pos_iff, indexPaths, List.mem_map]
    simp only [List.mem_filter, List.mem_map, Entry.key]
    constructor
    · rintro ⟨key, ⟨⟨ie', hmem, rfl⟩, hindexed⟩, rfl⟩
      exact ⟨ie', hmem, hindexed, rfl⟩
    · rintro ⟨ie', hmem, hindexed, hpath⟩
      exact ⟨_, ⟨⟨ie', hmem, rfl⟩, hindexed⟩, hpath⟩
  rw [pathIndexResolve_replicate hidx]
  refine ⟨?_, ?_⟩
  · rintro ⟨j, e', hget, hindexed, hpath, hfirst⟩
    refine if_neg (hcount.mpr ⟨(j, e'), ?_, hindexed, hpath⟩)
    by_cases hji : j = i
    · subst hji
      rw [he] at hget
      rw [Option.some.inj hget]
      exact List.mem_append_right _ List.mem_cons_self
    · refine List.mem_append_left _ ((hbefore (j, e')).mpr ⟨hget, ?_⟩)
      rcases hfirst with hk' | hle
      · exact .inl hk'
      · exact .inr (by show j < i; omega)
  · intro hnone
    refine if_pos (not_not.mp fun hne => ?_)
    obtain ⟨ie', hmem, hindexed, hpath⟩ := hcount.mp hne
    rcases List.mem_append.mp hmem with hmem | hmem
    · obtain ⟨hget, hfirst⟩ := (hbefore ie').mp hmem
      have hlater := hnone ie'.1 ie'.2 hget hindexed hpath
      rcases hfirst with hk' | hlt
      · rw [hlater.1] at hk'
        cases hk'
      · exact absurd (show ie'.1 < i from hlt) (by omega)
    · rw [List.mem_singleton.mp hmem] at hindexed hpath
      have hlater := hnone i e he hindexed hpath
      omega

/-! ## The links afterwards -/

/-- A link that was made and noted is remembered, if the step links its path once. -/
theorem link_noted {env : ReplayEnv} {args : ReplayArgs} {st st' : Replay}
    (hok : replayManifest env args st = .ok st') {i : Nat} {e : Entry} (he : args.manifest.entries[i]? = some e)
    (hk : e.kind = .link) {hard : Bool} {target : Path} (hpayload : args.payload i = .link hard target)
    (htarget : target ≠ []) (hmade : env.fails i .linkCreate = false) (hnote : env.fails i .linkNote = false)
    (honce : ∀ j e', args.manifest.entries[j]? = some e' → e'.kind = .link → e'.path = e.path → j = i) :
    st'.core.links.find? e.path = some ⟨target, hard⟩ := by
  have hmem : (i, e) ∈ replayOrder args.manifest.entries := mem_replayOrder_iff.mpr he
  obtain ⟨l, l', horder⟩ := List.append_of_mem hmem
  obtain ⟨s, s', -, hentry, hs'⟩ := turn_of_replayManifest hok horder
  have hturn : s'.core.links.find? e.path = some ⟨target, hard⟩ := by
    rw [links_replayEntry hentry]
    simp only [notedLinks, hk, hpayload]
    rw [if_neg (by simp [htarget, hmade, hnote]), Table.find?_set, if_pos rfl]
  -- every link of the step keeps it, the link itself included
  have hkeep : ∀ ie ∈ l', ∀ r : Replay, r.core.links.find? e.path = some ⟨target, hard⟩ →
      (replayEntry env args ie r).state.core.links.find? e.path = some ⟨target, hard⟩ := by
    intro ie hie r hr
    have hget := mem_replayOrder_iff.mp
      (by rw [horder]; exact List.mem_append_right _ (List.mem_cons_of_mem _ hie) : ie ∈ replayOrder args.manifest.entries)
    refine links_entry_rule (P := fun links => links.find? e.path = some ⟨target, hard⟩) env args ?_ r hr
    intro hard' target' hkind' hpayload' links hlinks
    rw [Table.find?_set]
    split
    · rename_i hpath
      rw [honce ie.1 ie.2 hget hkind' hpath, hpayload] at hpayload'
      cases hpayload'
      rfl
    · exact hlinks
  unfold replayManifest at hok
  split at hok
  · cases hok
  · rw [show replayOrder args.manifest.entries = (l ++ [(i, e)]) ++ l' from by rw [horder, List.append_assoc]; rfl,
      Outcome.runAll_append, hs', Outcome.bind_ok, Outcome.bind_eq_ok_iff] at hok
    obtain ⟨t, ht, hok⟩ := hok
    have hloop := Outcome.state_runAll (P := fun r : Replay => r.core.links.find? e.path = some ⟨target, hard⟩) hkeep hturn
    rw [ht, Outcome.state_ok] at hloop
    obtain ⟨-, ops, -, hcarry⟩ := applied_carryForwardResized env args.manifest t
    rw [persist_eq] at hok
    split at hok
    · cases hok
    · cases hok
      rw [hcarry]
      exact hloop

/-- The entry's link, if it is one, is the one already remembered, or is not noted. -/
def linkHeld (env : ReplayEnv) (args : ReplayArgs) (links : Table Path LinkRec) (ie : Nat × Entry) : Prop :=
  ∀ hard target, ie.2.kind = .link → args.payload ie.1 = .link hard target → env.fails ie.1 .linkCreate = false →
    env.fails ie.1 .linkNote = false → target ≠ [] → links.find? ie.2.path = some ⟨target, hard⟩

theorem notedLinks_of_held {env : ReplayEnv} {args : ReplayArgs} {fs : Core} {ie : Nat × Entry}
    (h : linkHeld env args fs.links ie) : notedLinks env args ie fs = fs.links := by
  unfold notedLinks
  split
  · rename_i hard target hkind hpayload
    split
    · rfl
    · rename_i hnoted
      simp only [not_or, Bool.not_eq_true] at hnoted
      exact Table.set_of_find? (h hard target hkind hpayload hnoted.2.1 hnoted.2.2 hnoted.1)
  · rfl

theorem links_held_loop {env : ReplayEnv} {args : ReplayArgs} {idx : PathIndex} {l : List (Nat × Entry)} {st : Replay}
    (hidx : Appended args.manifest.physicalStep idx st.core.pathIndex)
    (h : ∀ ie ∈ reached env args idx st.core.replayTypeCache l, linkHeld env args st.core.links ie) :
    (Outcome.runAll (replayEntry env args) l st).state.core.links = st.core.links := by
  induction l generalizing st with
  | nil => rfl
  | cons ie l ih =>
    have hentry : (replayEntry env args ie st).state.core.links = st.core.links := by
      rcases replayEntry_core env args ie st with ⟨hcore, -⟩ | ⟨r, ops, links, -, -, hlinks, hcore⟩
      · rw [hcore]
      · rw [hcore]
        rcases hlinks with rfl | rfl
        · rfl
        · exact notedLinks_of_held (h ie List.mem_cons_self)
    have happended := appended_replayEntry env args ie st
    have hok : (replayEntry env args ie st).isOk = _ := isOk_replayEntry hidx
    rw [Outcome.runAll_cons]
    cases hrun : replayEntry env args ie st with
    | fail st' =>
      rw [hrun] at hentry
      exact hentry
    | ok st' =>
      rw [hrun, Outcome.state_ok] at hentry happended
      rw [hrun, Outcome.isOk_ok] at hok
      have hgo : entryStops env args idx st.core.replayTypeCache ie = false := by
        simpa using hok.symm
      obtain ⟨t, ht⟩ := replayEntry_eq_ok hrun
      obtain ⟨-, ops, -, hcore⟩ := applyEntry_core env args ie t (st.resolved args.manifest.physicalStep ie.2)
      rw [ht, Outcome.state_ok, resolved_core] at hcore
      have htypes : st'.core.replayTypeCache = recordedTypes st.core.replayTypeCache ie.2 := by
        rw [hcore]
      rw [Outcome.bind_ok, ih (hidx.trans happended), hentry]
      intro ie' hie'
      rw [hentry]
      refine h ie' (List.mem_cons_of_mem _ ?_)
      rw [hgo, ← htypes]
      exact hie'

/-- A replay that gets to no new link leaves the links, wherever it stops. -/
theorem links_held {env : ReplayEnv} {args : ReplayArgs} {st : Replay}
    (h : env.startFails = false → ∀ ie ∈ reached env args st.core.pathIndex st.core.replayTypeCache
      (replayOrder args.manifest.entries), linkHeld env args st.core.links ie) :
    (replayManifest env args st).state.core.links = st.core.links := by
  unfold replayManifest
  split
  · rfl
  · rename_i hstart
    have hloop := links_held_loop (.refl _ _) (h (by simpa using hstart))
    cases hrun : Outcome.runAll (replayEntry env args) (replayOrder args.manifest.entries) st with
    | fail st' =>
      rw [hrun] at hloop
      exact hloop
    | ok st' =>
      rw [hrun, Outcome.state_ok] at hloop
      obtain ⟨-, ops, -, hcarry⟩ := applied_carryForwardResized env args.manifest st'
      rw [Outcome.bind_ok, persist_eq]
      split
      · rw [Outcome.state_fail, hcarry]
        exact hloop
      · rw [Outcome.state_ok, hcarry]
        exact hloop

end VolStream
