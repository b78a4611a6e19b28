import VolStream.Writer.Through
import VolStream.Space.Clipping

/-!
# What a carried-forward dataset holds

A step that grows a one-dimensional dataset and writes only what it grew by gets the rest from the
previous copy, after its own writes have landed (`H5VL__stream_carry_forward_resized`). Whether it
wrote only the growth is decided by counting elements. This module gives the calls of a replay their
meaning for the values of one dataset and says when every element the step wrote keeps what was
written (`carryForward_keeps_iff`).
-/

namespace VolStream

open RowMajor

/-! ## The values of a dataset -/

/-- The elements a dataspace selects, by flat index, in the order a packed buffer holds them. -/
def Dataspace.packingOrder (s : Dataspace) : List Nat :=
  match s.sel with
  | .none => []
  | .all => List.range s.extent.npoints
  | .points coords => coords.map (flat (strides s.extent.dims))
  | .hyperslab _ => (List.range s.extent.npoints).filter s.selectsFlat

/-- The values involved in one dataset of a step, in the dataset's own type: its fill value, the elements
of the previous copy, and what a captured payload holds. -/
structure DatasetValues (α : Type) where
  fill : α
  prev : Nat → α
  values : Datatype → Dataspace → Payload → List α
  length_values : ∀ t s p, (values t s p).length = s.packingOrder.length

/-- One write of the step. -/
structure StepWrite where
  type : Datatype
  space : Dataspace
  payload : Payload
deriving DecidableEq, Repr

def StepWrite.op (path : Path) (w : StepWrite) : FileOp := .datasetWrite path w.type w.space w.payload

variable {α : Type}

-- the elements a write covers, each with its value
def DatasetValues.pairs (V : DatasetValues α) (w : StepWrite) : List (Nat × α) :=
  w.space.packingOrder.zip (V.values w.type w.space w.payload)

/-- Assign the values one after another. -/
def writeAll (f : Nat → α) (pairs : List (Nat × α)) : Nat → α :=
  pairs.foldl (fun f p => Function.update f p.1 p.2) f

/-- What a call does to the elements of the dataset at `path`; `old` is the length of the previous copy. -/
def DatasetValues.apply (V : DatasetValues α) (old : Nat) (path : Path) (f : Nat → α) : FileOp → Nat → α
  | .datasetCreate p _ _ _ => if p = path then fun _ => V.fill else f
  | .datasetWrite p t s payload => if p = path then writeAll f (V.pairs ⟨t, s, payload⟩) else f
  | .carryForward p _ => if p = path then fun k => if k < old then V.prev k else f k else f
  | _ => f

/-- The elements of the dataset at `path` after the calls `ops` on its step. -/
def DatasetValues.contents (V : DatasetValues α) (old : Nat) (path : Path) (ops : List FileOp) : Nat → α :=
  ops.foldl (V.apply old path) fun _ => V.fill

-- a dataset starts with no writes
def noteWrite (path : Path) (ws : List StepWrite) : FileOp → List StepWrite
  | .datasetCreate p _ _ _ => if p = path then [] else ws
  | .datasetWrite p t s payload => if p = path then ws ++ [⟨t, s, payload⟩] else ws
  | _ => ws

/-- The writes of the dataset at `path` since it was created. -/
def stepWrites (path : Path) (ops : List FileOp) : List StepWrite := ops.foldl (noteWrite path) []

/-- The value of the last write covering element `k`. -/
def DatasetValues.lastWritten (V : DatasetValues α) (ws : List StepWrite) (k : Nat) : Option α :=
  ((ws.flatMap V.pairs).reverse.find? (·.1 = k)).map (·.2)

/-- Every element the step wrote holds the value of the last write covering it, and every other one the
previous copy's value or the fill value. -/
def DatasetValues.Keeps (V : DatasetValues α) (new old : Nat) (path : Path) (ops : List FileOp) : Prop :=
  ∀ k, k < new →
    match V.lastWritten (stepWrites path ops) k with
    | some v => V.contents old path ops k = v
    | none => (k < old ∧ V.contents old path ops k = V.prev k) ∨ V.contents old path ops k = V.fill

theorem writeAll_eq (f : Nat → α) (pairs : List (Nat × α)) (k : Nat) :
    writeAll f pairs k = ((pairs.reverse.find? (·.1 = k)).map (·.2)).getD (f k) := by
  induction pairs generalizing f with
  | nil => rfl
  | cons p pairs ih =>
    rw [writeAll, List.foldl_cons, ← writeAll, ih, List.reverse_cons, List.find?_append]
    cases pairs.reverse.find? (·.1 = k) with
    | some q => rfl
    | none =>
      by_cases hp : p.1 = k
      · subst hp
        simp
      · simp [hp, Function.update_of_ne (Ne.symm hp)]

theorem writeAll_append (f : Nat → α) (l l' : List (Nat × α)) : writeAll f (l ++ l') = writeAll (writeAll f l) l' :=
  List.foldl_append

/-! ## The calls that touch one dataset -/

/-- The call changes the elements of the dataset at `path`. -/
def FileOp.touches (path : Path) : FileOp → Bool
  | .datasetCreate p _ _ _ => decide (p = path)
  | .datasetWrite p _ _ _ => decide (p = path)
  | .carryForward p _ => decide (p = path)
  | _ => false

theorem DatasetValues.apply_of_not_touches (V : DatasetValues α) (old : Nat) {path : Path} {op : FileOp}
    (h : op.touches path = false) (f : Nat → α) : V.apply old path f op = f := by
  cases op <;> first | rfl | (have hne := of_decide_eq_false h; simp only [DatasetValues.apply, if_neg hne])

theorem noteWrite_of_not_touches {path : Path} {op : FileOp} (h : op.touches path = false) (ws : List StepWrite) :
    noteWrite path ws op = ws := by
  cases op <;> first | rfl | (have hne := of_decide_eq_false h; simp only [noteWrite, if_neg hne])

/-- A fold that the other calls leave alone sees only the calls that touch the dataset. -/
theorem foldl_touches {β : Type} {path : Path} {step : β → FileOp → β}
    (hstep : ∀ b op, op.touches path = false → step b op = b) (ops : List FileOp) (b : β) :
    ops.foldl step b = (ops.filter (FileOp.touches path)).foldl step b := by
  induction ops generalizing b with
  | nil => rfl
  | cons op ops ih =>
    rw [List.foldl_cons, ih]
    by_cases h : op.touches path = true
    · rw [List.filter_cons_of_pos h, List.foldl_cons]
    · rw [List.filter_cons_of_neg h, hstep b op (by simpa using h)]

theorem contents_filter (V : DatasetValues α) (old : Nat) (path : Path) (ops : List FileOp) :
    V.contents old path ops = V.contents old path (ops.filter (FileOp.touches path)) :=
  foldl_touches (fun f _ h => V.apply_of_not_touches old h f) ops _

theorem stepWrites_filter (path : Path) (ops : List FileOp) :
    stepWrites path ops = stepWrites path (ops.filter (FileOp.touches path)) :=
  foldl_touches (fun ws _ h => noteWrite_of_not_touches h ws) ops _

/-! ## What replay does to one dataset -/

/-- The calls the replay of one entry makes on the dataset at `path`. -/
def entryCalls (path : Path) (args : ReplayArgs) (ie : Nat × Entry) (t : Datatype) : List FileOp :=
  if ie.2.path = path then
    match ie.2.kind with
    | .dsetCreate => [.datasetCreate path t ie.2.space ie.2.dcpl]
    | .dsetWrite => [.datasetWrite path t ie.2.space (args.payload ie.1)]
    | _ => []
  else []

-- the calls on the dataset at `path` in the group of step `n`
def StepFile.callsOn (file : StepFile) (n : Nat) (path : Path) : List FileOp :=
  (file.ops n).filter (FileOp.touches path)

theorem callsOn_append (file : StepFile) (n : Nat) (path : Path) (op : FileOp) :
    (file.append n op).callsOn n path = file.callsOn n path ++ [op].filter (FileOp.touches path) := by
  rw [StepFile.callsOn, StepFile.ops_append, if_pos rfl, List.filter_append, StepFile.callsOn]

theorem callsOn_appendAll (file : StepFile) (n : Nat) (path : Path) (ops : List FileOp) :
    (file.appendAll n ops).callsOn n path = file.callsOn n path ++ ops.filter (FileOp.touches path) := by
  rw [StepFile.callsOn, StepFile.ops_appendAll, if_pos rfl, List.filter_append, StepFile.callsOn]

/-- An entry that is no dataset's makes no call on one. -/
theorem not_touches_of {n : Nat} {idx : PathIndex} {payload : Payload} {e : Entry} {op : FileOp} {path : Path}
    (h : FileOp.Of n idx payload e op) (hcreate : e.kind ≠ .dsetCreate) (hwrite : e.kind ≠ .dsetWrite) :
    op.touches path = false := by
  cases h with
  | datasetCreate t hk => exact absurd hk hcreate
  | datasetWrite t hk => exact absurd hk hwrite
  | aliasCreate => rfl
  | groupCreate => rfl
  | attrCreate => rfl
  | attrWrite => rfl
  | linkCreate => rfl

/-- One entry replayed. -/
theorem replayEntry_calls {env : ReplayEnv} {args : ReplayArgs} {ie : Nat × Entry} {st st' : Replay}
    (h : replayEntry env args ie st = .ok st') (path : Path) :
    ∃ t, st'.core.file.callsOn args.manifest.physicalStep path
      = st.core.file.callsOn args.manifest.physicalStep path ++ entryCalls path args ie t := by
  rw [replayEntry, Outcome.bind_eq_ok_iff] at h
  obtain ⟨st₁, hres, h⟩ := h
  have hfile : st₁.core.file = st.core.file := by
    rcases resolveEntry_cases env args ie.1 ie.2 st with ⟨hr, -⟩ | ⟨hr, -⟩ | ⟨hr, -⟩ | ⟨hr, -⟩ | hr
    · rw [hr] at hres; cases hres
    · rw [hr] at hres; cases hres
    · rw [hr] at hres; cases hres
    · rw [hr] at hres; cases hres
    · rw [hr] at hres
      cases hres
      rw [resolved_core]
  split at h
  · cases h
  · rename_i t _
    refine ⟨t, ?_⟩
    rw [← hfile]
    by_cases hcreate : ie.2.kind = .dsetCreate
    · simp only [applyEntry, hcreate] at h
      split at h
      · cases h
      · cases h
        rw [Replay.wire_core, Replay.logOp, callsOn_append, entryCalls, hcreate]
        by_cases hpath : ie.2.path = path
        · simp [hpath, FileOp.touches]
        · simp [hpath, FileOp.touches]
    · by_cases hwrite : ie.2.kind = .dsetWrite
      · simp only [applyEntry, hwrite] at h
        split at h
        · cases h
        · split at h
          · cases h
          · split at h
            · cases h
            · cases h
              rw [Replay.logOp, callsOn_append, entryCalls, hwrite]
              by_cases hpath : ie.2.path = path
              · simp [hpath, FileOp.touches]
              · simp [hpath, FileOp.touches]
      · obtain ⟨ops, hops, hlog, -⟩ := logged_applyEntry env args ie t st₁
        rw [h] at hlog
        have hnone : ops.filter (FileOp.touches path) = [] := by
          rw [List.filter_eq_nil_iff]
          intro op hop
          rw [not_touches_of (hops op hop) hcreate hwrite]
          decide
        have hcalls : entryCalls path args ie t = [] := by
          unfold entryCalls
          split
          · cases hk : ie.2.kind with
            | dsetCreate => exact absurd hk hcreate
            | dsetWrite => exact absurd hk hwrite
            | attr => rfl
            | group => rfl
            | link => rfl
          · rfl
        rw [show st'.core.file = _ from hlog, callsOn_appendAll, hnone, hcalls]

-- a create or a write of the dataset at `path`
def onDataset (path : Path) (ie : Nat × Entry) : Bool :=
  decide (ie.2.path = path ∧ (ie.2.kind = .dsetCreate ∨ ie.2.kind = .dsetWrite))

theorem entryCalls_cases (path : Path) (args : ReplayArgs) (ie : Nat × Entry) (t : Datatype) :
    (onDataset path ie = false ∧ entryCalls path args ie t = []) ∨
      (onDataset path ie = true ∧ ∃ op, entryCalls path args ie t = [op]) := by
  unfold onDataset entryCalls
  by_cases hpath : ie.2.path = path
  · cases hk : ie.2.kind <;> simp [hpath]
  · simp [hpath]

/-- The loop over the entries makes one call for each create and write of the dataset, in order. -/
theorem replayEntries_calls {env : ReplayEnv} {args : ReplayArgs} (path : Path) {l : List (Nat × Entry)}
    {st st' : Replay} (h : Outcome.runAll (replayEntry env args) l st = .ok st') :
    ∃ ops, st'.core.file.callsOn args.manifest.physicalStep path
        = st.core.file.callsOn args.manifest.physicalStep path ++ ops ∧
      List.Forall₂ (fun ie op => ∃ t, entryCalls path args ie t = [op]) (l.filter (onDataset path)) ops := by
  induction l generalizing st with
  | nil =>
    cases h
    exact ⟨[], (List.append_nil _).symm, .nil⟩
  | cons ie l ih =>
    rw [Outcome.runAll_cons, Outcome.bind_eq_ok_iff] at h
    obtain ⟨st₁, hentry, hrest⟩ := h
    obtain ⟨t, hcalls⟩ := replayEntry_calls hentry path
    obtain ⟨ops, hops, hrel⟩ := ih hrest
    rw [hcalls] at hops
    rcases entryCalls_cases path args ie t with ⟨hoff, hnone⟩ | ⟨hon, op, hop⟩
    · rw [hnone, List.append_nil] at hops
      exact ⟨ops, hops, by rwa [List.filter_cons_of_neg (by rw [hoff]; decide)]⟩
    · rw [hop, List.append_assoc, List.singleton_append] at hops
      refine ⟨op :: ops, hops, ?_⟩
      rw [List.filter_cons_of_pos hon]
      exact .cons ⟨t, hop⟩ hrel

/-- What a completed replay of an entry says of it. -/
theorem replayEntry_made {env : ReplayEnv} {args : ReplayArgs} {ie : Nat × Entry} {st : Replay}
    (h : (replayEntry env args ie st).isOk = true) :
    (ie.2.kind = .dsetCreate → env.fails ie.1 .create = false) ∧
      (ie.2.kind = .dsetWrite → createdBefore args.manifest.entries ie.1 ie.2.path = true) := by
  rw [replayEntry, Outcome.isOk_bind, Bool.and_eq_true] at h
  have h := h.2
  split at h
  · cases h
  · refine ⟨fun hk => ?_, fun hk => ?_⟩
    · simp only [applyEntry, hk] at h
      split at h
      · cases h
      · rename_i hfails
        simp only [Bool.or_eq_true, not_or, Bool.not_eq_true] at hfails
        exact hfails.2
    · simp only [applyEntry, hk] at h
      split at h
      · cases h
      · rename_i hbefore
        simp only [Bool.or_eq_true, Bool.not_eq_true', not_or, Bool.not_eq_false, Bool.not_eq_true] at hbefore
        exact hbefore.1

/-! ## The dataset's own entries -/

-- the entries with their manifest positions
def indexed (entries : List Entry) : List (Nat × Entry) := entries.zipIdx.map fun (e, i) => (i, e)

/-- The writes of the dataset at `path`, in manifest order. -/
def writesOf (path : Path) (entries : List Entry) : List (Nat × Entry) :=
  (indexed entries).filter fun ie => decide (ie.2.kind = .dsetWrite ∧ ie.2.path = path)

theorem mem_indexed {entries : List Entry} {ie : Nat × Entry} : ie ∈ indexed entries ↔ entries[ie.1]? = some ie.2 := by
  unfold indexed
  rw [List.mem_map]
  constructor
  · rintro ⟨⟨e, i⟩, hmem, rfl⟩
    exact List.mem_zipIdx_iff_getElem?.mp hmem
  · intro h
    exact ⟨(ie.2, ie.1), List.mem_zipIdx_iff_getElem?.mpr h, rfl⟩

theorem filter_replayOrder (path : Path) (entries : List Entry) :
    (replayOrder entries).filter (onDataset path) = (indexed entries).filter (onDataset path) := by
  unfold replayOrder
  simp only
  rw [List.filter_append, List.filter_filter, List.filter_filter]
  have hlate : ∀ ie : Nat × Entry, onDataset path ie = true → ie.2.kind.late = false := by
    intro ie h
    rcases (of_decide_eq_true h).2 with hk | hk <;> rw [hk] <;> rfl
  have hnone : (entries.zipIdx.map fun (e, i) => (i, e)).filter
      (fun ie => onDataset path ie && ie.2.kind.late) = [] := by
    rw [List.filter_eq_nil_iff]
    intro ie _ h
    rw [Bool.and_eq_true] at h
    rw [hlate ie h.1] at h
    exact absurd h.2 (by decide)
  rw [hnone, List.append_nil, indexed]
  apply List.filter_congr
  intro ie _
  cases hon : onDataset path ie with
  | false => rfl
  | true => rw [hlate ie hon]; rfl

/-- The entries before and after one of them. -/
theorem indexed_split {entries : List Entry} {i : Nat} {e : Entry} (he : entries[i]? = some e) :
    ∃ before after, indexed entries = before ++ (i, e) :: after ∧ (∀ ie ∈ before, ie.1 < i) ∧
      ∀ ie ∈ after, i < ie.1 := by
  have hi : i < entries.length := (List.getElem?_eq_some_iff.mp he).1
  have hsplit : entries = entries.take i ++ e :: entries.drop (i + 1) := by
    rw [← (List.getElem?_eq_some_iff.mp he).2, ← List.drop_eq_getElem_cons hi, List.take_append_drop]
  refine ⟨indexed (entries.take i), ((entries.drop (i + 1)).zipIdx (i + 1)).map fun (e, i) => (i, e), ?_, ?_, ?_⟩
  · unfold indexed
    conv_lhs => rw [hsplit]
    rw [List.zipIdx_append, List.map_append, List.zipIdx_cons, List.map_cons, List.length_take,
      Nat.min_eq_left (Nat.le_of_lt hi), Nat.zero_add]
  · intro ie hie
    have hget := mem_indexed.mp hie
    rw [List.getElem?_take] at hget
    split at hget
    · assumption
    · cases hget
  · intro ie hie
    obtain ⟨⟨e', j⟩, hz, rfl⟩ := List.mem_map.mp hie
    exact (List.mem_zipIdx hz).1

/-- A dataset created once and written only after that: its create, and then its writes. -/
theorem filter_onDataset {path : Path} {entries : List Entry} {i : Nat} {e : Entry} (he : entries[i]? = some e)
    (hkind : e.kind = .dsetCreate) (hpath : e.path = path)
    (honce : ∀ j e', entries[j]? = some e' → e'.kind = .dsetCreate → e'.path = path → j = i)
    (hafter : ∀ j e', entries[j]? = some e' → e'.kind = .dsetWrite → e'.path = path → createdBefore entries j path = true) :
    (indexed entries).filter (onDataset path) = (i, e) :: writesOf path entries := by
  have hlater : ∀ j e', entries[j]? = some e' → e'.kind = .dsetWrite → e'.path = path → i < j := by
    intro j e' he' hk hp
    obtain ⟨c, hc, hcreate⟩ := List.any_eq_true.mp (hafter j e' he' hk hp)
    obtain ⟨j', hj'⟩ := List.mem_iff_getElem?.mp hc
    rw [List.getElem?_take] at hj'
    split at hj'
    · rename_i hlt
      have hcreate := of_decide_eq_true hcreate
      rw [honce j' c hj' hcreate.1 hcreate.2] at hlt
      exact hlt
    · cases hj'
  obtain ⟨before, after, hidx, hlow, hhigh⟩ := indexed_split he
  -- nothing of the dataset stands before its create
  have hbefore : ∀ ie ∈ before, onDataset path ie = false ∧ ¬(ie.2.kind = .dsetWrite ∧ ie.2.path = path) := by
    intro ie hie
    have hlt := hlow ie hie
    have hget := mem_indexed.mp (hidx ▸ List.mem_append_left _ hie)
    have hwrite : ¬(ie.2.kind = .dsetWrite ∧ ie.2.path = path) := fun h => by
      have := hlater ie.1 ie.2 hget h.1 h.2
      omega
    refine ⟨decide_eq_false ?_, hwrite⟩
    rintro ⟨hp, hc | hw⟩
    · have := honce ie.1 ie.2 hget hc hp
      omega
    · exact hwrite ⟨hw, hp⟩
  have hrest : ∀ ie ∈ after, onDataset path ie = decide (ie.2.kind = .dsetWrite ∧ ie.2.path = path) := by
    intro ie hie
    have hlt := hhigh ie hie
    have hget := mem_indexed.mp (hidx ▸ List.mem_append_right _ (List.mem_cons_of_mem _ hie))
    refine decide_eq_decide.mpr ⟨?_, fun h => ⟨h.2, .inr h.1⟩⟩
    rintro ⟨hp, hc | hw⟩
    · have := honce ie.1 ie.2 hget hc hp
      omega
    · exact ⟨hw, hp⟩
  have hon : onDataset path (i, e) = true := decide_eq_true ⟨hpath, .inl hkind⟩
  have hnot : ¬(e.kind = .dsetWrite ∧ e.path = path) := fun h => by
    rw [hkind] at h
    cases h.1
  have hnoCall : before.filter (onDataset path) = [] := by
    rw [List.filter_eq_nil_iff]
    intro ie hie
    rw [(hbefore ie hie).1]
    decide
  have hnoWrite : before.filter (fun ie => decide (ie.2.kind = .dsetWrite ∧ ie.2.path = path)) = [] := by
    rw [List.filter_eq_nil_iff]
    intro ie hie
    simpa using (hbefore ie hie).2
  rw [writesOf, hidx, List.filter_append, List.filter_append, List.filter_cons_of_pos hon,
    List.filter_cons_of_neg (by simpa using hnot), hnoCall, hnoWrite, List.filter_congr hrest]
  rfl

/-! ## The whole replay -/

/-- The entries of a step leave what the path resolved to before it. -/
theorem resolve_replayEntries {env : ReplayEnv} {args : ReplayArgs} {l : List (Nat × Entry)} {st : Replay}
    {path : Path} {k : Nat} (hk : k < args.manifest.physicalStep) :
    pathIndexResolve (Outcome.runAll (replayEntry env args) l st).state.core.pathIndex path k
      = pathIndexResolve st.core.pathIndex path k := by
  refine Outcome.state_runAll (P := fun s : Replay => pathIndexResolve s.core.pathIndex path k
    = pathIndexResolve st.core.pathIndex path k) ?_ rfl
  intro ie _ s hs
  rw [← hs]
  rcases replayEntry_core env args ie s with ⟨hcore, -⟩ | ⟨r, ops, links, -, -, -, hcore⟩
  · rw [hcore]
  · rw [hcore]
    show ((indexEntry s.core.pathIndex args.manifest.physicalStep ie.2.kind ie.2.path path).steps.reverse.find? _) = _
    rw [steps_indexEntry]
    split
    · -- the step's own number lies past `k`
      rw [List.reverse_append, List.reverse_singleton, List.singleton_append,
        List.find?_cons_of_neg (by simpa using hk)]
      rfl
    · rfl

/-- The previous copy of the dataset that entry `i` creates is carried forward. -/
def CarriesForward (env : ReplayEnv) (m : Step) (idx : PathIndex) (i : Nat) (path : Path) (new old : Nat) : Prop :=
  m.physicalStep ≠ 0 ∧ (pathIndexResolve idx path (m.physicalStep - 1)).isSome ∧ env.prevExtent i = some [old] ∧
    old < new ∧ writtenTotal m.entries path = new - old ∧ env.carryFails i = false

theorem carryForwardOne_calls_other {env : ReplayEnv} {m : Step} {ie : Nat × Entry} {path : Path}
    (h : ¬(ie.2.kind = .dsetCreate ∧ ie.2.path = path)) (st : Replay) :
    (carryForwardOne env m st ie).core.file.callsOn m.physicalStep path
      = st.core.file.callsOn m.physicalStep path := by
  unfold carryForwardOne
  split
  · rfl
  · rename_i hguard
    split
    · split
      · rfl
      · have hne : ie.2.path ≠ path := fun hp => h ⟨by
          rw [not_or, not_not] at hguard
          exact hguard.2, hp⟩
        rw [Replay.logOp, callsOn_append]
        simp [FileOp.touches, hne]
    · rfl

theorem carryForwardOne_calls {env : ReplayEnv} {m : Step} {i new old : Nat} {e : Entry} {st : Replay}
    (hkind : e.kind = .dsetCreate) (hdims : e.space.extent = .simple [new])
    (hold : ∀ d, env.prevExtent i = some [d] → d = old) :
    (CarriesForward env m st.core.pathIndex i e.path new old ∧ ∃ prev,
        (carryForwardOne env m st (i, e)).core.file.callsOn m.physicalStep e.path
          = st.core.file.callsOn m.physicalStep e.path ++ [.carryForward e.path prev]) ∨
      (¬CarriesForward env m st.core.pathIndex i e.path new old ∧
        (carryForwardOne env m st (i, e)).core.file.callsOn m.physicalStep e.path
          = st.core.file.callsOn m.physicalStep e.path) := by
  unfold carryForwardOne
  split
  · rename_i hguard
    refine .inr ⟨fun hc => ?_, rfl⟩
    rcases hguard with hzero | hne
    · exact hc.1 hzero
    · exact hne hkind
  · rename_i hguard
    rw [not_or] at hguard
    split
    · rename_i prev new' old' hres hext hprev
      rw [hdims, Extent.simple.injEq, List.cons.injEq] at hext
      obtain rfl : new = new' := hext.1
      obtain rfl := hold old' hprev
      split
      · rename_i hskip
        refine .inr ⟨fun hc => ?_, rfl⟩
        rcases hskip with hle | hne | hfails
        · have := hc.2.2.2.1
          omega
        · exact hne hc.2.2.2.2.1
        · rw [hc.2.2.2.2.2] at hfails
          cases hfails
      · rename_i hgo
        rw [not_or, not_or, not_not, Bool.not_eq_true] at hgo
        refine .inl ⟨⟨hguard.1, ?_, hprev, by omega, hgo.2.1, hgo.2.2⟩, prev, ?_⟩
        · exact Option.isSome_of_eq_some hres
        · rw [Replay.logOp, callsOn_append]
          simp [FileOp.touches]
    · rename_i hnone
      refine .inr ⟨fun hc => ?_, rfl⟩
      obtain ⟨prev, hres⟩ := Option.isSome_iff_exists.mp hc.2.1
      exact hnone prev new old hres hdims hc.2.2.1

theorem carryForward_fold_other {env : ReplayEnv} {m : Step} {path : Path} {l : List (Nat × Entry)}
    (h : ∀ ie ∈ l, ¬(ie.2.kind = .dsetCreate ∧ ie.2.path = path)) (st : Replay) :
    (l.foldl (carryForwardOne env m) st).core.file.callsOn m.physicalStep path
        = st.core.file.callsOn m.physicalStep path ∧
      (l.foldl (carryForwardOne env m) st).core.pathIndex = st.core.pathIndex := by
  induction l generalizing st with
  | nil => exact ⟨rfl, rfl⟩
  | cons ie l ih =>
    obtain ⟨-, ops, -, hcore⟩ := applied_carryForwardOne env m st ie
    obtain ⟨hcalls, hidx⟩ := ih (fun ie' hie' => h ie' (List.mem_cons_of_mem _ hie')) (carryForwardOne env m st ie)
    rw [List.foldl_cons, hcalls, hidx, carryForwardOne_calls_other (h ie List.mem_cons_self), hcore]
    exact ⟨rfl, rfl⟩

/-- The calls the writes of a dataset make. -/
theorem calls_of_writes {path : Path} {args : ReplayArgs} {l : List (Nat × Entry)} {ops : List FileOp}
    (h : List.Forall₂ (fun ie op => ∃ t, entryCalls path args ie t = [op]) l ops)
    (hall : ∀ ie ∈ l, ie.2.kind = .dsetWrite ∧ ie.2.path = path) :
    ∃ ws : List StepWrite, ops = ws.map (StepWrite.op path) ∧
      ws.map (fun w => (w.space, w.payload)) = l.map (fun ie => (ie.2.space, args.payload ie.1)) := by
  induction h with
  | nil => exact ⟨[], rfl, rfl⟩
  | @cons ie op l ops hop _ ih =>
    obtain ⟨ws, rfl, hws⟩ := ih fun ie' hie' => hall ie' (List.mem_cons_of_mem _ hie')
    obtain ⟨t, ht⟩ := hop
    obtain ⟨hk, hp⟩ := hall ie List.mem_cons_self
    rw [entryCalls, if_pos hp, hk] at ht
    simp only [List.cons.injEq, and_true] at ht
    refine ⟨⟨t, ie.2.space, args.payload ie.1⟩ :: ws, ?_, ?_⟩
    · rw [← ht]
      rfl
    · rw [List.map_cons, hws]
      rfl

/-- HDF5 refuses to create a second object of one name. -/
def CreatesOnce (env : ReplayEnv) (entries : List Entry) : Prop :=
  ∀ i j e e', i < j → entries[i]? = some e → entries[j]? = some e' → e.kind = .dsetCreate → e'.kind = .dsetCreate →
    e.path = e'.path → env.fails j .create = true

/-- The calls a completed replay makes on a dataset of its step: its create, its writes in manifest order, and
the carry-forward when there is one. -/
theorem replayManifest_calls {env : ReplayEnv} {args : ReplayArgs} {st st' : Replay}
    (hok : replayManifest env args st = .ok st') (hcreates : CreatesOnce env args.manifest.entries) {i new old : Nat}
    {e : Entry} (he : args.manifest.entries[i]? = some e) (hkind : e.kind = .dsetCreate)
    (hdims : e.space.extent = .simple [new]) (hold : ∀ d, env.prevExtent i = some [d] → d = old) :
    ∃ (t : Datatype) (ws : List StepWrite) (carry : List FileOp), st'.core.file.callsOn args.manifest.physicalStep e.path
        = st.core.file.callsOn args.manifest.physicalStep e.path ++
          (.datasetCreate e.path t e.space e.dcpl :: ws.map (StepWrite.op e.path) ++ carry) ∧
      ws.map (fun w => (w.space, w.payload))
        = (writesOf e.path args.manifest.entries).map (fun ie => (ie.2.space, args.payload ie.1)) ∧
      ((CarriesForward env args.manifest st.core.pathIndex i e.path new old ∧
          ∃ prev, carry = [.carryForward e.path prev]) ∨
        (¬CarriesForward env args.manifest st.core.pathIndex i e.path new old ∧ carry = [])) := by
  rw [replayManifest] at hok
  split at hok
  · cases hok
  · obtain ⟨st₁, hrun, hpersist⟩ := Outcome.bind_eq_ok_iff.mp hok
    have hmade : ∀ j e', args.manifest.entries[j]? = some e' → onDataset e.path (j, e') = true →
        (e'.kind = .dsetCreate → env.fails j .create = false) ∧
          (e'.kind = .dsetWrite → createdBefore args.manifest.entries j e'.path = true) := by
      intro j e' he' hon
      have hmem : (j, e') ∈ (replayOrder args.manifest.entries).filter (onDataset e.path) := by
        rw [filter_replayOrder]
        exact List.mem_filter.mpr ⟨mem_indexed.mpr he', hon⟩
      obtain ⟨s, hs⟩ := Outcome.isOk_of_runAll hrun (List.mem_filter.mp hmem).1
      exact replayEntry_made hs
    have honce : ∀ j e', args.manifest.entries[j]? = some e' → e'.kind = .dsetCreate → e'.path = e.path → j = i := by
      intro j e' he' hk hp
      rcases Nat.lt_trichotomy i j with hlt | heq | hgt
      · have := hcreates i j e e' hlt he he' hkind hk hp.symm
        rw [(hmade j e' he' (decide_eq_true ⟨hp, .inl hk⟩)).1 hk] at this
        cases this
      · exact heq.symm
      · have := hcreates j i e' e hgt he' he hk hkind hp
        rw [(hmade i e he (decide_eq_true ⟨rfl, .inl hkind⟩)).1 hkind] at this
        cases this
    have hafter : ∀ j e', args.manifest.entries[j]? = some e' → e'.kind = .dsetWrite → e'.path = e.path →
        createdBefore args.manifest.entries j e.path = true := by
      intro j e' he' hk hp
      have := (hmade j e' he' (decide_eq_true ⟨hp, .inr hk⟩)).2 hk
      rwa [hp] at this
    -- the loop over the entries
    obtain ⟨ops, hcalls, hrel⟩ := replayEntries_calls e.path hrun
    rw [filter_replayOrder, filter_onDataset he hkind rfl honce hafter] at hrel
    obtain ⟨op, ops', ⟨t, ht⟩, hwrites, rfl⟩ := List.forall₂_cons_left_iff.mp hrel
    rw [entryCalls, if_pos rfl, hkind] at ht
    simp only [List.cons.injEq, and_true] at ht
    subst ht
    obtain ⟨ws, rfl, hws⟩ := calls_of_writes hwrites fun ie hie => of_decide_eq_true (List.mem_filter.mp hie).2
    -- the pass over the creates
    obtain ⟨before, after, hidx, hlow, hhigh⟩ := indexed_split he
    have hother : ∀ ie ∈ indexed args.manifest.entries, ie.1 ≠ i → ¬(ie.2.kind = .dsetCreate ∧ ie.2.path = e.path) :=
      fun ie hie hne h => hne (honce ie.1 ie.2 (mem_indexed.mp hie) h.1 h.2)
    have hbefore : ∀ ie ∈ before, ¬(ie.2.kind = .dsetCreate ∧ ie.2.path = e.path) := fun ie hie =>
      hother ie (hidx ▸ List.mem_append_left _ hie) (Nat.ne_of_lt (hlow ie hie))
    have hafter' : ∀ ie ∈ after, ¬(ie.2.kind = .dsetCreate ∧ ie.2.path = e.path) := fun ie hie =>
      hother ie (hidx ▸ List.mem_append_right _ (List.mem_cons_of_mem _ hie)) (Nat.ne_of_gt (hhigh ie hie))
    have hcarry : carryForwardResized env args.manifest st₁ = after.foldl (carryForwardOne env args.manifest)
        (carryForwardOne env args.manifest (before.foldl (carryForwardOne env args.manifest) st₁) (i, e)) := by
      show (indexed args.manifest.entries).foldl _ st₁ = _
      rw [hidx, List.foldl_append, List.foldl_cons]
    have hclosed : st'.core.file.callsOn args.manifest.physicalStep e.path =
        (carryForwardResized env args.manifest st₁).core.file.callsOn args.manifest.physicalStep e.path := by
      rw [persist_eq] at hpersist
      split at hpersist
      · cases hpersist
      · cases hpersist
        have hnone : (env.closing (carryForwardResized env args.manifest st₁).core.config args.manifest).filter
            (FileOp.touches e.path) = [] := by
          rw [List.filter_eq_nil_iff]
          intro op hop
          rcases List.mem_append.mp hop with hop | hop
          · split at hop
            · exact absurd hop List.not_mem_nil
            · rw [List.mem_singleton.mp hop]
              exact Bool.false_ne_true
          · split at hop
            · rw [List.mem_singleton.mp hop]
              exact Bool.false_ne_true
            · exact absurd hop List.not_mem_nil
        rw [callsOn_appendAll, hnone, List.append_nil, StepFile.callsOn, StepFile.ops_ensure]
        rfl
    obtain ⟨hc₁, hidx₁⟩ := @carryForward_fold_other env args.manifest _ _ hbefore st₁
    have hc₂ := (@carryForward_fold_other env args.manifest _ _ hafter' (carryForwardOne env args.manifest
      (before.foldl (carryForwardOne env args.manifest) st₁) (i, e))).1
    have hresolve : CarriesForward env args.manifest (before.foldl (carryForwardOne env args.manifest) st₁).core.pathIndex i
        e.path new old ↔ CarriesForward env args.manifest st.core.pathIndex i e.path new old := by
      have hsame : args.manifest.physicalStep ≠ 0 → pathIndexResolve st₁.core.pathIndex e.path
          (args.manifest.physicalStep - 1) = pathIndexResolve st.core.pathIndex e.path (args.manifest.physicalStep - 1) := by
        intro hn
        have := @resolve_replayEntries env args (replayOrder args.manifest.entries) st e.path
          (args.manifest.physicalStep - 1) (by omega)
        rwa [hrun, Outcome.state_ok] at this
      rw [hidx₁, CarriesForward, CarriesForward]
      refine and_congr_right fun hn => ?_
      rw [hsame hn]
    refine ⟨t, ws, ?_⟩
    rcases @carryForwardOne_calls env args.manifest _ _ _ _
      (before.foldl (carryForwardOne env args.manifest) st₁) hkind hdims hold with
      ⟨hc, prev, hcall⟩ | ⟨hc, hcall⟩
    · refine ⟨[.carryForward e.path prev], ?_, hws, .inl ⟨hresolve.mp hc, prev, rfl⟩⟩
      rw [hclosed, hcarry, hc₂, hcall, hc₁, hcalls, List.append_assoc]
    · refine ⟨[], ?_, hws, .inr ⟨fun h => hc (hresolve.mpr h), rfl⟩⟩
      rw [hclosed, hcarry, hc₂, hcall, hc₁, hcalls, List.append_nil]

/-! ## The values of the dataset -/

theorem foldl_noteWrite (path : Path) (ws ws' : List StepWrite) :
    (ws.map (StepWrite.op path)).foldl (noteWrite path) ws' = ws' ++ ws := by
  induction ws generalizing ws' with
  | nil => simp
  | cons w ws ih => simp [StepWrite.op, noteWrite, ih]

theorem foldl_apply_writes (V : DatasetValues α) (old : Nat) (path : Path) (ws : List StepWrite) (f : Nat → α) :
    (ws.map (StepWrite.op path)).foldl (V.apply old path) f = writeAll f (ws.flatMap V.pairs) := by
  induction ws generalizing f with
  | nil => rfl
  | cons w ws ih =>
    rw [List.map_cons, List.foldl_cons, ih, List.flatMap_cons, writeAll_append]
    simp [StepWrite.op, DatasetValues.apply]

/-- What the step wrote, and the fill value elsewhere. -/
theorem contents_created (V : DatasetValues α) (old : Nat) {path : Path} {ops prior : List FileOp} {t : Datatype}
    {s : Dataspace} {dcpl : Option Bytes} {ws : List StepWrite} {carry : List FileOp}
    (h : ops.filter (FileOp.touches path) =
      prior ++ (.datasetCreate path t s dcpl :: ws.map (StepWrite.op path) ++ carry)) :
    V.contents old path ops = carry.foldl (V.apply old path) fun k => (V.lastWritten ws k).getD V.fill := by
  rw [contents_filter, h, DatasetValues.contents, List.foldl_append, List.foldl_append, List.foldl_cons,
    foldl_apply_writes]
  congr 1
  funext k
  rw [writeAll_eq]
  simp [DatasetValues.apply, DatasetValues.lastWritten]

theorem mem_of_lastWritten {V : DatasetValues α} {ws : List StepWrite} {k : Nat} {v : α}
    (h : V.lastWritten ws k = some v) : ∃ w ∈ ws, k ∈ w.space.packingOrder := by
  obtain ⟨p, hfind, -⟩ := Option.map_eq_some_iff.mp h
  obtain ⟨w, hw, hp⟩ := List.mem_flatMap.mp (List.mem_reverse.mp (List.mem_of_find?_eq_some hfind))
  have hk := List.find?_some hfind
  rw [← of_decide_eq_true hk]
  exact ⟨w, hw, (List.of_mem_zip hp).1⟩

/-- Where every value written is `v`, a covered element was last written `v`. -/
theorem lastWritten_const {V : DatasetValues α} {v : α}
    (hV : ∀ t s p, V.values t s p = List.replicate s.packingOrder.length v) {ws : List StepWrite} {w : StepWrite}
    (hw : w ∈ ws) {k : Nat} (hk : k ∈ w.space.packingOrder) : V.lastWritten ws k = some v := by
  have hpair : (k, v) ∈ V.pairs w := by
    rw [DatasetValues.pairs, hV]
    obtain ⟨i, hi, rfl⟩ := List.mem_iff_getElem.mp hk
    rw [List.mem_iff_getElem]
    exact ⟨i, by simpa using hi, by simp⟩
  have hsome : ((ws.flatMap V.pairs).reverse.find? (·.1 = k)).isSome := by
    rw [List.find?_isSome]
    exact ⟨(k, v), List.mem_reverse.mpr (List.mem_flatMap.mpr ⟨w, hw, hpair⟩), by simp⟩
  obtain ⟨p, hp⟩ := Option.isSome_iff_exists.mp hsome
  obtain ⟨w', -, hmem⟩ := List.mem_flatMap.mp (List.mem_reverse.mp (List.mem_of_find?_eq_some hp))
  rw [DatasetValues.pairs, hV] at hmem
  rw [DatasetValues.lastWritten, hp, Option.map_some, (List.mem_replicate.mp (List.of_mem_zip hmem).2).2]

/-- Replay keeps what a step wrote to a grown dataset exactly when, if the previous copy is carried forward, no
write of the step touches an element the previous copy has. -/
theorem carryForward_keeps_iff [Nontrivial α] {env : ReplayEnv} {args : ReplayArgs} {st st' : Replay}
    (hok : replayManifest env args st = .ok st') (hcreates : CreatesOnce env args.manifest.entries) {i new old : Nat}
    {e : Entry} (he : args.manifest.entries[i]? = some e) (hkind : e.kind = .dsetCreate)
    (hdims : e.space.extent = .simple [new]) (hold : ∀ d, env.prevExtent i = some [d] → d = old) :
    (∀ V : DatasetValues α, V.Keeps new old e.path (st'.core.file.ops args.manifest.physicalStep)) ↔
      (CarriesForward env args.manifest st.core.pathIndex i e.path new old →
        ∀ e' ∈ args.manifest.entries, e'.kind = .dsetWrite → e'.path = e.path →
          ∀ k ∈ e'.space.packingOrder, old ≤ k) := by
  obtain ⟨t, ws, carry, hcalls, hws, hcarry⟩ := replayManifest_calls hok hcreates he hkind hdims hold
  have hcontents := fun V : DatasetValues α => contents_created V old hcalls
  have hwrites : stepWrites e.path (st'.core.file.ops args.manifest.physicalStep) = ws := by
    rw [stepWrites_filter]
    show stepWrites e.path (st'.core.file.callsOn _ _) = ws
    rw [hcalls, stepWrites, List.foldl_append, List.foldl_append, List.foldl_cons, foldl_noteWrite]
    rcases hcarry with ⟨-, prev, rfl⟩ | ⟨-, rfl⟩ <;> simp [noteWrite]
  -- the writes replayed and the writes of the manifest cover the same elements
  have hcover : ∀ k, (∃ w ∈ ws, k ∈ w.space.packingOrder) ↔ ∃ e' ∈ args.manifest.entries,
      e'.kind = .dsetWrite ∧ e'.path = e.path ∧ k ∈ e'.space.packingOrder := by
    intro k
    have hspaces : ws.map StepWrite.space = (writesOf e.path args.manifest.entries).map (·.2.space) := by
      have := congrArg (List.map Prod.fst) hws
      simpa [List.map_map, Function.comp_def] using this
    constructor
    · rintro ⟨w, hw, hk⟩
      have hmem : w.space ∈ (writesOf e.path args.manifest.entries).map (·.2.space) :=
        hspaces ▸ List.mem_map_of_mem hw
      obtain ⟨ie, hie, hspace⟩ := List.mem_map.mp hmem
      obtain ⟨hidx, hon⟩ := List.mem_filter.mp hie
      have hon := of_decide_eq_true hon
      exact ⟨ie.2, List.mem_of_getElem? (mem_indexed.mp hidx), hon.1, hon.2, hspace ▸ hk⟩
    · rintro ⟨e', he', hk', hp', hk⟩
      obtain ⟨j, hj⟩ := List.mem_iff_getElem?.mp he'
      have hmem : e'.space ∈ ws.map StepWrite.space := by
        rw [hspaces]
        exact List.mem_map.mpr ⟨(j, e'), List.mem_filter.mpr ⟨mem_indexed.mpr hj, decide_eq_true ⟨hk', hp'⟩⟩, rfl⟩
      obtain ⟨w, hw, hspace⟩ := List.mem_map.mp hmem
      exact ⟨w, hw, hspace ▸ hk⟩
  constructor
  · intro hkeeps hc e' he' hk' hp' k hk
    by_contra hlt
    rcases hcarry with ⟨-, prev, rfl⟩ | ⟨hnot, -⟩
    · obtain ⟨a, b, hab⟩ := exists_pair_ne α
      obtain ⟨w, hw, hkw⟩ := (hcover k).mpr ⟨e', he', hk', hp', hk⟩
      -- every value written is `b`, every value of the previous copy is `a`
      let V : DatasetValues α := ⟨a, fun _ => a, fun _ s _ => List.replicate s.packingOrder.length b,
        fun _ _ _ => List.length_replicate⟩
      have hnew := hc.2.2.2.1
      have hV := hkeeps V k (by omega)
      rw [hwrites, lastWritten_const (V := V) (fun _ _ _ => rfl) hw hkw, hcontents V] at hV
      simp only [List.foldl_cons, List.foldl_nil, DatasetValues.apply, if_true, if_pos (Nat.lt_of_not_le hlt)] at hV
      exact hab hV
    · exact hnot hc
  · intro hcond V k hk
    rw [hwrites, hcontents V]
    rcases hcarry with ⟨hc, prev, rfl⟩ | ⟨-, rfl⟩
    · simp only [List.foldl_cons, List.foldl_nil, DatasetValues.apply, if_true]
      cases hlast : V.lastWritten ws k with
      | none =>
        by_cases hlt : k < old
        · exact .inl ⟨hlt, if_pos hlt⟩
        · exact .inr (if_neg hlt)
      | some v =>
        obtain ⟨e', he', hk', hp', hmem⟩ := (hcover k).mp (mem_of_lastWritten hlast)
        have hge := hcond hc e' he' hk' hp' k hmem
        exact if_neg (by omega)
    · simp only [List.foldl_nil]
      cases hlast : V.lastWritten ws k with
      | none => exact .inr rfl
      | some v => rfl

/-- A dataset of four elements in step 0. -/
def fourBefore : Replay :=
  ⟨{ Core.init ⟨false, false, false, 0⟩ with pathIndex := indexEntry .empty 0 .dsetCreate ['/', 'x'] }, [], []⟩

def byteType : Datatype := ⟨[], 1, .none, false⟩

/-- Step 1 grows it to six elements and writes two of them, `first` and the one after it. -/
def growBy (first : Nat) : ReplayArgs where
  manifest := ⟨1, [], 0, [
    ⟨.dsetCreate, ['/', 'x'], .sent byteType, ⟨.simple [6], .all⟩, none, 0, 0⟩,
    ⟨.dsetWrite, ['/', 'x'], .sent byteType, ⟨.simple [6], .hyperslab [⟨[first], [first + 1]⟩]⟩, none, 0, 2⟩], 2⟩
  payload _ := .bytes [7, 8]
  owned _ := false
  staged := false

-- the previous copy has four elements
def fourEnv : ReplayEnv := { ReplayEnv.quiet with prevExtent := fun _ => some [4] }

theorem growBy_createsOnce (first : Nat) : CreatesOnce fourEnv (growBy first).manifest.entries := by
  intro i j e e' hij he he' hk hk' hp
  match i, j with
  | 0, 1 =>
    cases he'
    cases hk'
  | 0, j + 2 => cases he'
  | i + 1, j + 2 => cases he'

/-- Writing the two new elements keeps them. -/
theorem growBy_tail : CreatesOnce fourEnv (growBy 4).manifest.entries ∧
    ∀ V : DatasetValues Bool, V.Keeps 6 4 ['/', 'x']
      ((replayManifest fourEnv (growBy 4) fourBefore).state.core.file.ops 1) := by
  have hok : replayManifest fourEnv (growBy 4) fourBefore = .ok (replayManifest fourEnv (growBy 4) fourBefore).state := rfl
  refine ⟨growBy_createsOnce 4, (@carryForward_keeps_iff _ _ _ _ _ _ hok (growBy_createsOnce 4) 0 _ 4 _ rfl rfl rfl ?_).mpr ?_⟩
  · rintro d ⟨⟩
    rfl
  · intro _ e' he' hk' _ k hk
    rcases List.mem_cons.mp he' with rfl | he'
    · cases hk'
    · rw [List.mem_singleton.mp he'] at hk
      revert k
      decide

/-- Writing the first two elements, as many as the dataset grew by, loses them to the previous copy's. -/
theorem growBy_head : (replayManifest fourEnv (growBy 0) fourBefore).isOk = true ∧
    ¬∀ V : DatasetValues Bool, V.Keeps 6 4 ['/', 'x']
      ((replayManifest fourEnv (growBy 0) fourBefore).state.core.file.ops 1) := by
  refine ⟨rfl, fun hkeeps => ?_⟩
  have hfirst := hkeeps ⟨false, fun _ => false, fun _ s _ => List.replicate s.packingOrder.length true,
    fun _ _ _ => List.length_replicate⟩ 0 (by decide)
  exact absurd hfirst Bool.false_ne_true

end VolStream
