import VolStream.Writer.State

/-!
# Building and replaying a step's manifest

`H5VL__stream_build_manifest` encodes the pending entries, leaving out a write's datatype when
it is the one last sent for the path. `H5VL__stream_replay_manifest` decodes a manifest and makes
its objects under `/step/<n>`: creates and writes first, then attributes and links, each in
manifest order, stopping at the first failure.

Both update tables of `Core` as they go, so a failure leaves whatever was done before it.
-/

namespace VolStream

/-! ## Encoding -/

/-- Where the encoder fails: encoding an entry's blobs, recording its type, growing the payload
buffer, or finalizing the buffer. -/
structure BuildEnv where
  encodeFails : Nat → Bool
  upsertFails : Nat → Bool
  growFails : Nat → Bool
  finalizeFails : Bool

-- no call fails
def BuildEnv.quiet : BuildEnv := ⟨fun _ => false, fun _ => false, fun _ => false, false⟩

/-- A write's type is omitted when the write cache already holds it for the path. -/
def encodeType (w : TypeCache) (pe : PendingEntry) : TypeEnc :=
  if pe.kind = .dsetWrite ∧ w pe.path = some pe.type then .omitted pe.type else .sent pe.type

/-- The write cache after encoding one entry. -/
def recordType (w : TypeCache) (pe : PendingEntry) : TypeCache :=
  if pe.kind = .dsetWrite ∧ w pe.path ≠ some pe.type then typeCacheUpsert w pe.path pe.type else w

/-- Whether encoding the entry sends a type the cache does not hold. -/
def sendsNewType (w : TypeCache) (pe : PendingEntry) : Bool :=
  pe.kind = .dsetWrite ∧ w pe.path ≠ some pe.type

/-- The entry loop of `H5VL__stream_build_manifest`, from entry `i` at payload offset `off`:
the write cache it leaves, and the entries with the total payload length if it completes. -/
def buildEntries (env : BuildEnv) :
    Nat → Nat → List PendingEntry → TypeCache → TypeCache × Option (List Entry × Nat)
  | _, off, [], w => (w, some ([], off))
  | i, off, pe :: ps, w =>
      if env.encodeFails i then (w, none)
      else if sendsNewType w pe && env.upsertFails i then (w, none)
      else if env.growFails i then (recordType w pe, none)
      else
        let e : Entry := ⟨pe.kind, pe.path, encodeType w pe, pe.space, pe.dcpl, off, pe.payload.len⟩
        match buildEntries env (i + 1) (off + pe.payload.len) ps (recordType w pe) with
        | (w', none) => (w', none)
        | (w', some (es, total)) => (w', some (e :: es, total))

/-- `H5VL__stream_build_manifest`. -/
def buildManifest (env : BuildEnv) (fs : Core) : Core × Option Step :=
  match buildEntries env 0 0 fs.pending fs.writeTypeCache with
  | (w, none) => ({ fs with writeTypeCache := w }, none)
  | (w, some (entries, total)) =>
      ({ fs with writeTypeCache := w },
        if env.finalizeFails then none
        else some ⟨fs.physicalStep, fs.logicalIds, fs.wallTimeNs, entries, total⟩)

-- what the encoder does not look at
theorem buildManifest_file (env : BuildEnv) (fs : Core) (file : StepFile) :
    (buildManifest env { fs with file := file }).2 = (buildManifest env fs).2 := by
  unfold buildManifest
  simp only
  cases buildEntries env 0 0 fs.pending fs.writeTypeCache with
  | mk w res =>
    cases res with
    | none => rfl
    | some pair => rfl

/-! ## Replaying one entry -/

/-- The calls one entry's replay makes that can fail. -/
inductive Call where
  | indexAdd
  | typeDecode
  | cacheUpsert
  | dcplDecode
  | ensureParent
  | create
  | memSpace
  | vlDeserialize
  | write
  | attrProbe
  | aliasCreate
  | attrOnAlias
  | ensureAttrGroup
  | attrCreate
  | attrWrite
  | linkCreate
  | linkNote
deriving DecidableEq, Repr

/-- The environment of one replay: which call of which entry fails, what the previous copy of a
dataset answers for its extent, and which of the closing calls fail. -/
structure ReplayEnv where
  startFails : Bool
  fails : Nat → Call → Bool
  prevExtent : Nat → Option (List Nat)
  carryFails : Nat → Bool
  stepGroupFails : Bool
  manifestCreateFails : Bool
  manifestWriteFails : Bool
  payloadCreateFails : Bool

-- no call fails, and nothing is known of an earlier extent
def ReplayEnv.quiet : ReplayEnv :=
  ⟨false, fun _ _ => false, fun _ => none, fun _ => false, false, false, false, false⟩

/-- What replay works on: the commit state, the entries whose object was handed to an open
placeholder, and the omitted-type lookups made. -/
structure Replay where
  core : Core
  wired : List Nat
  lookups : List TypeLookup

/-- What one replay is given besides its environment: the manifest, each entry's payload, which
entries have an open placeholder, and whether the payloads come from one staged buffer. -/
structure ReplayArgs where
  manifest : Step
  payload : Nat → Payload
  owned : Nat → Bool
  staged : Bool

-- a successful call on the group of the step being replayed
def Replay.logOp (st : Replay) (n : Nat) (op : FileOp) : Replay :=
  { st with core := { st.core with file := st.core.file.append n op } }

def Replay.wire (st : Replay) (i : Nat) (owned : Bool) : Replay :=
  if owned then { st with wired := st.wired ++ [i] } else st

/-- The datatype an entry decodes to. -/
def entryType (r : TypeCache) (e : Entry) : Option Datatype :=
  match e.typeEnc.field with
  | some t => some t
  | none => if e.kind = .dsetWrite then r e.path else none

/-- Look up the omitted type of a write, recording what was found. -/
def lookupOmitted (e : Entry) (st : Replay) : Outcome Replay :=
  match e.kind, e.typeEnc with
  | .dsetWrite, .omitted t =>
      let st := { st with lookups := st.lookups ++ [⟨t, st.core.replayTypeCache e.path⟩] }
      if st.core.replayTypeCache e.path = none then .fail st else .ok st
  | _, _ => .ok st

/-- Index the entry's path, as the reader will. -/
def indexReplayed (env : ReplayEnv) (n i : Nat) (e : Entry) (st : Replay) : Outcome Replay :=
  if e.kind.indexed && env.fails i .indexAdd then .fail st
  else .ok { st with core := { st.core with pathIndex := indexEntry st.core.pathIndex n e.kind e.path } }

/-- Record a sent type in the replay cache. -/
def recordSent (env : ReplayEnv) (i : Nat) (e : Entry) (st : Replay) : Outcome Replay :=
  match e.kind, e.typeEnc with
  | .dsetWrite, .sent t =>
      if env.fails i .cacheUpsert then .fail st
      else .ok { st with core := { st.core with
        replayTypeCache := typeCacheUpsert st.core.replayTypeCache e.path t } }
  | _, _ => .ok st

/-- The entry names bytes outside the staged payload buffer. -/
def ReplayArgs.outOfBounds (args : ReplayArgs) (e : Entry) : Bool :=
  args.staged && decide (0 < e.payloadLen ∧ (e.payloadOff > args.manifest.payloadBytes ∨
    e.payloadLen > args.manifest.payloadBytes - e.payloadOff))

-- a call that fails without touching the state
def Replay.check (fails : Bool) (st : Replay) : Outcome Replay := if fails then .fail st else .ok st

/-- Whether the entry has creation properties to decode, and decoding them fails. -/
def dcplFails (env : ReplayEnv) (i : Nat) (e : Entry) : Bool :=
  (decide (e.kind = .dsetCreate) || decide (e.kind = .attr)) && e.dcpl.isSome && env.fails i .dcplDecode

/-- The first half of an entry's replay: the payload bound, the type, the index, the decodes. -/
def resolveEntry (env : ReplayEnv) (args : ReplayArgs) (i : Nat) (e : Entry) (st : Replay) :
    Outcome Replay :=
  (Replay.check (args.outOfBounds e) st).bind fun st =>
  (lookupOmitted e st).bind fun st =>
  (indexReplayed env args.manifest.physicalStep i e st).bind fun st =>
  (Replay.check (env.fails i .typeDecode) st).bind fun st =>
  (recordSent env i e st).bind fun st =>
  Replay.check (dcplFails env i e) st

/-- Whether an earlier entry of the manifest creates the dataset. -/
def createdBefore (entries : List Entry) (i : Nat) (path : Path) : Bool :=
  (entries.take i).any fun e => e.kind = .dsetCreate ∧ e.path = path

-- `strrchr(path, '@')`: the object an attribute's path belongs to
def attrParent (path : Path) : Option Path :=
  let name := path.reverse.takeWhile (· ≠ '@')
  if name.length = path.length then none else some (path.take (path.length - name.length - 1))

/-- The three attempts to create an attribute: on its parent as it is, on an alias of the
dataset's last copy, on a group made for it. -/
def createAttr (env : ReplayEnv) (n i : Nat) (e : Entry) (t : Datatype) (parent : Path) (st : Replay) :
    Outcome Replay :=
  let made (st : Replay) : Outcome Replay := .ok (st.logOp n (.attrCreate e.path t e.space e.dcpl))
  let onGroup (st : Replay) : Outcome Replay :=
    if env.fails i .ensureAttrGroup then .fail st
    else
      let st := st.logOp n (.groupCreate parent)
      if env.fails i .attrCreate then .fail st else made st
  if !env.fails i .attrProbe then made st
  else match (if n = 0 then none else pathIndexResolve st.core.pathIndex parent (n - 1)) with
    | none => onGroup st
    | some r =>
        if env.fails i .aliasCreate then onGroup st
        else
          let st := st.logOp n (.aliasCreate parent r)
          if env.fails i .attrOnAlias then onGroup st else made st

/-- `H5VL__stream_replay_link`: best effort, remembered when the link was made. -/
def replayLink (env : ReplayEnv) (n i : Nat) (e : Entry) (payload : Payload) (st : Replay) : Replay :=
  match payload with
  | .bytes _ => st
  | .link hard target =>
      if target = [] ∨ env.fails i .linkCreate then st
      else
        let st := st.logOp n (.linkCreate e.path hard (pathIndexResolve st.core.pathIndex target n) target)
        if env.fails i .linkNote then st
        else { st with core := { st.core with links := st.core.links.set e.path ⟨target, hard⟩ } }

/-- The second half of an entry's replay: the object itself. -/
def applyEntry (env : ReplayEnv) (args : ReplayArgs) (i : Nat) (e : Entry) (t : Datatype)
    (st : Replay) : Outcome Replay :=
  let n := args.manifest.physicalStep
  match e.kind with
  | .dsetCreate =>
      if env.fails i .ensureParent || env.fails i .create then .fail st
      else .ok ((st.logOp n (.datasetCreate e.path t e.space e.dcpl)).wire i (args.owned i))
  | .dsetWrite =>
      if !createdBefore args.manifest.entries i e.path || env.fails i .memSpace then .fail st
      else if t.vlKind ≠ .none ∧ env.fails i .vlDeserialize then .fail st
      else if env.fails i .write then .fail st
      else .ok (st.logOp n (.datasetWrite e.path t e.space (args.payload i)))
  | .attr =>
      match attrParent e.path with
      | none => .fail st
      | some parent =>
          (createAttr env n i e t parent st).bind fun st =>
            if e.payloadLen = 0 then .ok (st.wire i (args.owned i))
            else if t.vlKind ≠ .none ∧ 0 < e.space.npoints ∧ env.fails i .vlDeserialize then .fail st
            else if env.fails i .attrWrite then .fail st
            else .ok ((st.logOp n (.attrWrite e.path (args.payload i))).wire i (args.owned i))
  | .link => .ok (replayLink env n i e (args.payload i) st)
  | .group => .ok st

/-- Replay one entry. -/
def replayEntry (env : ReplayEnv) (args : ReplayArgs) (ie : Nat × Entry) (st : Replay) :
    Outcome Replay :=
  (resolveEntry env args ie.1 ie.2 st).bind fun st =>
    match entryType st.core.replayTypeCache ie.2 with
    | none => .fail st
    | some t => applyEntry env args ie.1 ie.2 t st

/-! ## Replaying a manifest -/

def Kind.late : Kind → Bool
  | .attr => true
  | .link => true
  | _ => false

/-- The two passes over the entries, with their manifest positions. -/
def replayOrder (entries : List Entry) : List (Nat × Entry) :=
  let indexed := entries.zipIdx.map fun (e, i) => (i, e)
  indexed.filter (fun ie => !ie.2.kind.late) ++ indexed.filter (fun ie => ie.2.kind.late)

theorem getElem?_of_mem_replayOrder {entries : List Entry} {ie : Nat × Entry} (h : ie ∈ replayOrder entries) :
    entries[ie.1]? = some ie.2 := by
  simp only [replayOrder, List.mem_append, List.mem_filter, List.mem_map, Prod.exists] at h
  have hmem : ∃ a b, (a, b) ∈ entries.zipIdx ∧ (b, a) = ie := by
    rcases h with ⟨h, -⟩ | ⟨h, -⟩ <;> exact h
  obtain ⟨e, i, hzip, rfl⟩ := hmem
  exact List.mem_zipIdx_iff_getElem?.mp hzip

theorem mem_replayOrder {entries : List Entry} {ie : Nat × Entry} (h : ie ∈ replayOrder entries) :
    ie.2 ∈ entries :=
  List.mem_of_getElem? (getElem?_of_mem_replayOrder h)

-- the elements the manifest's writes to a path select in total
def writtenTotal (entries : List Entry) (path : Path) : Nat :=
  ((entries.filter fun e => e.kind = .dsetWrite ∧ e.path = path).map fun e => e.space.npoints).sum

/-- One dataset of `H5VL__stream_carry_forward_resized`: a grown 1-D dataset of which the step
wrote exactly the growth gets the rest from the previous copy. -/
def carryForwardOne (env : ReplayEnv) (m : Step) (st : Replay) (ie : Nat × Entry) : Replay :=
  if m.physicalStep = 0 ∨ ie.2.kind ≠ .dsetCreate then st
  else match pathIndexResolve st.core.pathIndex ie.2.path (m.physicalStep - 1),
      ie.2.space.extent, env.prevExtent ie.1 with
    | some prev, .simple [new], some [old] =>
        if new ≤ old ∨ writtenTotal m.entries ie.2.path ≠ new - old ∨ env.carryFails ie.1 then st
        else st.logOp m.physicalStep (.carryForward ie.2.path prev)
    | _, _, _ => st

def carryForwardResized (env : ReplayEnv) (m : Step) (st : Replay) : Replay :=
  (m.entries.zipIdx.map fun (e, i) => (i, e)).foldl (carryForwardOne env m) st

-- `.manifest`; one that cannot be created or written is left out
def putManifest (env : ReplayEnv) (m : Step) (st : Replay) : Replay :=
  if env.manifestCreateFails then st
  else st.logOp m.physicalStep (.manifest (if env.manifestWriteFails then none else some m))

-- `.payload`, when it is staged
def putPayload (env : ReplayEnv) (m : Step) (st : Replay) : Replay :=
  if st.core.config.stagePayload && !env.payloadCreateFails then
    st.logOp m.physicalStep (.payload m.payloadBytes)
  else st

/-- Persist the manifest and the payload. Only the step group itself is required. -/
def persist (env : ReplayEnv) (m : Step) (st : Replay) : Outcome Replay :=
  if env.stepGroupFails then .fail st
  else
    let st := { st with core := { st.core with file := st.core.file.ensure m.physicalStep } }
    .ok (putPayload env m (putManifest env m st))

/-- `H5VL__stream_replay_manifest`. -/
def replayManifest (env : ReplayEnv) (args : ReplayArgs) (st : Replay) : Outcome Replay :=
  if env.startFails then .fail st
  else
    (Outcome.runAll (replayEntry env args) (replayOrder args.manifest.entries) st).bind fun st =>
      persist env args.manifest (carryForwardResized env args.manifest st)

/-! ## What replay changes

Replay touches four tables of the commit state and nothing else: the links, the path index, the
replay type cache and the file. -/

/-- The commit state with the tables replay works on blanked out. -/
def Core.frame (fs : Core) : Core :=
  { fs with links := [], pathIndex := .empty, replayTypeCache := fun _ => none, file := [] }

@[simp] theorem Replay.logOp_frame (st : Replay) (n : Nat) (op : FileOp) :
    (st.logOp n op).core.frame = st.core.frame := rfl

@[simp] theorem Replay.logOp_lookups (st : Replay) (n : Nat) (op : FileOp) :
    (st.logOp n op).lookups = st.lookups := rfl

@[simp] theorem Replay.logOp_wired (st : Replay) (n : Nat) (op : FileOp) :
    (st.logOp n op).wired = st.wired := rfl

@[simp] theorem Replay.wire_core (st : Replay) (i : Nat) (owned : Bool) :
    (st.wire i owned).core = st.core := by
  unfold Replay.wire
  split <;> rfl

@[simp] theorem Replay.wire_lookups (st : Replay) (i : Nat) (owned : Bool) :
    (st.wire i owned).lookups = st.lookups := by
  unfold Replay.wire
  split <;> rfl

/-- `st'` differs from `st` by calls on the group of step `n` other than its manifest, and by
handles wired. -/
structure Replay.Applied (n : Nat) (st st' : Replay) : Prop where
  lookups : st'.lookups = st.lookups
  core : ∃ ops, (∀ op ∈ ops, op.isManifest = false) ∧
    st'.core = { st.core with file := st.core.file.appendAll n ops }

theorem Replay.Applied.refl (n : Nat) (st : Replay) : st.Applied n st :=
  ⟨rfl, [], List.forall_mem_nil _, rfl⟩

theorem Replay.Applied.trans {n : Nat} {a b c : Replay} (hab : a.Applied n b) (hbc : b.Applied n c) :
    a.Applied n c := by
  obtain ⟨hl, ops, hops, hb⟩ := hab
  obtain ⟨hl', ops', hops', hc⟩ := hbc
  refine ⟨hl'.trans hl, ops ++ ops', ?_, ?_⟩
  · intro op hop
    rcases List.mem_append.mp hop with hop | hop
    · exact hops op hop
    · exact hops' op hop
  · rw [hc, hb, StepFile.appendAll_append]

theorem Replay.applied_logOp (st : Replay) (n : Nat) {op : FileOp} (hop : op.isManifest = false) :
    st.Applied n (st.logOp n op) := by
  refine ⟨rfl, [op], ?_, rfl⟩
  intro op' hop'
  rw [List.mem_singleton.mp hop']
  exact hop

theorem Replay.applied_wire (n : Nat) (st : Replay) (i : Nat) (owned : Bool) :
    st.Applied n (st.wire i owned) :=
  ⟨st.wire_lookups i owned, [], List.forall_mem_nil _, st.wire_core i owned⟩

theorem applied_createAttr (env : ReplayEnv) (n i : Nat) (e : Entry) (t : Datatype) (parent : Path)
    (st : Replay) : st.Applied n (createAttr env n i e t parent st).state := by
  have hmade : ∀ st' : Replay, st'.Applied n (st'.logOp n (.attrCreate e.path t e.space e.dcpl)) :=
    fun st' => st'.applied_logOp n rfl
  -- the last attempt, from whichever state the earlier ones leave
  have hgroup : ∀ st' : Replay, st'.Applied n
      (if env.fails i .ensureAttrGroup then Outcome.fail st'
        else if env.fails i .attrCreate then .fail (st'.logOp n (.groupCreate parent))
        else .ok ((st'.logOp n (.groupCreate parent)).logOp n (.attrCreate e.path t e.space e.dcpl))).state := by
    intro st'
    split
    · exact .refl _ st'
    · split
      · exact st'.applied_logOp n rfl
      · exact (st'.applied_logOp n rfl).trans (hmade _)
  unfold createAttr
  simp only
  split
  · exact hmade st
  · split
    · exact hgroup st
    · split
      · exact hgroup st
      · split
        · exact (st.applied_logOp n rfl).trans (hgroup _)
        · exact (st.applied_logOp n rfl).trans (hmade _)

/-- The links after an entry: a link that was made and noted is remembered. -/
def notedLinks (env : ReplayEnv) (args : ReplayArgs) (ie : Nat × Entry) (fs : Core) : Table Path LinkRec :=
  match ie.2.kind, args.payload ie.1 with
  | .link, .link hard target =>
      if target = [] ∨ env.fails ie.1 .linkCreate ∨ env.fails ie.1 .linkNote then fs.links
      else fs.links.set ie.2.path ⟨target, hard⟩
  | _, _ => fs.links

theorem notedLinks_of_not_link {env : ReplayEnv} {args : ReplayArgs} {ie : Nat × Entry} {fs : Core}
    (h : ie.2.kind ≠ .link) : notedLinks env args ie fs = fs.links := by
  unfold notedLinks
  cases hk : ie.2.kind <;> simp_all

theorem applyEntry_link (env : ReplayEnv) (args : ReplayArgs) {ie : Nat × Entry} (t : Datatype)
    (st : Replay) (hk : ie.2.kind = .link) :
    (applyEntry env args ie.1 ie.2 t st).state.lookups = st.lookups
      ∧ ∃ ops, (∀ op ∈ ops, op.isManifest = false)
        ∧ (applyEntry env args ie.1 ie.2 t st).state.core = { st.core with
            file := st.core.file.appendAll args.manifest.physicalStep ops
            links := notedLinks env args ie st.core } := by
  simp only [applyEntry, notedLinks, hk, replayLink]
  cases hpayload : args.payload ie.1 with
  | bytes b => exact ⟨rfl, [], List.forall_mem_nil _, rfl⟩
  | link hard target =>
    simp only
    by_cases hmade : target = [] ∨ env.fails ie.1 .linkCreate = true
    · rw [if_pos hmade, if_pos (by rcases hmade with h | h <;> simp [h])]
      exact ⟨rfl, [], List.forall_mem_nil _, rfl⟩
    · rw [if_neg hmade]
      rw [not_or] at hmade
      obtain ⟨hlook, ops, hops, hlog⟩ := st.applied_logOp args.manifest.physicalStep
        (show FileOp.isManifest (.linkCreate ie.2.path hard
          (pathIndexResolve st.core.pathIndex target args.manifest.physicalStep) target) = false from rfl)
      cases hnote : env.fails ie.1 .linkNote with
      | true =>
        refine ⟨hlook, ops, hops, ?_⟩
        simp only [or_true, if_true, Outcome.state_ok]
        exact hlog
      | false =>
        refine ⟨hlook, ops, hops, ?_⟩
        simp only [hmade.1, hmade.2, Bool.false_eq_true, or_false, if_false, Outcome.state_ok]
        rw [hlog]

/-- Making an object other than a link works on the file only. -/
theorem applied_applyEntry (env : ReplayEnv) (args : ReplayArgs) {i : Nat} {e : Entry}
    (t : Datatype) (st : Replay) (hk : e.kind ≠ .link) :
    st.Applied args.manifest.physicalStep (applyEntry env args i e t st).state := by
  unfold applyEntry
  simp only
  split
  · split
    · exact .refl _ st
    · exact (st.applied_logOp _ rfl).trans (Replay.applied_wire _ _ _ _)
  · split
    · exact .refl _ st
    · split
      · exact .refl _ st
      · split
        · exact .refl _ st
        · exact st.applied_logOp _ rfl
  · split
    · exact .refl _ st
    · rename_i parent _
      have hattr := applied_createAttr env args.manifest.physicalStep i e t parent st
      cases hcreate : createAttr env args.manifest.physicalStep i e t parent st with
      | fail st' =>
        rw [hcreate] at hattr
        exact hattr
      | ok st' =>
        rw [hcreate] at hattr
        simp only [Outcome.bind_ok, Outcome.state_ok] at hattr ⊢
        refine hattr.trans ?_
        split
        · exact st'.applied_wire _ _ _
        · split
          · exact .refl _ st'
          · split
            · exact .refl _ st'
            · exact (st'.applied_logOp _ rfl).trans (Replay.applied_wire _ _ _ _)
  · rename_i hlink
    exact absurd hlink hk
  · exact .refl _ st

/-- Making an entry's object works on the file and, for a link, the links. -/
theorem applyEntry_core (env : ReplayEnv) (args : ReplayArgs) (ie : Nat × Entry) (t : Datatype)
    (st : Replay) :
    (applyEntry env args ie.1 ie.2 t st).state.lookups = st.lookups
      ∧ ∃ ops, (∀ op ∈ ops, op.isManifest = false)
        ∧ (applyEntry env args ie.1 ie.2 t st).state.core = { st.core with
            file := st.core.file.appendAll args.manifest.physicalStep ops
            links := notedLinks env args ie st.core } := by
  by_cases hk : ie.2.kind = .link
  · exact applyEntry_link env args t st hk
  · obtain ⟨hlook, ops, hops, hcore⟩ := applied_applyEntry env args (i := ie.1) t st hk
    refine ⟨hlook, ops, hops, ?_⟩
    rw [hcore, notedLinks_of_not_link hk]

/-! ### One entry

`resolveEntry` goes through three states: the lookup recorded, the path indexed, the sent type
recorded. It stops in one of them or goes through. -/

/-- The lookup of an omitted type recorded. -/
def Replay.looked (st : Replay) (e : Entry) : Replay :=
  match e.kind, e.typeEnc with
  | .dsetWrite, .omitted t =>
      { st with lookups := st.lookups ++ [⟨t, st.core.replayTypeCache e.path⟩] }
  | _, _ => st

/-- The entry's path indexed. -/
def Replay.indexed (st : Replay) (n : Nat) (e : Entry) : Replay :=
  { st with core := { st.core with pathIndex := indexEntry st.core.pathIndex n e.kind e.path } }

-- the entry sends a type
def sendsType (e : Entry) : Bool := decide (e.kind = .dsetWrite) && e.typeEnc.field.isSome

-- the replay cache after an entry: a type that was sent is recorded
def recordedTypes (r : TypeCache) (e : Entry) : TypeCache :=
  match e.kind, e.typeEnc with
  | .dsetWrite, .sent t => typeCacheUpsert r e.path t
  | _, _ => r

/-- The sent type recorded. -/
def Replay.recorded (st : Replay) (e : Entry) : Replay :=
  { st with core := { st.core with replayTypeCache := recordedTypes st.core.replayTypeCache e } }

/-- The state in which an entry's type, path and blobs are all resolved. -/
def Replay.resolved (st : Replay) (n : Nat) (e : Entry) : Replay :=
  ((st.looked e).indexed n e).recorded e

/-- The write's type was omitted and the replay cache holds none for its path. -/
def typeMissing (e : Entry) (st : Replay) : Prop :=
  e.kind = .dsetWrite ∧ e.typeEnc.field = none ∧ st.core.replayTypeCache e.path = none

theorem lookupOmitted_eq (e : Entry) (st : Replay) :
    (lookupOmitted e st = .fail (st.looked e) ∧ typeMissing e st)
      ∨ lookupOmitted e st = .ok (st.looked e) := by
  unfold lookupOmitted Replay.looked typeMissing
  split
  · rename_i t hkind htype
    simp only
    by_cases hfound : st.core.replayTypeCache e.path = none
    · rw [if_pos hfound]
      exact .inl ⟨rfl, hkind, by rw [htype]; rfl, hfound⟩
    · rw [if_neg hfound]
      exact .inr rfl
  · exact .inr rfl

theorem recordSent_eq (env : ReplayEnv) (i : Nat) (e : Entry) (st : Replay) :
    (recordSent env i e st = .fail st ∧ env.fails i .cacheUpsert)
      ∨ recordSent env i e st = .ok (st.recorded e) := by
  unfold recordSent Replay.recorded recordedTypes
  split
  · cases hfails : env.fails i .cacheUpsert
    · exact .inr rfl
    · exact .inl ⟨rfl, rfl⟩
  · exact .inr rfl

/-- Where resolving an entry can stop, and why. -/
theorem resolveEntry_cases (env : ReplayEnv) (args : ReplayArgs) (i : Nat) (e : Entry) (st : Replay) :
    (resolveEntry env args i e st = .fail st ∧ args.outOfBounds e)
      ∨ (resolveEntry env args i e st = .fail (st.looked e)
          ∧ (typeMissing e st ∨ (e.kind.indexed ∧ env.fails i .indexAdd)))
      ∨ (resolveEntry env args i e st = .fail ((st.looked e).indexed args.manifest.physicalStep e)
          ∧ (env.fails i .typeDecode ∨ env.fails i .cacheUpsert))
      ∨ (resolveEntry env args i e st = .fail (st.resolved args.manifest.physicalStep e)
          ∧ e.kind ≠ .dsetWrite ∧ env.fails i .dcplDecode)
      ∨ resolveEntry env args i e st = .ok (st.resolved args.manifest.physicalStep e) := by
  unfold resolveEntry
  cases hbounds : args.outOfBounds e
  · right
    simp only [Replay.check, Bool.false_eq_true, if_false, Outcome.bind_ok]
    rcases lookupOmitted_eq e st with ⟨hlook, hmissing⟩ | hlook
    · left
      rw [hlook]
      exact ⟨rfl, .inl hmissing⟩
    · rw [hlook, Outcome.bind_ok]
      unfold indexReplayed
      cases hindex : e.kind.indexed && env.fails i .indexAdd
      · right
        simp only [Bool.false_eq_true, if_false, Outcome.bind_ok]
        cases hdecode : env.fails i .typeDecode
        · simp only [Bool.false_eq_true, if_false, Outcome.bind_ok]
          rcases recordSent_eq env i e ((st.looked e).indexed args.manifest.physicalStep e) with
            ⟨hrec, hupsert⟩ | hrec
          · left
            rw [Replay.indexed] at hrec ⊢
            rw [hrec]
            exact ⟨rfl, .inr hupsert⟩
          · right
            rw [Replay.indexed] at hrec
            rw [hrec, Outcome.bind_ok]
            cases hdcpl : dcplFails env i e
            · exact .inr rfl
            · left
              simp only [dcplFails, Bool.and_eq_true, Bool.or_eq_true, decide_eq_true_eq] at hdcpl
              refine ⟨rfl, fun hk => ?_, hdcpl.2⟩
              rcases hdcpl.1.1 with h | h <;> rw [hk] at h <;> cases h
        · left
          exact ⟨rfl, .inl rfl⟩
      · left
        rw [Bool.and_eq_true] at hindex
        exact ⟨rfl, .inr hindex⟩
  · left
    exact ⟨rfl, rfl⟩

@[simp] theorem Replay.looked_core (st : Replay) (e : Entry) : (st.looked e).core = st.core := by
  unfold Replay.looked
  split <;> rfl

@[simp] theorem Replay.indexed_lookups (st : Replay) (n : Nat) (e : Entry) :
    (st.indexed n e).lookups = st.lookups := rfl

@[simp] theorem Replay.recorded_lookups (st : Replay) (e : Entry) :
    (st.recorded e).lookups = st.lookups := rfl

@[simp] theorem Replay.looked_wired (st : Replay) (e : Entry) : (st.looked e).wired = st.wired := by
  unfold Replay.looked
  split <;> rfl

@[simp] theorem Replay.indexed_wired (st : Replay) (n : Nat) (e : Entry) :
    (st.indexed n e).wired = st.wired := rfl

@[simp] theorem Replay.recorded_wired (st : Replay) (e : Entry) :
    (st.recorded e).wired = st.wired := rfl

/-- Resolving an entry works on the lookups, the path index and the replay type cache. -/
theorem resolved_core (st : Replay) (n : Nat) (e : Entry) :
    (st.resolved n e).core = { st.core with
      pathIndex := indexEntry st.core.pathIndex n e.kind e.path
      replayTypeCache := recordedTypes st.core.replayTypeCache e } := by
  rw [Replay.resolved, Replay.recorded, Replay.indexed, Replay.looked_core]

/-- The commit state an entry's replay leaves: untouched if it fails before the index, else
indexed, with the type and the link recorded and the object made as far as it got. -/
theorem replayEntry_core (env : ReplayEnv) (args : ReplayArgs) (ie : Nat × Entry) (st : Replay) :
    ((replayEntry env args ie st).state.core = st.core ∧ (replayEntry env args ie st).isOk = false)
      ∨ ∃ r ops links, (∀ op ∈ ops, op.isManifest = false)
        ∧ (r = st.core.replayTypeCache ∨ r = recordedTypes st.core.replayTypeCache ie.2)
        ∧ (links = st.core.links ∨ links = notedLinks env args ie st.core)
        ∧ (replayEntry env args ie st).state.core = { st.core with
            pathIndex := indexEntry st.core.pathIndex args.manifest.physicalStep ie.2.kind ie.2.path
            replayTypeCache := r, links := links
            file := st.core.file.appendAll args.manifest.physicalStep ops } := by
  unfold replayEntry
  have hr := resolved_core st args.manifest.physicalStep ie.2
  rcases resolveEntry_cases env args ie.1 ie.2 st with
    ⟨h, -⟩ | ⟨h, -⟩ | ⟨h, -⟩ | ⟨h, -⟩ | h <;> rw [h]
  · exact .inl ⟨rfl, rfl⟩
  · exact .inl ⟨Replay.looked_core st ie.2, rfl⟩
  · refine .inr ⟨_, [], _, List.forall_mem_nil _, .inl rfl, .inl rfl, ?_⟩
    rw [Outcome.bind_fail, Outcome.state_fail, Replay.indexed, Replay.looked_core]
    rfl
  · exact .inr ⟨_, [], _, List.forall_mem_nil _, .inr rfl, .inl rfl, hr⟩
  · right
    rw [Outcome.bind_ok]
    split
    · exact ⟨_, [], _, List.forall_mem_nil _, .inr rfl, .inl rfl, hr⟩
    · rename_i t _
      obtain ⟨-, ops, hops, happ⟩ :=
        applyEntry_core env args ie t (st.resolved args.manifest.physicalStep ie.2)
      refine ⟨_, ops, _, hops, .inr rfl, .inr rfl, ?_⟩
      rw [happ, hr]
      rfl

/-- What holds of the links and is kept by noting the entry's link holds after the entry's replay. -/
theorem links_entry_rule {P : Table Path LinkRec → Prop} (env : ReplayEnv) (args : ReplayArgs) {ie : Nat × Entry}
    (hset : ∀ (hard : Bool) (target : Path), ie.2.kind = .link → args.payload ie.1 = .link hard target →
      ∀ links, P links → P (links.set ie.2.path ⟨target, hard⟩))
    (st : Replay) (h : P st.core.links) : P (replayEntry env args ie st).state.core.links := by
  rcases replayEntry_core env args ie st with ⟨hcore, -⟩ | ⟨r, ops, links, -, -, hlinks, hcore⟩
  · rw [hcore]
    exact h
  · rw [hcore]
    rcases hlinks with rfl | rfl
    · exact h
    · show P (notedLinks env args ie st.core)
      unfold notedLinks
      split
      · rename_i hkind hpayload
        split
        · exact h
        · exact hset _ _ hkind hpayload _ h
      · exact h

/-! ### A manifest -/

theorem frame_replayEntry (env : ReplayEnv) (args : ReplayArgs) (ie : Nat × Entry) (st : Replay) :
    (replayEntry env args ie st).state.core.frame = st.core.frame := by
  rcases replayEntry_core env args ie st with ⟨h, -⟩ | ⟨r, ops, links, -, -, -, h⟩
  · rw [h]
  · rw [h]
    rfl

theorem applied_carryForwardOne (env : ReplayEnv) (m : Step) (st : Replay) (ie : Nat × Entry) :
    st.Applied m.physicalStep (carryForwardOne env m st ie) := by
  unfold carryForwardOne
  split
  · exact .refl _ st
  · split
    · split
      · exact .refl _ st
      · exact st.applied_logOp _ rfl
    · exact .refl _ st

theorem applied_carryForwardResized (env : ReplayEnv) (m : Step) (st : Replay) :
    st.Applied m.physicalStep (carryForwardResized env m st) := by
  unfold carryForwardResized
  induction m.entries.zipIdx.map (fun (e, i) => (i, e)) generalizing st with
  | nil => exact .refl _ st
  | cons ie l ih => exact (applied_carryForwardOne env m st ie).trans (ih _)

-- what is written into the step's group last
def ReplayEnv.closing (env : ReplayEnv) (config : Config) (m : Step) : List FileOp :=
  (if env.manifestCreateFails then [] else [.manifest (if env.manifestWriteFails then none else some m)])
    ++ (if config.stagePayload && !env.payloadCreateFails then [.payload m.payloadBytes] else [])

theorem persist_eq (env : ReplayEnv) (m : Step) (st : Replay) :
    persist env m st = if env.stepGroupFails then .fail st
      else .ok { st with core := { st.core with
        file := (st.core.file.ensure m.physicalStep).appendAll m.physicalStep
          (env.closing st.core.config m) } } := by
  unfold persist
  split
  · rfl
  · unfold putPayload putManifest ReplayEnv.closing
    cases env.manifestCreateFails with
    | false =>
      cases hpay : st.core.config.stagePayload && !env.payloadCreateFails with
      | false => simp [Replay.logOp, hpay, StepFile.appendAll]
      | true => simp [Replay.logOp, hpay, StepFile.appendAll]
    | true =>
      cases hpay : st.core.config.stagePayload && !env.payloadCreateFails with
      | false => simp [hpay, StepFile.appendAll]
      | true => simp [Replay.logOp, hpay, StepFile.appendAll]

/-- Whatever the loop over the entries keeps, and a change of the file and the links keeps, replay
keeps. -/
theorem state_replayManifest {P : Replay → Prop} {env : ReplayEnv} {args : ReplayArgs} {st : Replay}
    (hst : P st) (hentry : ∀ ie s, P s → P (replayEntry env args ie s).state)
    (hfile : ∀ (s s' : Replay) file links, s'.lookups = s.lookups →
      s'.core = { s.core with file := file, links := links } → P s → P s') :
    P (replayManifest env args st).state := by
  unfold replayManifest
  split
  · exact hst
  · have hrun : P (Outcome.runAll (replayEntry env args) (replayOrder args.manifest.entries) st).state :=
      Outcome.state_runAll (fun ie _ s hs => hentry ie s hs) hst
    refine Outcome.state_bind hrun (fun s hs => ?_)
    rw [hs] at hrun
    obtain ⟨hlook, ops, -, hcarry⟩ := applied_carryForwardResized env args.manifest s
    have hcarried := hfile _ _ _ _ hlook hcarry hrun
    rw [persist_eq]
    split
    · exact hcarried
    · exact hfile (carryForwardResized env args.manifest s) _ _ _ rfl rfl hcarried

/-- Replay leaves everything but its four tables. -/
theorem frame_replayManifest (env : ReplayEnv) (args : ReplayArgs) (st : Replay) :
    (replayManifest env args st).state.core.frame = st.core.frame := by
  refine state_replayManifest (P := fun s => s.core.frame = st.core.frame) rfl ?_ ?_
  · exact fun ie s hs => (frame_replayEntry env args ie s).trans hs
  · intro s s' file links _ hcore hs
    rw [← hs, hcore]
    rfl

/-! ## Faults

An entry whose replay fails is malformed or gets a bad answer to a call the connector cannot do
without. An answer to a call that is never made means nothing, so no environment is lost by
counting it. -/

def Call.required : List Call :=
  [.indexAdd, .typeDecode, .cacheUpsert, .dcplDecode, .ensureParent, .create, .memSpace,
    .vlDeserialize, .write, .ensureAttrGroup, .attrCreate, .attrWrite]

-- the entry as such cannot be replayed
def malformed (args : ReplayArgs) (ie : Nat × Entry) : Bool :=
  args.outOfBounds ie.2
    || (decide (ie.2.kind ≠ .dsetWrite) && ie.2.typeEnc.field.isNone)
    || (decide (ie.2.kind = .dsetWrite) && !createdBefore args.manifest.entries ie.1 ie.2.path)
    || (decide (ie.2.kind = .attr) && (attrParent ie.2.path).isNone)

def entryFault (env : ReplayEnv) (args : ReplayArgs) (ie : Nat × Entry) : Bool :=
  malformed args ie || Call.required.any (env.fails ie.1)

/-- Replay of a manifest meets no fault. -/
def Faultless (env : ReplayEnv) (args : ReplayArgs) : Prop :=
  env.startFails = false ∧ env.stepGroupFails = false
    ∧ ∀ ie ∈ replayOrder args.manifest.entries, entryFault env args ie = false

theorem createAttr_ok {env : ReplayEnv} {i : Nat} (hgroup : env.fails i .ensureAttrGroup = false)
    (hcreate : env.fails i .attrCreate = false) (n : Nat) (e : Entry) (t : Datatype) (parent : Path)
    (st : Replay) : ∃ st', createAttr env n i e t parent st = .ok st' := by
  unfold createAttr
  simp only [hgroup, hcreate, Bool.false_eq_true, if_false]
  split
  · exact ⟨_, rfl⟩
  · split
    · exact ⟨_, rfl⟩
    · split
      · exact ⟨_, rfl⟩
      · split
        · exact ⟨_, rfl⟩
        · exact ⟨_, rfl⟩

theorem fails_of_not_fault {env : ReplayEnv} {args : ReplayArgs} {ie : Nat × Entry}
    (h : entryFault env args ie = false) {c : Call} (hc : c ∈ Call.required) : env.fails ie.1 c = false := by
  rw [entryFault, Bool.or_eq_false_iff, List.any_eq_false] at h
  simpa using h.2 c hc

/-- Without a fault the entry's object is made. -/
theorem applyEntry_ok {env : ReplayEnv} {args : ReplayArgs} {i : Nat} {e : Entry}
    (h : entryFault env args (i, e) = false) (t : Datatype) (st : Replay) :
    ∃ st', applyEntry env args i e t st = .ok st' := by
  have hfails : ∀ c ∈ Call.required, env.fails i c = false := fun c hc => fails_of_not_fault h hc
  simp only [entryFault, malformed, Bool.or_eq_false_iff, Bool.and_eq_false_iff] at h
  obtain ⟨⟨⟨-, hbefore⟩, hparent⟩, -⟩ := h
  unfold applyEntry
  cases hkind : e.kind with
  | dsetCreate =>
    simp only [hfails .ensureParent (by decide), hfails .create (by decide)]
    exact ⟨_, rfl⟩
  | dsetWrite =>
    have hcreated : createdBefore args.manifest.entries i e.path = true := by simpa [hkind] using hbefore
    simp only [hcreated, hfails .memSpace (by decide), hfails .vlDeserialize (by decide),
      hfails .write (by decide), Bool.not_true, Bool.or_false, Bool.false_eq_true, and_false, if_false]
    exact ⟨_, rfl⟩
  | attr =>
    have hsome : (attrParent e.path).isSome := by simpa [hkind, Option.isNone_iff_eq_none,
      Option.isSome_iff_ne_none] using hparent
    obtain ⟨parent, hpath⟩ := Option.isSome_iff_exists.mp hsome
    obtain ⟨st', hst'⟩ := createAttr_ok (hfails .ensureAttrGroup (by decide))
      (hfails .attrCreate (by decide)) args.manifest.physicalStep e t parent st
    simp only [hpath, hst', Outcome.bind_ok, hfails .vlDeserialize (by decide),
      hfails .attrWrite (by decide), Bool.false_eq_true, and_false, if_false]
    split
    · exact ⟨_, rfl⟩
    · exact ⟨_, rfl⟩
  | group => exact ⟨_, rfl⟩
  | link => exact ⟨_, rfl⟩

end VolStream
