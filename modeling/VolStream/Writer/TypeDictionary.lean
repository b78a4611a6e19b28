import VolStream.Lib.Dictionary
import VolStream.Writer.Capture

/-!
# The type dictionary over whole runs

The encoder omits a write's datatype when its cache says the type was sent for that path before;
replay looks an omitted type up in a cache of its own. The encoder's cache moves when a manifest
is built, replay's when an entry is replayed, and between the two lie failures, spilled steps and
steps replayed ahead of older ones.

The writes of a manifest are a stream of dictionary messages. The invariant (`TypesInv`) says
that the messages of the queued manifests agree with the replay cache and carry it to the
encoder's. A run keeps it, and with it the rightness of every lookup, as long as no step breaks
the lockstep (`EndTypesOk`): a type recorded by the encoder is recorded by replay or queued, a
step replayed ahead of queued ones shares no path with what they send, and a drained step that
has to be replayed again does not retype a path.
-/

namespace VolStream

open Dictionary

/-! ## Manifests as message streams -/

abbrev TypeMsg := Msg Path Datatype

def typeMsg (e : Entry) : Option TypeMsg :=
  match e.kind, e.typeEnc with
  | .dsetWrite, .sent t => some (.sent e.path t)
  | .dsetWrite, .omitted t => some (.omitted e.path t)
  | _, _ => none

def typeMsgs (entries : List Entry) : List TypeMsg := entries.filterMap typeMsg

-- the types of the step's writes, before encoding
def pendingTypes (pending : List PendingEntry) : List (Path × Datatype) :=
  (pending.filter fun pe => pe.kind = .dsetWrite).map fun pe => (pe.path, pe.type)

/-- The messages still queued in spilled steps. -/
def queueMsgs (queue : List SpillEntry) : List TypeMsg := queue.flatMap fun q => typeMsgs q.manifest.entries

theorem queueMsgs_append (qs qs' : List SpillEntry) :
    queueMsgs (qs ++ qs') = queueMsgs qs ++ queueMsgs qs' := List.flatMap_append

theorem queueMsgs_cons (q : SpillEntry) (qs : List SpillEntry) :
    queueMsgs (q :: qs) = typeMsgs q.manifest.entries ++ queueMsgs qs := List.flatMap_cons

/-! ## Encoding -/

theorem recordType_of_not_sends {w : TypeCache} {pe : PendingEntry} (h : sendsNewType w pe = false) :
    recordType w pe = w := by
  unfold sendsNewType at h
  unfold recordType
  rw [if_neg (of_decide_eq_false h)]

/-- A completed encoding is the dictionary encoding of the writes' types, and leaves the cache
that encoding leaves. -/
theorem buildEntries_types {env : BuildEnv} {i off total : Nat} {pending : List PendingEntry}
    {w w' : TypeCache} {entries : List Entry}
    (h : buildEntries env i off pending w = (w', some (entries, total))) :
    typeMsgs entries = encode w (pendingTypes pending)
      ∧ w' = after w (encode w (pendingTypes pending)) := by
  induction pending generalizing i off w entries with
  | nil =>
    cases h
    exact ⟨rfl, rfl⟩
  | cons pe pending ih =>
    unfold buildEntries at h
    split at h
    · cases h
    · split at h
      · cases h
      · split at h
        · cases h
        · simp only at h
          cases hrest : buildEntries env (i + 1) (off + pe.payload.len) pending (recordType w pe) with
          | mk w₁ res =>
            rw [hrest] at h
            cases res with
            | none => cases h
            | some pair =>
              obtain ⟨es, n⟩ := pair
              cases h
              obtain ⟨hmsgs, hcache⟩ := ih hrest
              by_cases hkind : pe.kind = .dsetWrite
              · have htypes : pendingTypes (pe :: pending) = (pe.path, pe.type) :: pendingTypes pending := by
                  simp [pendingTypes, hkind]
                rw [htypes, encode]
                by_cases hsame : w pe.path = some pe.type
                · have hrec : recordType w pe = w := by simp [recordType, hkind, hsame]
                  rw [hrec] at hmsgs hcache
                  rw [if_pos hsame]
                  refine ⟨?_, hcache⟩
                  simp only [typeMsgs, List.filterMap_cons, typeMsg, hkind, encodeType, hsame,
                    and_self, if_true]
                  exact congrArg _ hmsgs
                · have hrec : recordType w pe = Function.update w pe.path (some pe.type) := by
                    simp [recordType, hkind, hsame, typeCacheUpsert]
                  rw [hrec] at hmsgs hcache
                  rw [if_neg hsame]
                  refine ⟨?_, hcache⟩
                  simp only [typeMsgs, List.filterMap_cons, typeMsg, hkind, encodeType, hsame,
                    and_false, if_false]
                  exact congrArg _ hmsgs
              · have htypes : pendingTypes (pe :: pending) = pendingTypes pending := by
                  simp [pendingTypes, hkind]
                have hrec : recordType w pe = w := by simp [recordType, hkind]
                have hnone : ∀ off len, typeMsg ⟨pe.kind, pe.path, encodeType w pe, pe.space, pe.dcpl,
                    off, len⟩ = none := by
                  intro off len
                  cases hk : pe.kind <;> simp_all [typeMsg]
                rw [hrec] at hmsgs hcache
                rw [htypes]
                refine ⟨?_, hcache⟩
                rw [typeMsgs, List.filterMap_cons_none (hnone _ _)]
                exact hmsgs

-- a call of the encoder on entry `i` fails
def BuildEnv.fault (env : BuildEnv) (i : Nat) : Bool :=
  env.encodeFails i || env.upsertFails i || env.growFails i

/-- No new type is encoded before the encoder fails: where an entry sends one, nothing after it
fails. -/
def TypesOutliveBuild (env : BuildEnv) (w : TypeCache) (pending : List PendingEntry) : Prop :=
  ∀ i pe, pending[i]? = some pe → sendsNewType w pe →
    env.growFails i = false ∧ env.finalizeFails = false
      ∧ ∀ j, i < j → j < pending.length → env.fault j = false

theorem buildEntries_completes (env : BuildEnv) (i : Nat) {pending : List PendingEntry}
    (h : ∀ j, j < pending.length → env.fault (i + j) = false) (off : Nat) (w : TypeCache) :
    ∃ w' res, buildEntries env i off pending w = (w', some res) := by
  induction pending generalizing i off w with
  | nil => exact ⟨w, _, rfl⟩
  | cons pe pending ih =>
    have hhead := h 0 (Nat.succ_pos _)
    simp only [BuildEnv.fault, Nat.add_zero, Bool.or_eq_false_iff] at hhead
    obtain ⟨⟨hencode, hupsert⟩, hgrow⟩ := hhead
    have htail : ∀ j, j < pending.length → env.fault (i + 1 + j) = false := by
      intro j hj
      have := h (j + 1) (Nat.succ_lt_succ hj)
      rwa [show i + (j + 1) = i + 1 + j from by omega] at this
    obtain ⟨w', res, hrest⟩ := ih (i + 1) htail (off + pe.payload.len) (recordType w pe)
    obtain ⟨es, total⟩ := res
    unfold buildEntries
    rw [hencode, hupsert, hgrow, Bool.and_false]
    simp only [Bool.false_eq_true, if_false]
    rw [hrest]
    exact ⟨_, _, rfl⟩

/-- A failed encoding in which no new type is lost leaves the cache. -/
theorem buildEntries_fails {env : BuildEnv} {i : Nat} {pending : List PendingEntry} {w : TypeCache}
    (hout : ∀ k pe, pending[k]? = some pe → sendsNewType w pe →
      env.growFails (i + k) = false ∧ ∀ j, k < j → j < pending.length → env.fault (i + j) = false)
    {off : Nat} {w' : TypeCache} (h : buildEntries env i off pending w = (w', none)) : w' = w := by
  induction pending generalizing i off with
  | nil => cases h
  | cons pe pending ih =>
    unfold buildEntries at h
    split at h
    · cases h
      rfl
    · split at h
      · cases h
        rfl
      · cases hsends : sendsNewType w pe with
        | false =>
          have hrec := recordType_of_not_sends hsends
          split at h
          · cases h
            exact hrec
          · rw [hrec] at h
            simp only at h
            cases hrest : buildEntries env (i + 1) (off + pe.payload.len) pending w with
            | mk w₁ res =>
              rw [hrest] at h
              cases res with
              | some pair => cases h
              | none =>
                cases h
                refine ih (i := i + 1) (fun k pe' hk hsends' => ?_) hrest
                obtain ⟨hgrow, hlater⟩ := hout (k + 1) pe' hk hsends'
                refine ⟨by rwa [show i + (k + 1) = i + 1 + k from by omega] at hgrow, fun j hkj hj => ?_⟩
                have := hlater (j + 1) (Nat.succ_lt_succ hkj) (Nat.succ_lt_succ hj)
                rwa [show i + (j + 1) = i + 1 + j from by omega] at this
        | true =>
          -- the rest cannot fail: the new type would be lost
          obtain ⟨hgrow, hlater⟩ := hout 0 pe rfl hsends
          rw [Nat.add_zero] at hgrow
          rw [hgrow] at h
          obtain ⟨w₁, res, hrest⟩ := buildEntries_completes env (i + 1)
            (fun j hj => by
              have := hlater (j + 1) (Nat.succ_pos _) (Nat.succ_lt_succ hj)
              rwa [show i + (j + 1) = i + 1 + j from by omega] at this)
            (off + pe.payload.len) (recordType w pe)
          obtain ⟨es, total⟩ := res
          simp only [Bool.false_eq_true, if_false] at h
          rw [hrest] at h
          cases h

theorem encode_of_sends_nothing {w : TypeCache} {pending : List PendingEntry}
    (h : ∀ pe ∈ pending, sendsNewType w pe = false) :
    after w (encode w (pendingTypes pending)) = w := by
  refine after_encode_of_held (fun kv hkv => ?_)
  simp only [pendingTypes, List.mem_map, List.mem_filter, decide_eq_true_eq] at hkv
  obtain ⟨pe, ⟨hmem, hkind⟩, rfl⟩ := hkv
  have hsends := h pe hmem
  simp only [sendsNewType, hkind, true_and, decide_eq_false_iff_not, not_not] at hsends
  exact hsends

/-- A manifest that could not be built, losing no new type, leaves the state. -/
theorem buildManifest_none {env : BuildEnv} {fs fs' : Core}
    (hout : TypesOutliveBuild env fs.writeTypeCache fs.pending)
    (h : buildManifest env fs = (fs', none)) : fs' = fs := by
  unfold buildManifest at h
  cases hbuild : buildEntries env 0 0 fs.pending fs.writeTypeCache with
  | mk w pair =>
    rw [hbuild] at h
    cases pair with
    | none =>
      cases h
      have hw : w = fs.writeTypeCache := by
        refine buildEntries_fails (fun k pe hk hsends => ?_) hbuild
        obtain ⟨hgrow, -, hlater⟩ := hout k pe hk hsends
        exact ⟨by rwa [Nat.zero_add], fun j hkj hj => by rw [Nat.zero_add]; exact hlater j hkj hj⟩
      rw [hw]
    | some pair =>
      obtain ⟨entries, total⟩ := pair
      obtain ⟨-, hw⟩ := buildEntries_types hbuild
      simp only [Prod.mk.injEq, ite_eq_left_iff, reduceCtorEq, imp_false, not_not] at h
      obtain ⟨rfl, hfin⟩ := h
      -- the encoder got to its end, so nothing new was there to send
      have hnone : ∀ pe ∈ fs.pending, sendsNewType fs.writeTypeCache pe = false := by
        intro pe hpe
        obtain ⟨i, hi⟩ := List.mem_iff_getElem?.mp hpe
        by_contra hsends
        have hok := (hout i pe hi (by simpa using hsends)).2.1
        rw [hfin] at hok
        cases hok
      rw [hw, encode_of_sends_nothing hnone]

/-- A built manifest is encoded against the encoder's cache and moves it along. -/
theorem buildManifest_some {env : BuildEnv} {fs fs' : Core} {m : Step}
    (h : buildManifest env fs = (fs', some m)) :
    fs' = { fs with writeTypeCache := after fs.writeTypeCache (typeMsgs m.entries) }
      ∧ typeMsgs m.entries = encode fs.writeTypeCache (pendingTypes fs.pending) := by
  unfold buildManifest at h
  cases hbuild : buildEntries env 0 0 fs.pending fs.writeTypeCache with
  | mk w pair =>
    rw [hbuild] at h
    cases pair with
    | none => cases h
    | some pair =>
      obtain ⟨entries, total⟩ := pair
      obtain ⟨hmsgs, hw⟩ := buildEntries_types hbuild
      simp only [Prod.mk.injEq, Option.ite_none_left_eq_some, Option.some.injEq] at h
      obtain ⟨rfl, -, rfl⟩ := h
      refine ⟨?_, hmsgs⟩
      rw [hmsgs, hw]

/-! ## Replaying one entry -/

/-- Every lookup so far found what had been omitted. -/
def LookupsRight (lookups : List TypeLookup) : Prop := ∀ l ∈ lookups, l.found = some l.suppressed

-- replay fails before it records the type the entry sends
def typeFault (env : ReplayEnv) (args : ReplayArgs) (ie : Nat × Entry) : Bool :=
  args.outOfBounds ie.2 || env.fails ie.1 .typeDecode || env.fails ie.1 .cacheUpsert

theorem typeMsg_of_not_write {e : Entry} (h : e.kind ≠ .dsetWrite) : typeMsg e = none := by
  unfold typeMsg
  cases hk : e.kind <;> simp_all

theorem typeMsg_sent {e : Entry} {t : Datatype} (hk : e.kind = .dsetWrite) (ht : e.typeEnc = .sent t) :
    typeMsg e = some (.sent e.path t) := by
  simp [typeMsg, hk, ht]

theorem typeMsg_omitted {e : Entry} {t : Datatype} (hk : e.kind = .dsetWrite)
    (ht : e.typeEnc = .omitted t) : typeMsg e = some (.omitted e.path t) := by
  simp [typeMsg, hk, ht]

theorem Replay.recorded_types (st : Replay) (e : Entry) :
    (st.recorded e).core.replayTypeCache = after st.core.replayTypeCache (typeMsg e).toList := by
  show recordedTypes st.core.replayTypeCache e = _
  unfold recordedTypes
  by_cases hk : e.kind = .dsetWrite
  · cases ht : e.typeEnc with
    | sent t =>
      rw [typeMsg_sent hk ht, hk]
      rfl
    | omitted t =>
      rw [typeMsg_omitted hk ht, hk]
      rfl
  · rw [typeMsg_of_not_write hk]
    cases hkind : e.kind <;> simp_all [after]

theorem Replay.resolved_types (st : Replay) (n : Nat) (e : Entry) :
    (st.resolved n e).core.replayTypeCache = after st.core.replayTypeCache (typeMsg e).toList := by
  rw [Replay.resolved, Replay.recorded_types, Replay.indexed, Replay.looked_core]

theorem looked_right {st : Replay} {e : Entry} (hagree : Agrees st.core.replayTypeCache (typeMsg e).toList)
    (hright : LookupsRight st.lookups) : LookupsRight (st.looked e).lookups := by
  unfold Replay.looked
  split
  · rename_i t hk ht
    rw [typeMsg_omitted hk ht] at hagree
    intro l hl
    rcases List.mem_append.mp hl with hl | hl
    · exact hright l hl
    · rw [List.mem_singleton] at hl
      rw [hl]
      exact hagree.1
  · exact hright

theorem not_typeMissing {st : Replay} {e : Entry}
    (hagree : Agrees st.core.replayTypeCache (typeMsg e).toList) : ¬ typeMissing e st := by
  intro ⟨hk, hfield, hnone⟩
  cases ht : e.typeEnc with
  | sent t =>
    rw [ht] at hfield
    cases hfield
  | omitted t =>
    rw [typeMsg_omitted hk ht] at hagree
    rw [hagree.1] at hnone
    cases hnone

/-- A well-formed entry that agrees with the cache decodes to a type. -/
theorem entryType_isSome {st : Replay} {e : Entry}
    (hagree : Agrees st.core.replayTypeCache (typeMsg e).toList)
    (hfield : e.kind = .dsetWrite ∨ e.typeEnc.field ≠ none) (n : Nat) :
    ∃ t, entryType (st.resolved n e).core.replayTypeCache e = some t := by
  unfold entryType
  cases ht : e.typeEnc with
  | sent t => exact ⟨t, rfl⟩
  | omitted t =>
    have hk : e.kind = .dsetWrite := by
      rcases hfield with hk | hsome
      · exact hk
      · rw [ht] at hsome
        exact absurd rfl hsome
    refine ⟨t, ?_⟩
    rw [Replay.resolved_types, typeMsg_omitted hk ht] at *
    simp only [TypeEnc.field, hk, if_true]
    exact hagree.1

/-- One entry: every lookup is right, and the type it sends is recorded unless a fault comes
first. -/
theorem replayEntry_types (env : ReplayEnv) (args : ReplayArgs) {ie : Nat × Entry} {st : Replay}
    (hagree : Agrees st.core.replayTypeCache (typeMsg ie.2).toList) (hright : LookupsRight st.lookups) :
    LookupsRight (replayEntry env args ie st).state.lookups
      ∧ ((replayEntry env args ie st).isOk = false → entryFault env args ie)
      ∧ ((replayEntry env args ie st).state.core.replayTypeCache
            = after st.core.replayTypeCache (typeMsg ie.2).toList
        ∨ ((replayEntry env args ie st).isOk = false
            ∧ (replayEntry env args ie st).state.core.replayTypeCache = st.core.replayTypeCache
            ∧ (sendsType ie.2 → typeFault env args ie))) := by
  have hlooked := looked_right hagree hright
  have hrequired : ∀ c ∈ Call.required, env.fails ie.1 c = true → entryFault env args ie := by
    intro c hc hfails
    rw [entryFault, Bool.or_eq_true, List.any_eq_true]
    exact .inr ⟨c, hc, hfails⟩
  have hresolved : LookupsRight (st.resolved args.manifest.physicalStep ie.2).lookups := by
    rw [Replay.resolved, Replay.recorded_lookups, Replay.indexed_lookups]
    exact hlooked
  unfold replayEntry
  rcases resolveEntry_cases env args ie.1 ie.2 st with
    ⟨h, hwhy⟩ | ⟨h, hwhy⟩ | ⟨h, hwhy⟩ | ⟨h, hwhy⟩ | h <;> rw [h]
  · refine ⟨hright, fun _ => ?_, .inr ⟨rfl, rfl, fun _ => ?_⟩⟩
    · simp [entryFault, malformed, hwhy]
    · simp [typeFault, hwhy]
  · have hindex := hwhy.resolve_left (not_typeMissing hagree)
    refine ⟨hlooked, fun _ => hrequired .indexAdd (by decide) hindex.2, .inr ⟨rfl, ?_, fun hsends => ?_⟩⟩
    · rw [Outcome.bind_fail, Outcome.state_fail, Replay.looked_core]
    · -- a write is not indexed
      simp only [sendsType, Bool.and_eq_true, decide_eq_true_eq] at hsends
      rw [hsends.1] at hindex
      cases hindex.1
  · refine ⟨hlooked, fun _ => ?_, .inr ⟨rfl, ?_, fun _ => ?_⟩⟩
    · rcases hwhy with hwhy | hwhy
      · exact hrequired .typeDecode (by decide) hwhy
      · exact hrequired .cacheUpsert (by decide) hwhy
    · rw [Outcome.bind_fail, Outcome.state_fail, Replay.indexed, Replay.looked_core]
    · rcases hwhy with hwhy | hwhy <;> simp [typeFault, hwhy]
  · exact ⟨hresolved, fun _ => hrequired .dcplDecode (by decide) hwhy.2, .inl (st.resolved_types _ _)⟩
  · rw [Outcome.bind_ok]
    cases htype : entryType (st.resolved args.manifest.physicalStep ie.2).core.replayTypeCache ie.2 with
    | none =>
      refine ⟨hresolved, fun _ => ?_, .inl (st.resolved_types _ _)⟩
      by_contra hfault
      have hfield : ie.2.kind = .dsetWrite ∨ ie.2.typeEnc.field ≠ none := by
        simp only [entryFault, malformed, Bool.not_eq_true, Bool.or_eq_false_iff, Bool.and_eq_false_iff,
          decide_eq_false_iff_not, not_not, Option.isNone_eq_false_iff] at hfault
        exact hfault.1.1.1.2.imp_right Option.isSome_iff_ne_none.mp
      obtain ⟨t, ht⟩ := entryType_isSome hagree hfield args.manifest.physicalStep
      rw [htype] at ht
      cases ht
    | some t =>
      obtain ⟨hlookups, ops, -, hcore⟩ :=
        applyEntry_core env args ie t (st.resolved args.manifest.physicalStep ie.2)
      refine ⟨hlookups ▸ hresolved, fun hnot => ?_, .inl ?_⟩
      · by_contra hfault
        rw [Bool.not_eq_true] at hfault
        obtain ⟨st', hst'⟩ := applyEntry_ok hfault t (st.resolved args.manifest.physicalStep ie.2)
        simp only [hst'] at hnot
        cases hnot
      · simp only [hcore]
        exact st.resolved_types _ _

/-! ## Replaying a manifest -/

-- the messages of a list of entries with their positions
def orderMsgs (l : List (Nat × Entry)) : List TypeMsg := l.filterMap fun ie => typeMsg ie.2

theorem orderMsgs_cons (ie : Nat × Entry) (l : List (Nat × Entry)) :
    orderMsgs (ie :: l) = (typeMsg ie.2).toList ++ orderMsgs l := by
  unfold orderMsgs
  rw [List.filterMap_cons]
  cases typeMsg ie.2 with
  | none => rfl
  | some m => rfl

/-- Attributes and links send no types, so the two passes send what the manifest lists. -/
theorem orderMsgs_replayOrder (entries : List Entry) : orderMsgs (replayOrder entries) = typeMsgs entries := by
  have hlate : ∀ l : List (Nat × Entry), orderMsgs (l.filter fun ie => ie.2.kind.late) = [] := by
    intro l
    refine List.filterMap_eq_nil_iff.mpr (fun ie hie => typeMsg_of_not_write (fun hk => ?_))
    have := (List.mem_filter.mp hie).2
    rw [hk] at this
    cases this
  have hearly : ∀ l : List (Nat × Entry), orderMsgs (l.filter fun ie => !ie.2.kind.late) = orderMsgs l := by
    intro l
    induction l with
    | nil => rfl
    | cons ie l ih =>
      cases hk : ie.2.kind.late with
      | false => rw [List.filter_cons_of_pos (by rw [hk]; rfl), orderMsgs_cons, orderMsgs_cons, ih]
      | true =>
        have hnone : typeMsg ie.2 = none := typeMsg_of_not_write (fun hw => by rw [hw] at hk; cases hk)
        rw [List.filter_cons_of_neg (by rw [hk]; decide), orderMsgs_cons, hnone, ih]
        rfl
  unfold replayOrder
  simp only
  have happend : ∀ l l' : List (Nat × Entry), orderMsgs (l ++ l') = orderMsgs l ++ orderMsgs l' :=
    fun l l' => List.filterMap_append
  rw [happend, hlate, hearly, List.append_nil, orderMsgs, List.filterMap_map, typeMsgs]
  calc entries.zipIdx.filterMap ((fun ie => typeMsg ie.2) ∘ fun x => (x.2, x.1))
      = (entries.zipIdx.map Prod.fst).filterMap typeMsg := by rw [List.filterMap_map]; rfl
    _ = entries.filterMap typeMsg := by rw [List.zipIdx_map_fst]

/-- Replay stops at a fault: the types of the entries before it are recorded, and it comes at
the first entry left, before that entry's type, or at the last entry done. -/
theorem runAll_types (env : ReplayEnv) (args : ReplayArgs) {l : List (Nat × Entry)} {st : Replay}
    (hagree : Agrees st.core.replayTypeCache (orderMsgs l)) (hright : LookupsRight st.lookups) :
    ∃ done rest, l = done ++ rest
      ∧ (Outcome.runAll (replayEntry env args) l st).state.core.replayTypeCache
          = after st.core.replayTypeCache (orderMsgs done)
      ∧ LookupsRight (Outcome.runAll (replayEntry env args) l st).state.lookups
      ∧ ((Outcome.runAll (replayEntry env args) l st).isOk → rest = [])
      ∧ ((Outcome.runAll (replayEntry env args) l st).isOk = false →
          (∃ b rest', rest = b :: rest' ∧ entryFault env args b ∧ (sendsType b.2 → typeFault env args b))
            ∨ ∃ done' a, done = done' ++ [a] ∧ entryFault env args a) := by
  induction l generalizing st with
  | nil => exact ⟨[], [], rfl, rfl, hright, fun _ => rfl, fun h => by cases h⟩
  | cons ie l ih =>
    rw [orderMsgs_cons, agrees_append] at hagree
    obtain ⟨hhead, htail⟩ := hagree
    obtain ⟨hlook, hfault, htypes⟩ := replayEntry_types env args hhead hright
    rw [Outcome.runAll_cons]
    cases hentry : replayEntry env args ie st with
    | ok st' =>
      rw [hentry] at hlook hfault htypes
      have hcache : st'.core.replayTypeCache = after st.core.replayTypeCache (typeMsg ie.2).toList := by
        rcases htypes with h | ⟨h, -⟩
        · exact h
        · cases h
      rw [← hcache] at htail
      obtain ⟨done, rest, rfl, hafter, hlook', hok, hwhy⟩ := ih htail hlook
      refine ⟨ie :: done, rest, rfl, ?_, hlook', hok, fun h => ?_⟩
      · rw [orderMsgs_cons, after_append, ← hcache]
        exact hafter
      · rcases hwhy h with hrest | ⟨done', a, rfl, ha⟩
        · exact .inl hrest
        · exact .inr ⟨ie :: done', a, rfl, ha⟩
    | fail st' =>
      rw [hentry] at hlook hfault htypes
      have hie := hfault rfl
      rcases htypes with hcache | ⟨-, hcache, hsends⟩
      · refine ⟨[ie], l, rfl, ?_, hlook, (by intro h; cases h), fun _ => .inr ⟨[], ie, rfl, hie⟩⟩
        rw [orderMsgs_cons, show orderMsgs [] = [] from rfl, List.append_nil]
        exact hcache
      · exact ⟨[], ie :: l, rfl, hcache, hlook, (by intro h; cases h),
          fun _ => .inl ⟨ie, l, rfl, hie, hsends⟩⟩

/-- The calls after the entry loop leave the types and the lookups. -/
theorem replayManifest_after_loop (env : ReplayEnv) (args : ReplayArgs) (st : Replay)
    (hstart : env.startFails = false) :
    let loop := Outcome.runAll (replayEntry env args) (replayOrder args.manifest.entries) st
    (replayManifest env args st).state.core.replayTypeCache = loop.state.core.replayTypeCache
      ∧ (replayManifest env args st).state.lookups = loop.state.lookups
      ∧ ((replayManifest env args st).isOk → loop.isOk) := by
  intro loop
  unfold replayManifest
  rw [if_neg (by rw [hstart]; decide)]
  cases hloop : loop with
  | fail st' =>
    simp only [loop] at hloop
    rw [hloop]
    exact ⟨rfl, rfl, id⟩
  | ok st' =>
    simp only [loop] at hloop
    rw [hloop, Outcome.bind_ok, persist_eq]
    obtain ⟨hlook, ops, -, hcarry⟩ := applied_carryForwardResized env args.manifest st'
    have htypes : (carryForwardResized env args.manifest st').core.replayTypeCache
        = st'.core.replayTypeCache := by rw [hcarry]
    split
    · exact ⟨htypes, hlook, fun _ => rfl⟩
    · exact ⟨htypes, hlook, fun _ => rfl⟩

/-- A manifest that agrees with the cache: every lookup is right, and a prefix of its types is
recorded, all of them if replay succeeds. -/
theorem replayManifest_types (env : ReplayEnv) (args : ReplayArgs) (st : Replay)
    (hagree : Agrees st.core.replayTypeCache (typeMsgs args.manifest.entries))
    (hright : LookupsRight st.lookups) :
    LookupsRight (replayManifest env args st).state.lookups
      ∧ ∃ pre post, typeMsgs args.manifest.entries = pre ++ post
        ∧ (replayManifest env args st).state.core.replayTypeCache = after st.core.replayTypeCache pre
        ∧ ((replayManifest env args st).isOk → post = []) := by
  cases hstart : env.startFails with
  | true =>
    have hfail : replayManifest env args st = .fail st := by
      unfold replayManifest
      rw [if_pos hstart]
    rw [hfail]
    exact ⟨hright, [], _, rfl, rfl, fun h => by cases h⟩
  | false =>
    obtain ⟨hcache, hlook, hok⟩ := replayManifest_after_loop env args st hstart
    rw [← orderMsgs_replayOrder] at hagree ⊢
    obtain ⟨done, rest, hsplit, hafter, hright', hrest, -⟩ := runAll_types env args hagree hright
    refine ⟨hlook ▸ hright', orderMsgs done, orderMsgs rest, ?_, hcache.trans hafter, fun h => ?_⟩
    · rw [hsplit]
      exact List.filterMap_append
    · rw [hrest (hok h)]
      rfl

/-- No type is sent at or after a fault of the replay. -/
structure TypesRecorded (env : ReplayEnv) (args : ReplayArgs) : Prop where
  start : env.startFails → ∀ e ∈ args.manifest.entries, sendsType e = false
  reached : (replayOrder args.manifest.entries).Pairwise
    fun a b => sendsType b.2 → entryFault env args a = false
  recorded : ∀ ie ∈ replayOrder args.manifest.entries, sendsType ie.2 → typeFault env args ie = false

theorem sentKeys_typeMsgs_nil {l : List (Nat × Entry)} (h : ∀ ie ∈ l, sendsType ie.2 = false) :
    sentKeys (orderMsgs l) = [] := by
  induction l with
  | nil => rfl
  | cons ie l ih =>
    rw [orderMsgs_cons, sentKeys_append, ih (fun b hb => h b (List.mem_cons_of_mem _ hb)), List.append_nil]
    have hie := h ie List.mem_cons_self
    by_cases hk : ie.2.kind = .dsetWrite
    · cases ht : ie.2.typeEnc with
      | sent t =>
        rw [sendsType, hk, ht] at hie
        cases hie
      | omitted t =>
        rw [typeMsg_omitted hk ht]
        rfl
    · rw [typeMsg_of_not_write hk]
      rfl

/-- When no type is sent at or after a fault, replay records every type, even if it fails. -/
theorem replayManifest_records {env : ReplayEnv} {args : ReplayArgs} (st : Replay)
    (hrec : TypesRecorded env args)
    (hagree : Agrees st.core.replayTypeCache (typeMsgs args.manifest.entries))
    (hright : LookupsRight st.lookups) :
    (replayManifest env args st).state.core.replayTypeCache
      = after st.core.replayTypeCache (typeMsgs args.manifest.entries) := by
  rw [← orderMsgs_replayOrder] at hagree ⊢
  cases hstart : env.startFails with
  | true =>
    have hfail : replayManifest env args st = .fail st := by
      unfold replayManifest
      rw [if_pos hstart]
    rw [hfail, after_of_sentKeys_nil]
    · rfl
    · exact sentKeys_typeMsgs_nil (fun ie hie => hrec.start hstart _ (mem_replayOrder hie))
  | false =>
    obtain ⟨hcache, -, -⟩ := replayManifest_after_loop env args st hstart
    obtain ⟨done, rest, hsplit, hafter, -, hok, hwhy⟩ := runAll_types env args hagree hright
    have hnosend : ∀ ie ∈ rest, sendsType ie.2 = false := by
      have hpair := hrec.reached
      rw [hsplit, List.pairwise_append] at hpair
      intro ie hie
      cases hrun : (Outcome.runAll (replayEntry env args) (replayOrder args.manifest.entries) st).isOk with
      | true =>
        rw [hok hrun] at hie
        cases hie
      | false =>
        by_contra hsends
        rw [Bool.not_eq_false] at hsends
        rcases hwhy hrun with ⟨b, rest', rfl, hfault, htype⟩ | ⟨done', a, rfl, hfault⟩
        · rcases List.mem_cons.mp hie with rfl | hie
          · have hmem : ie ∈ replayOrder args.manifest.entries := by
              rw [hsplit]
              exact List.mem_append_right _ List.mem_cons_self
            rw [hrec.recorded ie hmem hsends] at htype
            cases htype hsends
          · rw [List.pairwise_cons.mp hpair.2.1 |>.1 ie hie hsends] at hfault
            cases hfault
        · rw [hpair.2.2 a (List.mem_append_right _ List.mem_cons_self) ie hie hsends] at hfault
          cases hfault
    have happend : orderMsgs (replayOrder args.manifest.entries) = orderMsgs done ++ orderMsgs rest := by
      rw [hsplit]
      exact List.filterMap_append
    rw [hcache, hafter, happend, after_append, after_of_sentKeys_nil (sentKeys_typeMsgs_nil hnosend)]

/-- A faultless replay of a manifest that agrees with the cache succeeds. -/
theorem replayManifest_ok_of_faultless {env : ReplayEnv} {args : ReplayArgs} {st : Replay}
    (hfree : Faultless env args)
    (hagree : Agrees st.core.replayTypeCache (typeMsgs args.manifest.entries))
    (hright : LookupsRight st.lookups) : (replayManifest env args st).isOk := by
  obtain ⟨hstart, hgroup, hentries⟩ := hfree
  rw [← orderMsgs_replayOrder] at hagree
  obtain ⟨done, rest, hsplit, -, -, -, hwhy⟩ := runAll_types env args hagree hright
  unfold replayManifest
  rw [if_neg (by rw [hstart]; decide)]
  cases hrun : Outcome.runAll (replayEntry env args) (replayOrder args.manifest.entries) st with
  | ok st' =>
    rw [Outcome.bind_ok, persist, if_neg (by rw [hgroup]; decide)]
    rfl
  | fail st' =>
    rw [hrun] at hwhy
    exfalso
    have hno : ∀ a ∈ done ++ rest, ¬ entryFault env args a := by
      intro a ha
      rw [hentries a (hsplit ▸ ha)]
      decide
    rcases hwhy rfl with ⟨b, rest', rfl, hfault, -⟩ | ⟨done', a, rfl, hfault⟩
    · exact hno b (List.mem_append_right _ List.mem_cons_self) hfault
    · exact hno a (List.mem_append_left _ (List.mem_append_right _ List.mem_cons_self)) hfault

/-! ## The invariant -/

/-- The queued messages agree with the replay cache and carry it to the encoder's, and every
lookup so far was right. -/
structure TypesInv (st : Replay) : Prop where
  agrees : Agrees st.core.replayTypeCache (queueMsgs st.core.pendingSpill)
  synced : after st.core.replayTypeCache (queueMsgs st.core.pendingSpill) = st.core.writeTypeCache
  right : LookupsRight st.lookups

/-- A queued step whose drain meets a fault does not retype a path: it will be replayed again
from its start. -/
def DrainTypesOk (env : Nat → DrainEnv) (k : Nat) (queue : List SpillEntry) : Prop :=
  ∀ j q, queue[j]? = some q →
    Faultless (env (k + j)).replay q.args ∨ Retryable (typeMsgs q.manifest.entries)

theorem drainEntries_types {env : Nat → DrainEnv} (limit : Nat) {k : Nat} {queue : List SpillEntry} {st : Replay}
    (hok : DrainTypesOk env k queue) (hagree : Agrees st.core.replayTypeCache (queueMsgs queue))
    (hright : LookupsRight st.lookups) :
    let left := drainEntries env limit k queue st
    Agrees left.2.core.replayTypeCache (queueMsgs left.1)
      ∧ after left.2.core.replayTypeCache (queueMsgs left.1) = after st.core.replayTypeCache (queueMsgs queue)
      ∧ LookupsRight left.2.lookups := by
  induction queue generalizing k st with
  | nil => exact ⟨hagree, rfl, hright⟩
  | cons q queue ih =>
    unfold drainEntries
    split
    · exact ⟨hagree, rfl, hright⟩
    · split
      · exact ⟨hagree, rfl, hright⟩
      · rw [queueMsgs_cons, agrees_append] at hagree
        obtain ⟨hq, hrest⟩ := hagree
        obtain ⟨hright', pre, post, hmsgs, hcache, hpost⟩ :=
          replayManifest_types (env k).replay q.args st hq hright
        cases hreplay : replayManifest (env k).replay q.args st with
        | ok st' =>
          rw [hreplay] at hright' hcache hpost
          have hall : st'.core.replayTypeCache
              = after st.core.replayTypeCache (typeMsgs q.manifest.entries) := by
            rw [show typeMsgs q.manifest.entries = pre ++ post from hmsgs, hpost rfl, List.append_nil]
            exact hcache
          rw [queueMsgs_cons, after_append, ← hall]
          refine ih (fun j q' hj => ?_) (hall ▸ hrest) hright'
          rw [show k + 1 + j = k + (j + 1) from by omega]
          exact hok (j + 1) q' hj
        | fail st' =>
          rw [hreplay] at hright' hcache
          have hmsgs' : typeMsgs q.manifest.entries = pre ++ post := hmsgs
          have hcache' : st'.core.replayTypeCache = after st.core.replayTypeCache pre := hcache
          have hretry : Retryable (pre ++ post) := by
            rcases hok 0 q rfl with hfree | hretry
            · have := replayManifest_ok_of_faultless hfree hq hright
              rw [Nat.add_zero, hreplay] at this
              cases this
            · rwa [hmsgs'] at hretry
          rw [hmsgs'] at hq hrest
          refine ⟨?_, ?_, hright'⟩
          · rw [queueMsgs_cons, agrees_append, hmsgs', hcache', after_retry]
            exact ⟨hq.retry hretry, hrest⟩
          · rw [queueMsgs_cons, after_append, after_append, hmsgs', hcache', after_retry]

theorem drained_types {env : EndEnv} {st : Replay}
    (hok : st.core.activePolicy.isSome → DrainTypesOk env.drain 0 st.core.pendingSpill)
    (hinv : TypesInv st) : TypesInv (drained env st) := by
  unfold drained
  split
  · rename_i hactive
    unfold drainFirst
    split
    · obtain ⟨hagree, hsync, hright⟩ := drainEntries_types
        ((env.lagDrain.getD st.core.physicalStep + st.core.reserveSlots) % 2 ^ 64)
        (hok hactive) hinv.agrees hinv.right
      have hframe := drainFrame_drainEntries env.drain
        ((env.lagDrain.getD st.core.physicalStep + st.core.reserveSlots) % 2 ^ 64) 0 st.core.pendingSpill st
      have hwrite := congrArg Core.writeTypeCache hframe
      exact ⟨hagree, (hsync.trans hinv.synced).trans hwrite.symm, hright⟩
    · exact hinv
  · exact hinv

/-! ## Replaying and spilling a step -/

/-- A step replayed ahead of queued steps shares no path with what they send, nor they with what
it sends. -/
structure TypesApart (ms queued : List TypeMsg) : Prop where
  ahead : ∀ k ∈ keys ms, k ∉ sentKeys queued
  behind : ∀ k ∈ sentKeys ms, k ∉ keys queued

/-- What an immediate replay of the step has to meet. -/
def ReplayTypesOk (build : BuildEnv) (env : ReplayEnv) (fs : Core) : Prop :=
  TypesOutliveBuild build fs.writeTypeCache fs.pending
    ∧ match (buildManifest build fs).2 with
      | none => True
      | some m => TypesRecorded env (fs.replayArgs m)
          ∧ TypesApart (typeMsgs m.entries) (queueMsgs fs.pendingSpill)

theorem replayStep_types {build : BuildEnv} {env : ReplayEnv} {st : Replay}
    (hok : ReplayTypesOk build env st.core) (hinv : TypesInv st) :
    TypesInv (replayStep build env st).state := by
  obtain ⟨hout, hmanifest⟩ := hok
  unfold replayStep
  cases hbuild : buildManifest build st.core with
  | mk fs res =>
    rw [hbuild] at hmanifest
    cases res with
    | none =>
      rw [buildManifest_none hout hbuild]
      exact hinv
    | some m =>
      obtain ⟨hfs, hmsgs⟩ := buildManifest_some hbuild
      obtain ⟨hrec, hapart⟩ := hmanifest
      -- what was encoded against the encoder's cache agrees with replay's
      have hagreeW : Agrees st.core.writeTypeCache (typeMsgs m.entries) := by
        rw [hmsgs]
        exact agrees_encode _ _
      have hagree : Agrees st.core.replayTypeCache (typeMsgs m.entries) := by
        refine hagreeW.congr (fun k hk => ?_)
        rw [← hinv.synced]
        exact after_of_not_mem (hapart.ahead k hk.mem_keys) _
      have hargs : fs.replayArgs m = st.core.replayArgs m := by
        rw [hfs]
        rfl
      have hstart : ({ st with core := fs } : Replay).core.replayTypeCache = st.core.replayTypeCache := by
        rw [hfs]
      have hcache := replayManifest_records { st with core := fs } (hargs ▸ hrec)
        (by rw [hstart]; exact hagree) hinv.right
      have hright := (replayManifest_types env (fs.replayArgs m) { st with core := fs }
        (by rw [hstart]; exact hagree) hinv.right).1
      have hframe := frame_replayManifest env (fs.replayArgs m) { st with core := fs }
      have hspill := congrArg Core.pendingSpill hframe
      have hwrite := congrArg Core.writeTypeCache hframe
      simp only [Core.frame, hfs] at hspill hwrite
      simp only [hfs] at hcache hright ⊢
      refine ⟨?_, ?_, hright⟩
      · rw [hspill, hcache]
        refine hinv.agrees.congr (fun k hk => ?_)
        exact (after_of_not_mem (fun hsent => hapart.behind k hsent hk.mem_keys) _).symm
      · rw [hspill, hcache, hwrite, ← hinv.synced]
        exact after_comm (fun k hk => hapart.ahead k (mem_keys_of_mem_sentKeys hk)) _

/-- What spilling the step has to meet: its new types are in the queue, or there are none. -/
def SpillTypesOk (env : SpillEnv) (fs : Core) : Prop :=
  TypesOutliveBuild env.build fs.writeTypeCache fs.pending
    ∧ (env.writeFails → ∀ pe ∈ fs.pending, sendsNewType fs.writeTypeCache pe = false)

/-- A spill queues the step's messages; a failed one leaves the state but for an empty group. -/
theorem spillStep_types {env : SpillEnv} {fs : Core} (hok : SpillTypesOk env fs) :
    (∃ file m, spillStep env fs = .ok { fs with
        file := file, writeTypeCache := after fs.writeTypeCache (typeMsgs m.entries)
        pendingSpill := fs.pendingSpill ++ [⟨fs.physicalStep, m, fs.pending.map (·.payload)⟩] }
        ∧ Agrees fs.writeTypeCache (typeMsgs m.entries))
      ∨ ∃ file, spillStep env fs = .fail { fs with file := file } := by
  obtain ⟨hout, hwrite⟩ := hok
  unfold spillStep discardStep
  split
  · exact .inr ⟨fs.file, rfl⟩
  · rw [Outcome.bind_ok]
    split
    · exact .inr ⟨_, rfl⟩
    · cases hbuild : buildManifest env.build { fs with file := fs.file.ensure fs.physicalStep } with
      | mk fs' res =>
        cases res with
        | none =>
          rw [buildManifest_none (by exact hout) hbuild]
          exact .inr ⟨_, rfl⟩
        | some m =>
          obtain ⟨hfs, hmsgs⟩ := buildManifest_some hbuild
          simp only at hfs hmsgs ⊢
          split
          · rename_i hfails
            rw [hmsgs, encode_of_sends_nothing (hwrite hfails)] at hfs
            exact .inr ⟨_, by rw [hfs]⟩
          · refine .inl ⟨fs.file.ensure fs.physicalStep, m, ?_, ?_⟩
            · rw [hfs]
            · rw [hmsgs]
              exact agrees_encode _ _

theorem spilled_types {env : EndEnv} {st : Replay} (hspill : SpillTypesOk env.spill st.core)
    (hreplay : (spillStep env.spill st.core).isOk = false → ReplayTypesOk env.build env.replay st.core)
    (hinv : TypesInv st) : TypesInv (spilled env st).state := by
  unfold spilled
  rcases spillStep_types hspill with ⟨file, m, h, hagree⟩ | ⟨file, h⟩
  · rw [h]
    refine ⟨?_, ?_, hinv.right⟩
    · simp only [Outcome.state_ok]
      rw [queueMsgs_append, agrees_append, hinv.synced]
      refine ⟨hinv.agrees, ?_⟩
      simpa [queueMsgs] using hagree
    · simp only [Outcome.state_ok]
      rw [queueMsgs_append, after_append, hinv.synced]
      simp [queueMsgs]
  · have hok := hreplay (by rw [h]; rfl)
    rw [h]
    refine replayStep_types ⟨hok.1, ?_⟩ ⟨hinv.agrees, hinv.synced, hinv.right⟩
    rw [buildManifest_file]
    exact hok.2

/-! ## Runs -/

/-- What an `H5Fend_step` has to meet for the type dictionary to stay in lockstep. -/
def EndTypesOk (env : EndEnv) (w : Writer) : Prop :=
  let st : Replay := ⟨w.core.folded env, [], w.lookups⟩
  (st.core.activePolicy.isSome → DrainTypesOk env.drain 0 st.core.pendingSpill)
    ∧ match st.core.fate env.lag with
      | .drop => True
      | .replay => ReplayTypesOk env.build env.replay (drained env st).core
      | .spill => SpillTypesOk env.spill (drained env st).core
          ∧ ((spillStep env.spill (drained env st).core).isOk = false →
              ReplayTypesOk env.build env.replay (drained env st).core)

def TypesOkAt (w : Writer) : Event → Prop
  | .endStep env => w.core.stepState = .inStep → EndTypesOk env w
  | _ => True

theorem applyQueuePolicy_types {env : EndEnv} {w : Writer} (hok : EndTypesOk env w)
    (hinv : TypesInv ⟨w.core.folded env, [], w.lookups⟩) :
    TypesInv (applyQueuePolicy env ⟨w.core.folded env, [], w.lookups⟩).state := by
  obtain ⟨hdrain, hfate⟩ := hok
  have hdrained := drained_types hdrain hinv
  rw [applyQueuePolicy_eq]
  cases hf : (w.core.folded env).fate env.lag with
  | replay =>
    rw [hf] at hfate
    exact replayStep_types hfate hdrained
  | drop =>
    simp only
    unfold dropped discardStep
    split
    · rename_i h
      split at h
      · cases h
      · cases h
        exact ⟨hdrained.agrees, hdrained.synced, hdrained.right⟩
    · rename_i h
      split at h
      · cases h
        exact ⟨hdrained.agrees, hdrained.synced, hdrained.right⟩
      · cases h
  | spill =>
    rw [hf] at hfate
    exact spilled_types hfate.1 hfate.2 hdrained

theorem endStep_types {env : EndEnv} {w : Writer} (hok : w.core.stepState = .inStep → EndTypesOk env w)
    (hinv : TypesInv ⟨w.core, [], w.lookups⟩) :
    TypesInv ⟨(endStep env w).state.core, [], (endStep env w).state.lookups⟩ := by
  unfold endStep
  by_cases hstep : w.core.stepState = .inStep
  · rw [if_neg (not_not_intro hstep)]
    have hfolded : TypesInv ⟨w.core.folded env, [], w.lookups⟩ := by
      obtain ⟨pending, bytes, hfold⟩ := folded_eq w.core env
      rw [hfold]
      exact ⟨hinv.agrees, hinv.synced, hinv.right⟩
    have hpolicy := applyQueuePolicy_types (hok hstep) hfolded
    simp only
    cases happly : applyQueuePolicy env ⟨w.core.folded env, [], w.lookups⟩ with
    | ok st =>
      rw [happly] at hpolicy
      exact ⟨hpolicy.agrees, hpolicy.synced, hpolicy.right⟩
    | fail st =>
      rw [happly] at hpolicy
      exact ⟨hpolicy.agrees, hpolicy.synced, hpolicy.right⟩
  · rw [if_pos hstep]
    exact hinv

theorem apply_types {w : Writer} {ev : Event} (hinv : TypesInv ⟨w.core, [], w.lookups⟩)
    (hok : TypesOkAt w ev) :
    TypesInv ⟨(w.apply ev).state.core, [], (w.apply ev).state.lookups⟩ := by
  by_cases hev : ∃ env, ev = .endStep env
  · obtain ⟨env, rfl⟩ := hev
    exact endStep_types hok hinv
  · have hcap := committed_apply w (fun env h => hev ⟨env, h⟩)
    have hreplay := congrArg Core.replayTypeCache hcap.1
    have hwrite := congrArg Core.writeTypeCache hcap.1
    have hspill := congrArg Core.pendingSpill hcap.1
    simp only [Core.committed] at hreplay hwrite hspill
    refine ⟨?_, ?_, ?_⟩
    · simp only [hreplay, hspill]
      exact hinv.agrees
    · simp only [hreplay, hspill, hwrite]
      exact hinv.synced
    · rw [hcap.2]
      exact hinv.right

/-- In every run whose commits keep the lockstep, every omitted type is looked up as it was
omitted. -/
theorem lookups_right {config : Config} {events : List Event}
    (hok : (Writer.init config).Meets TypesOkAt events) :
    LookupsRight ((Writer.init config).run events).lookups := by
  have hinv : TypesInv ⟨((Writer.init config).run events).core, [],
      ((Writer.init config).run events).lookups⟩ :=
    Writer.run_keeps (P := fun w => TypesInv ⟨w.core, [], w.lookups⟩)
      (fun w ev hw hev => apply_types hw hev) ⟨trivial, rfl, fun _ h => by cases h⟩ hok
  exact hinv.right

/-! ### A type lost, and a failed step that loses none -/

/-- Two creates of one name make the first replay fail before it reaches the write of `/b`,
whose type the encoder already counts as sent. -/
def lostTypeRun : List Event :=
  [.beginStep [] 0, createByte 0 ['a'], createByte 1 ['a'], createByte 2 ['b'], writeByte 2,
    .endStep (.createFails 1),
    .beginStep [] 1, createByte 3 ['b'], writeByte 3, .endStep .quiet]

/-- The later step is refused: the type its write omits was never recorded. -/
theorem lostTypeRun_not_right :
    ¬ ∀ config events, LookupsRight ((Writer.init config).run events).lookups := by
  intro h
  have hlookups : ((Writer.init .plain).run lostTypeRun).lookups = [⟨nativeUchar, none⟩] := by decide
  have hright := h .plain lostTypeRun ⟨nativeUchar, none⟩ (by rw [hlookups]; exact List.mem_cons_self)
  cases hright

theorem typesOkAt_of_no_policy {w : Writer} {env : EndEnv} (hpolicy : (w.core.folded env).activePolicy = none)
    (hok : ReplayTypesOk env.build env.replay (w.core.folded env)) : TypesOkAt w (.endStep env) := by
  intro _
  have hfate : (w.core.folded env).fate env.lag = .replay := by
    unfold Core.fate
    rw [hpolicy]
  have hdrained : drained env ⟨w.core.folded env, [], w.lookups⟩ = ⟨w.core.folded env, [], w.lookups⟩ := by
    unfold drained
    rw [hpolicy]
    rfl
  unfold EndTypesOk
  simp only [hpolicy, hfate, hdrained]
  exact ⟨(by intro h; cases h), hok⟩

/-- The middle step fails after its write; both later lookups are right. -/
def keptTypeRun : List Event :=
  [.beginStep [] 0, createByte 0 ['b'], writeByte 0, .endStep .quiet,
    .beginStep [] 1, createByte 1 ['b'], writeByte 1, createByte 2 ['a'], createByte 3 ['a'],
    .endStep (.createFails 3),
    .beginStep [] 2, createByte 4 ['b'], writeByte 4, .endStep .quiet]

theorem keptTypeRun_right :
    ((Writer.init .plain).run keptTypeRun).lookups.length = 2
      ∧ LookupsRight ((Writer.init .plain).run keptTypeRun).lookups := by
  refine ⟨by decide, lookups_right ?_⟩
  have hbuild : ∀ fs : Core, TypesOutliveBuild .quiet fs.writeTypeCache fs.pending :=
    fun _ _ _ _ _ => ⟨rfl, rfl, fun _ _ _ => rfl⟩
  refine ⟨trivial, trivial, trivial, ?_, trivial, trivial, trivial, trivial, trivial, ?_, trivial,
    trivial, trivial, ?_, trivial⟩
  · exact typesOkAt_of_no_policy rfl ⟨hbuild _, ⟨by decide, by decide, by decide⟩, by decide, by decide⟩
  · exact typesOkAt_of_no_policy rfl ⟨hbuild _, ⟨by decide, by decide, by decide⟩, by decide, by decide⟩
  · exact typesOkAt_of_no_policy rfl ⟨hbuild _, ⟨by decide, by decide, by decide⟩, by decide, by decide⟩

end VolStream
