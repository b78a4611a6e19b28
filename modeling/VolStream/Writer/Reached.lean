import VolStream.Writer.Replay

/-!
# How far a replay gets

Whether the replay of an entry fails is decided by the entry, the answers it gets, the replay
type cache and what the path index holds of earlier steps. So the entries a failing replay
reaches can be told beforehand.
-/

namespace VolStream

/-! ## When an entry stops the replay -/

/-- The entry fails before its path is indexed. -/
def unindexed (env : ReplayEnv) (args : ReplayArgs) (r : TypeCache) (ie : Nat × Entry) : Bool :=
  args.outOfBounds ie.2
    || (decide (ie.2.kind = .dsetWrite) && ie.2.typeEnc.field.isNone && (r ie.2.path).isNone)
    || (ie.2.kind.indexed && env.fails ie.1 .indexAdd)

/-- The entry fails before its object is tried. -/
def unresolved (env : ReplayEnv) (args : ReplayArgs) (r : TypeCache) (ie : Nat × Entry) : Bool :=
  unindexed env args r ie || env.fails ie.1 .typeDecode
    || (sendsType ie.2 && env.fails ie.1 .cacheUpsert) || dcplFails env ie.1 ie.2

-- the step before holds a copy of the dataset an attribute hangs on
def earlierCopy (idx : PathIndex) (n : Nat) (parent : Path) : Option Nat :=
  if n = 0 then none else pathIndexResolve idx parent (n - 1)

/-- All three attempts to create an attribute fail. -/
def attrStops (env : ReplayEnv) (idx : PathIndex) (n i : Nat) (parent : Path) : Bool :=
  env.fails i .attrProbe
    && ((earlierCopy idx n parent).isNone || env.fails i .aliasCreate || env.fails i .attrOnAlias)
    && (env.fails i .ensureAttrGroup || env.fails i .attrCreate)

/-- The entry's object cannot be made. -/
def objectStops (env : ReplayEnv) (args : ReplayArgs) (idx : PathIndex) (t : Datatype) (ie : Nat × Entry) :
    Bool :=
  let fails := env.fails ie.1
  match ie.2.kind with
  | .dsetCreate => fails .ensureParent || fails .create
  | .dsetWrite =>
      !createdBefore args.manifest.entries ie.1 ie.2.path || fails .memSpace
        || (decide (t.vlKind ≠ .none) && fails .vlDeserialize) || fails .write
  | .attr =>
      match attrParent ie.2.path with
      | none => true
      | some parent =>
          attrStops env idx args.manifest.physicalStep ie.1 parent
            || (decide (ie.2.payloadLen ≠ 0)
              && ((decide (t.vlKind ≠ .none ∧ 0 < ie.2.space.npoints) && fails .vlDeserialize)
                || fails .attrWrite))
  | .link => false
  | .group => false

/-- The entry stops the replay. -/
def entryStops (env : ReplayEnv) (args : ReplayArgs) (idx : PathIndex) (r : TypeCache) (ie : Nat × Entry) :
    Bool :=
  unresolved env args r ie
    || match entryType (recordedTypes r ie.2) ie.2 with
      | none => true
      | some t => objectStops env args idx t ie

theorem isOk_check (b : Bool) (st : Replay) : (Replay.check b st).isOk = !b := by
  cases b <;> rfl

theorem state_check (b : Bool) (st : Replay) : (Replay.check b st).state = st := by
  cases b <;> rfl

theorem isOk_resolveEntry (env : ReplayEnv) (args : ReplayArgs) (ie : Nat × Entry) (st : Replay) :
    (resolveEntry env args ie.1 ie.2 st).isOk = !unresolved env args st.core.replayTypeCache ie := by
  have hlookup : (lookupOmitted ie.2 st).isOk = !(decide (ie.2.kind = .dsetWrite)
      && ie.2.typeEnc.field.isNone && (st.core.replayTypeCache ie.2.path).isNone) := by
    unfold lookupOmitted
    cases hk : ie.2.kind <;> cases ht : ie.2.typeEnc <;> try rfl
    simp only
    cases hfound : st.core.replayTypeCache ie.2.path <;> simp [TypeEnc.field]
  have hindex : ∀ st : Replay, (indexReplayed env args.manifest.physicalStep ie.1 ie.2 st).isOk
      = !(ie.2.kind.indexed && env.fails ie.1 .indexAdd) := by
    intro st
    unfold indexReplayed
    cases ie.2.kind.indexed && env.fails ie.1 .indexAdd <;> rfl
  have hrecord : ∀ st : Replay, (recordSent env ie.1 ie.2 st).isOk
      = !(sendsType ie.2 && env.fails ie.1 .cacheUpsert) := by
    intro st
    unfold recordSent sendsType
    cases hk : ie.2.kind <;> cases ht : ie.2.typeEnc <;> try rfl
    cases env.fails ie.1 .cacheUpsert <;> rfl
  unfold resolveEntry unresolved unindexed
  simp only [Outcome.isOk_bind, isOk_check, state_check, hlookup, hindex, hrecord, Bool.not_or,
    Bool.and_assoc]

theorem isOk_createAttr (env : ReplayEnv) (n i : Nat) (e : Entry) (t : Datatype) (parent : Path)
    (st : Replay) :
    (createAttr env n i e t parent st).isOk = !attrStops env st.core.pathIndex n i parent := by
  unfold createAttr attrStops earlierCopy
  cases env.fails i .attrProbe with
  | false => rfl
  | true =>
    simp only [Bool.not_true, Bool.false_eq_true, if_false, Bool.true_and]
    cases (if n = 0 then none else pathIndexResolve st.core.pathIndex parent (n - 1)) with
    | none => cases env.fails i .ensureAttrGroup <;> cases env.fails i .attrCreate <;> rfl
    | some r =>
      cases env.fails i .aliasCreate <;> cases env.fails i .attrOnAlias <;>
        cases env.fails i .ensureAttrGroup <;> cases env.fails i .attrCreate <;> rfl

theorem isOk_applyEntry (env : ReplayEnv) (args : ReplayArgs) (ie : Nat × Entry) (t : Datatype)
    (st : Replay) :
    (applyEntry env args ie.1 ie.2 t st).isOk = !objectStops env args st.core.pathIndex t ie := by
  unfold applyEntry objectStops
  cases hk : ie.2.kind with
  | dsetCreate =>
    simp only
    cases env.fails ie.1 .ensureParent <;> cases env.fails ie.1 .create <;> rfl
  | dsetWrite =>
    simp only
    cases createdBefore args.manifest.entries ie.1 ie.2.path <;> cases env.fails ie.1 .memSpace <;>
      try rfl
    by_cases hvl : t.vlKind = .none <;> cases env.fails ie.1 .vlDeserialize <;>
      cases env.fails ie.1 .write <;> simp [hvl]
  | attr =>
    simp only
    cases attrParent ie.2.path with
    | none => rfl
    | some parent =>
      simp only
      rw [Outcome.isOk_bind, isOk_createAttr, Bool.not_or]
      congr 1
      by_cases hlen : ie.2.payloadLen = 0
      · simp [hlen]
      · by_cases hvl : t.vlKind ≠ .none ∧ 0 < ie.2.space.npoints
        · rw [if_neg hlen, decide_eq_true hvl]
          cases env.fails ie.1 .vlDeserialize <;> cases env.fails ie.1 .attrWrite <;>
            simp [hlen, hvl.1, hvl.2]
        · rw [if_neg hlen, if_neg (fun h => hvl ⟨h.1, h.2.1⟩), decide_eq_false hvl]
          cases env.fails ie.1 .attrWrite <;> simp [hlen]
  | link => rfl
  | group => rfl

/-! ## The index during a replay

Replay at step `n` appends `n` to the lists of the index, which a look at earlier steps does not
see. -/

/-- `idx'` is `idx` with step `n` appended. -/
def Appended (n : Nat) (idx idx' : PathIndex) : Prop :=
  ∀ path, ∃ c, (idx' path).steps = (idx path).steps ++ List.replicate c n

theorem Appended.refl (n : Nat) (idx : PathIndex) : Appended n idx idx :=
  fun _ => ⟨0, (List.append_nil _).symm⟩

theorem Appended.trans {n : Nat} {a b c : PathIndex} (hab : Appended n a b) (hbc : Appended n b c) :
    Appended n a c := by
  intro path
  obtain ⟨j, hj⟩ := hab path
  obtain ⟨k, hk⟩ := hbc path
  refine ⟨j + k, ?_⟩
  rw [hk, hj, List.append_assoc, List.replicate_append_replicate]

theorem appended_indexEntry (idx : PathIndex) (n : Nat) (kind : Kind) (path : Path) :
    Appended n idx (indexEntry idx n kind path) := by
  intro path'
  rw [steps_indexEntry]
  by_cases h : kind.indexed ∧ path = path'
  · exact ⟨1, if_pos h⟩
  · exact ⟨0, by rw [if_neg h, List.replicate_zero, List.append_nil]⟩

theorem earlierCopy_appended {n : Nat} {idx idx' : PathIndex} (h : Appended n idx idx') (parent : Path) :
    earlierCopy idx' n parent = earlierCopy idx n parent := by
  unfold earlierCopy
  split
  · rfl
  · obtain ⟨c, hc⟩ := h parent
    unfold pathIndexResolve
    have hpast : (List.replicate c n).find? (· ≤ n - 1) = none := by
      rw [List.find?_eq_none]
      intro k hk
      rw [List.eq_of_mem_replicate hk]
      simp only [decide_eq_true_eq]
      omega
    rw [hc, List.reverse_append, List.reverse_replicate, List.find?_append, hpast, Option.none_or]

theorem objectStops_appended {env : ReplayEnv} {args : ReplayArgs} {idx idx' : PathIndex}
    (h : Appended args.manifest.physicalStep idx idx') (t : Datatype) (ie : Nat × Entry) :
    objectStops env args idx' t ie = objectStops env args idx t ie := by
  unfold objectStops attrStops
  simp only [earlierCopy_appended h]

theorem appended_replayEntry (env : ReplayEnv) (args : ReplayArgs) (ie : Nat × Entry) (st : Replay) :
    Appended args.manifest.physicalStep st.core.pathIndex (replayEntry env args ie st).state.core.pathIndex := by
  rcases replayEntry_core env args ie st with ⟨h, -⟩ | ⟨r, ops, links, -, -, -, h⟩
  · rw [h]
    exact .refl _ _
  · rw [h]
    exact appended_indexEntry _ _ _ _

/-- An entry's replay fails exactly when it stops. -/
theorem isOk_replayEntry {env : ReplayEnv} {args : ReplayArgs} {ie : Nat × Entry} {st : Replay}
    {idx : PathIndex} (hidx : Appended args.manifest.physicalStep idx st.core.pathIndex) :
    (replayEntry env args ie st).isOk = !entryStops env args idx st.core.replayTypeCache ie := by
  have hresolve := isOk_resolveEntry env args ie st
  unfold replayEntry entryStops
  rw [Outcome.isOk_bind, Bool.not_or, ← hresolve]
  cases hok : (resolveEntry env args ie.1 ie.2 st).isOk with
  | false => rfl
  | true =>
    have hstate : (resolveEntry env args ie.1 ie.2 st).state = st.resolved args.manifest.physicalStep ie.2 := by
      rcases resolveEntry_cases env args ie.1 ie.2 st with ⟨h, -⟩ | ⟨h, -⟩ | ⟨h, -⟩ | ⟨h, -⟩ | h <;>
        rw [h] at hok ⊢ <;> first | rfl | cases hok
    rw [hstate, Bool.true_and, Bool.true_and, resolved_core]
    simp only
    cases entryType (recordedTypes st.core.replayTypeCache ie.2) ie.2 with
    | none => rfl
    | some t =>
      have happ : Appended args.manifest.physicalStep idx
          (st.resolved args.manifest.physicalStep ie.2).core.pathIndex := by
        rw [resolved_core]
        exact hidx.trans (appended_indexEntry _ _ _ _)
      simp only
      rw [isOk_applyEntry, objectStops_appended happ]

/-! ## The entries reached -/

/-- The entries a replay gets to: those before the first that stops it, and that one. -/
def reached (env : ReplayEnv) (args : ReplayArgs) (idx : PathIndex) :
    TypeCache → List (Nat × Entry) → List (Nat × Entry)
  | _, [] => []
  | r, ie :: l =>
      ie :: if entryStops env args idx r ie then [] else reached env args idx (recordedTypes r ie.2) l

end VolStream
