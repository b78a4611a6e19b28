import VolStream.Writer.Schema

/-!
# A steady stream and its schema

A step that rewrites what the schema already holds has nothing to publish. The fold compares an entry with
the row of its path by kind, datatype and extent, and one path has one row: an entry of another kind than
the row replaces it, whatever the datatype and the extent. A dataset written in a step has a create and
a write at one path, so one of the two always differs from the row.
-/

namespace VolStream

/-- Every entry names a path of the schema, with the datatype and the extent the schema holds for it. -/
def Rewrites (s : Schema) (pending : List PendingEntry) : Prop :=
  ∀ pe ∈ pending, (s.rows.find? pe.path).map SchemaRow.shape = some (pe.type, pe.space.extent)

/-- Every entry has the kind the schema holds for its path. -/
def SameKinds (s : Schema) (pending : List PendingEntry) : Prop :=
  ∀ pe ∈ pending, (s.rows.find? pe.path).map SchemaRow.kind = some pe.kind

/-- An entry that agrees with its row in all three parts is the row. -/
theorem row_of_sameKind {s : Schema} {pe : PendingEntry}
    (hshape : (s.rows.find? pe.path).map SchemaRow.shape = some (pe.type, pe.space.extent))
    (hkind : (s.rows.find? pe.path).map SchemaRow.kind = some pe.kind) : s.rows.find? pe.path = some pe.row.2 := by
  cases hrow : s.rows.find? pe.path with
  | none =>
    rw [hrow] at hkind
    cases hkind
  | some row =>
    rw [hrow, Option.map_some, Option.some.injEq] at hshape hkind
    obtain ⟨htype, hextent⟩ := Prod.mk.inj hshape
    rw [PendingEntry.row, ← hkind, ← htype, ← hextent]

theorem schemaUpsert_of_row {s : Schema} {pe : PendingEntry} (h : s.rows.find? pe.path = some pe.row.2) (fails : Bool) :
    schemaUpsert fails s pe = s := if_pos h

/-- Rows that are all there already leave the schema as it is, whatever fails. -/
theorem foldSchema_of_rows {env : PublishEnv} {pending : List PendingEntry} {s : Schema}
    (h : ∀ pe ∈ pending, s.rows.find? pe.path = some pe.row.2) : foldSchema env pending s = s := by
  have hfold : ∀ l : List (PendingEntry × Nat), (∀ pi ∈ l, pi.1 ∈ pending) →
      l.foldl (fun s pi => schemaUpsert (env.upsertFails pi.2) s pi.1) s = s := by
    intro l
    induction l with
    | nil => exact fun _ => rfl
    | cons pi l ih =>
      intro hl
      rw [List.foldl_cons, schemaUpsert_of_row (h pi.1 (hl pi List.mem_cons_self))]
      exact ih fun pi' hpi' => hl pi' (List.mem_cons_of_mem _ hpi')
  exact hfold _ fun pi hpi => List.fst_mem_of_mem_zipIdx hpi

/-- Once dirty, the fold leaves the schema dirty. -/
theorem dirty_foldl {env : PublishEnv} (l : List (PendingEntry × Nat)) {s : Schema} (h : s.dirty = true) :
    (l.foldl (fun s pi => schemaUpsert (env.upsertFails pi.2) s pi.1) s).dirty = true := by
  induction l generalizing s with
  | nil => exact h
  | cons pi l ih =>
    rw [List.foldl_cons]
    refine ih ?_
    unfold schemaUpsert
    split
    · exact h
    · split
      · exact h
      · rfl

/-- A fold in which nothing fails and that leaves the schema clean found every row there. -/
theorem rows_of_clean {pending : List PendingEntry} {s : Schema}
    (h : (foldSchema .quiet pending s).dirty = false) : ∀ pe ∈ pending, s.rows.find? pe.path = some pe.row.2 := by
  have hfold : ∀ l : List (PendingEntry × Nat),
      (l.foldl (fun s pi => schemaUpsert (PublishEnv.quiet.upsertFails pi.2) s pi.1) s).dirty = false →
        ∀ pi ∈ l, s.rows.find? pi.1.path = some pi.1.row.2 := by
    intro l
    induction l with
    | nil => exact fun _ => List.forall_mem_nil _
    | cons pi l ih =>
      intro hclean
      rw [List.foldl_cons] at hclean
      by_cases hrow : s.rows.find? pi.1.path = some pi.1.row.2
      · rw [schemaUpsert_of_row hrow] at hclean
        exact List.forall_mem_cons.mpr ⟨hrow, ih hclean⟩
      · -- the first entry that differs makes the schema dirty for good
        have hdirty : (schemaUpsert (PublishEnv.quiet.upsertFails pi.2) s pi.1).dirty = true := by
          unfold schemaUpsert
          rw [if_neg hrow]
          rfl
        rw [dirty_foldl l hdirty] at hclean
        cases hclean
  intro pe hpe
  obtain ⟨i, hi⟩ := List.getElem?_of_mem hpe
  exact hfold _ h (pe, i) (List.mem_zipIdx_iff_getElem?.mpr hi)

/-- A commit that rewrites what a published schema holds leaves it alone and publishes nothing exactly when
every entry has the kind of its row. -/
theorem steady_publishes_nothing_iff {s : Schema} {pending : List PendingEntry} (hpublished : s.dirty = false)
    (hknown : Rewrites s pending) :
    (∀ env, publishSchema env true pending s = (s, none)) ↔ SameKinds s pending := by
  constructor
  · intro h pe hpe
    have hclean : (foldSchema .quiet pending s).dirty = false := by
      cases hdirty : (foldSchema .quiet pending s).dirty with
      | false => rfl
      | true =>
        -- a dirty schema is handed over
        have hsent : (publishSchema .quiet true pending s).2 = some (foldSchema .quiet pending s).rows := by
          simp only [publishSchema, Bool.not_true, hdirty]
          rfl
        rw [h .quiet] at hsent
        cases hsent
    rw [rows_of_clean hclean pe hpe]
    rfl
  · intro h env
    have hfold : foldSchema env pending s = s :=
      foldSchema_of_rows fun pe hpe => row_of_sameKind (hknown pe hpe) (h pe hpe)
    simp [publishSchema, hfold, hpublished]

-- step 0 writes a byte to `/a`, and step 1 is about to do the same
def sameByteRun : List PublishEvent :=
  [⟨.beginStep [] 0, .quiet⟩, ⟨createByte 0 ['a'], .quiet⟩, ⟨writeByte 0, .quiet⟩, ⟨.endStep .quiet, .quiet⟩,
    ⟨.beginStep [] 1, .quiet⟩, ⟨createByte 1 ['a'], .quiet⟩, ⟨writeByte 1, .quiet⟩]

/-- The second commit rewrites exactly what the first one published, and publishes again: the row of `/a`
says write, so the create replaces it, and the write replaces that. -/
theorem sameByteRun_publishes_again :
    let s := (Publisher.after .staging sameByteRun).schema
    let pending := pendingAt .quiet (Publisher.after .staging sameByteRun).writer
    s.dirty = false ∧ Rewrites s pending ∧ (publishSchema .quiet true pending s).2 = some s.rows ∧
      ¬ ∀ env, publishSchema env true pending s = (s, none) := by
  have hagain : (publishSchema .quiet true (pendingAt .quiet (Publisher.after .staging sameByteRun).writer)
      (Publisher.after .staging sameByteRun).schema).2 = some (Publisher.after .staging sameByteRun).schema.rows := by
    decide
  refine ⟨by decide, by unfold Rewrites; decide, hagain, fun h => ?_⟩
  rw [h .quiet] at hagain
  cases hagain

-- an attribute is one entry a step
def attrRow : Schema := ⟨[(['/', '@', 'u'], ⟨.attr, nativeUchar, .scalar⟩)], false⟩
def attrEntry : PendingEntry := ⟨.attr, ['/', '@', 'u'], nativeUchar, ⟨.scalar, .all⟩, none, .bytes [7], none⟩

theorem attrEntry_publishes_nothing : Rewrites attrRow [attrEntry] ∧
    ∀ env, publishSchema env true [attrEntry] attrRow = (attrRow, none) := by
  have hknown : Rewrites attrRow [attrEntry] := by unfold Rewrites; decide
  exact ⟨hknown, (steady_publishes_nothing_iff rfl hknown).mpr (by unfold SameKinds; decide)⟩

end VolStream
