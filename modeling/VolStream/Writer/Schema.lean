import VolStream.Lib.Run
import VolStream.Writer.Disposal

/-!
# The published schema

With a transport, every commit folds the entries it captured into the file's schema and hands a
changed schema to the transport, where a live reader can query it. The fold looks at the pending
buffer and not at what became of the step: a step that was dropped, or queued for later, is folded
like one that was replayed.
-/

namespace VolStream

/-! ## The schema -/

/-- `H5VL_stream_schema_entry_t`, less its path and the encodings made from these. -/
structure SchemaRow where
  kind : Kind
  type : Datatype
  extent : Extent
deriving DecidableEq, Repr

-- `schema` and `schema_dirty`
structure Schema where
  rows : Table Path SchemaRow
  dirty : Bool
deriving DecidableEq, Repr

def PendingEntry.row (pe : PendingEntry) : Path × SchemaRow := (pe.path, ⟨pe.kind, pe.type, pe.space.extent⟩)

/-- `H5VL__stream_schema_upsert`; `fails` is a copy, an encode or an allocation that fails. -/
def schemaUpsert (fails : Bool) (s : Schema) (pe : PendingEntry) : Schema :=
  if s.rows.find? pe.path = some pe.row.2 then s
  else if fails then s
  else ⟨s.rows.set pe.path pe.row.2, true⟩

/-- The answers of one publication: which entry cannot be folded, and whether the blob can be
packed. -/
structure PublishEnv where
  upsertFails : Nat → Bool
  encodeFails : Bool

def PublishEnv.quiet : PublishEnv := ⟨fun _ => false, false⟩

def foldSchema (env : PublishEnv) (pending : List PendingEntry) (s : Schema) : Schema :=
  pending.zipIdx.foldl (fun s pi => schemaUpsert (env.upsertFails pi.2) s pi.1) s

/-- `H5VL__stream_publish_schema`: the schema it leaves, and the one it hands to the transport. -/
def publishSchema (env : PublishEnv) (transport : Bool) (pending : List PendingEntry) (s : Schema) :
    Schema × Option (Table Path SchemaRow) :=
  if !transport then (s, none)
  else
    let s := foldSchema env pending s
    if !s.dirty || env.encodeFails then (s, none)
    else ({ s with dirty := false }, some s.rows)

/-! ## A writer that publishes -/

structure Publisher where
  writer : Writer
  schema : Schema

def Publisher.init (config : Config) : Publisher := ⟨.init config, ⟨[], false⟩⟩

/-- An event of the writer, with the answers of the publication should it commit a step. -/
structure PublishEvent where
  ev : Event
  env : PublishEnv

-- the pending buffer when the queue policy has done its work
def pendingAt (env : EndEnv) (w : Writer) : List PendingEntry :=
  (applyQueuePolicy env ⟨w.core.folded env, [], w.lookups⟩).state.core.pending

/-- The schema an event leaves, and the one it hands over. -/
def Publisher.publish (s : Publisher) : PublishEvent → Schema × Option (Table Path SchemaRow)
  | ⟨.endStep env, pub⟩ =>
      if (endStep env s.writer).isOk then
        publishSchema pub s.writer.core.config.transport (pendingAt env s.writer) s.schema
      else (s.schema, none)
  | _ => (s.schema, none)

def Publisher.apply (s : Publisher) (e : PublishEvent) : Publisher :=
  ⟨(s.writer.apply e.ev).state, (s.publish e).1⟩

/-! ## The steps in the file -/

/-- A step whose entries were replayed into the file. -/
structure Replayed where
  number : Nat
  rows : List (Path × SchemaRow)
deriving DecidableEq, Repr

-- the type the entry was captured with
def TypeEnc.type : TypeEnc → Datatype
  | .sent t => t
  | .omitted t => t

def Entry.row (e : Entry) : Path × SchemaRow := (e.path, ⟨e.kind, e.typeEnc.type, e.space.extent⟩)

def SpillEntry.replayed (q : SpillEntry) : Replayed := ⟨q.physicalStep, q.manifest.entries.map Entry.row⟩

/-- The steps an event replays: queued ones, and its own. -/
def Publisher.replays (s : Publisher) : PublishEvent → List Replayed
  | ⟨.endStep env, _⟩ =>
      (s.writer.drains env).map SpillEntry.replayed
        ++ if (endStep env s.writer).isOk ∧ s.writer.disposal env = .replay then
            [⟨s.writer.core.physicalStep, (s.writer.core.folded env).pending.map PendingEntry.row⟩] else []
  | _ => []

def Publisher.after (config : Config) (events : List PublishEvent) : Publisher :=
  Runs.run Publisher.apply (.init config) events

def Publisher.replayed (config : Config) (events : List PublishEvent) : List Replayed :=
  Runs.observed Publisher.apply Publisher.replays (.init config) events

/-- What a step last said of a path. -/
def Replayed.row? (r : Replayed) (path : Path) : Option SchemaRow := Table.find? r.rows.reverse path

/-- The step is the last of `steps` that carries the path. -/
def IsLast (steps : List Replayed) (path : Path) (r : Replayed) : Prop :=
  r ∈ steps ∧ (r.row? path).isSome ∧
    ∀ r' ∈ steps, (r'.row? path).isSome → r' = r ∨ r'.number < r.number

/-- Every path of the schema is carried by a replayed step, and has the datatype and the extent the
last such step gave it. -/
def Truthful (steps : List Replayed) (rows : Table Path SchemaRow) : Prop :=
  ∀ path row, rows.find? path = some row → ∃ r row', IsLast steps path r ∧ r.row? path = some row'
    ∧ row'.type = row.type ∧ row'.extent = row.extent

-- the datatype and the extent
def SchemaRow.shape (row : SchemaRow) : Datatype × Extent := (row.type, row.extent)

/-- Folding the entries fails nowhere and, when the step is dropped or queued, leaves every path the
datatype and the extent it had. -/
def PublishOkAt (s : Publisher) : PublishEvent → Prop
  | ⟨.endStep env, pub⟩ => s.writer.core.config.transport → (endStep env s.writer).isOk →
      (∀ i, pub.upsertFails i = false) ∧
        (s.writer.disposal env ≠ .replay → ∀ path,
          ((foldSchema pub (pendingAt env s.writer) s.schema).rows.find? path).map SchemaRow.shape
            = (s.schema.rows.find? path).map SchemaRow.shape)
  | _ => True

/-! ## Folding -/

theorem find?_foldSchema {env : PublishEnv} (hok : ∀ i, env.upsertFails i = false) (pending : List PendingEntry)
    (s : Schema) (path : Path) :
    (foldSchema env pending s).rows.find? path
      = (Table.find? (pending.map PendingEntry.row).reverse path).or (s.rows.find? path) := by
  have hfold : ∀ (l : List (PendingEntry × Nat)) (s : Schema),
      (l.foldl (fun s pi => schemaUpsert (env.upsertFails pi.2) s pi.1) s).rows.find? path
        = (Table.find? (l.map fun pi => pi.1.row).reverse path).or (s.rows.find? path) := by
    intro l
    induction l with
    | nil => exact fun _ => rfl
    | cons pi l ih =>
      intro s
      have hupsert : (schemaUpsert (env.upsertFails pi.2) s pi.1).rows.find? path
          = if pi.1.path = path then some pi.1.row.2 else s.rows.find? path := by
        unfold schemaUpsert
        split
        · rename_i hsame
          split
          · rename_i hpath
            rw [← hpath]
            exact hsame
          · rfl
        · rw [hok, if_neg Bool.false_ne_true]
          exact Table.find?_set _ _ _ _
      rw [List.foldl_cons, ih, hupsert, List.map_cons, List.reverse_cons, Table.find?_append, Option.or_assoc]
      congr 1
      show _ = (Table.find? [(pi.1.path, pi.1.row.2)] path).or _
      rw [Table.find?_cons]
      split
      · rfl
      · rfl
  unfold foldSchema
  rw [hfold]
  congr 3
  rw [show (fun pi : PendingEntry × Nat => pi.1.row) = PendingEntry.row ∘ Prod.fst from rfl, ← List.map_map,
    List.zipIdx_map_fst]

/-! ## The schema and the steps in the file -/

def Replayed.look (r : Replayed) (path : Path) : Option (Datatype × Extent) := (r.row? path).map SchemaRow.shape

def look (rows : Table Path SchemaRow) (path : Path) : Option (Datatype × Extent) :=
  (rows.find? path).map SchemaRow.shape

theorem Replayed.isSome_look (r : Replayed) (path : Path) : (r.look path).isSome = (r.row? path).isSome := by
  unfold Replayed.look
  rw [Option.isSome_map]

/-- Every path looks as the last replayed step left it, and a queued step agrees with the schema
wherever no later step has been replayed. -/
structure SchemaInv (rows : Table Path SchemaRow) (queue steps : List Replayed) (next : Nat) : Prop where
  truthful : ∀ path shape, look rows path = some shape → ∃ r, IsLast steps path r ∧ r.look path = some shape
  queued : ∀ q ∈ queue, ∀ path shape, q.look path = some shape →
    look rows path = some shape ∨ ∃ r ∈ steps, (r.row? path).isSome ∧ q.number < r.number
  order : queue.Pairwise fun q q' => q.number < q'.number
  apart : ∀ q ∈ queue, ∀ r ∈ steps, r.number ≠ q.number
  below : ∀ r ∈ steps ++ queue, r.number < next

/-- The first queued step is drained. -/
theorem SchemaInv.drain {rows : Table Path SchemaRow} {q : Replayed} {queue steps : List Replayed} {next : Nat}
    (h : SchemaInv rows (q :: queue) steps next) : SchemaInv rows queue (steps ++ [q]) next := by
  have horder := List.pairwise_cons.mp h.order
  refine ⟨fun path shape hlook => ?_, fun q' hq' path shape hlook => ?_, horder.2, fun q' hq' r hr => ?_,
    fun r hr => h.below r (by simpa using hr)⟩
  · obtain ⟨r, ⟨hr, hcarries, hlast⟩, hshape⟩ := h.truthful path shape hlook
    by_cases hlater : (q.row? path).isSome ∧ r.number < q.number
    · -- the drained step is the last now, and no later one was replayed
      refine ⟨q, ⟨List.mem_append_right _ List.mem_cons_self, hlater.1, fun r' hr' hc' => ?_⟩, ?_⟩
      · rcases List.mem_append.mp hr' with hr' | hr'
        · right
          rcases hlast r' hr' hc' with rfl | hlt
          · exact hlater.2
          · omega
        · exact .inl (List.mem_singleton.mp hr')
      · obtain ⟨shape', hshape'⟩ := Option.isSome_iff_exists.mp ((q.isSome_look path).trans hlater.1)
        rcases h.queued q List.mem_cons_self path shape' hshape' with hsame | ⟨r', hr', hc', hlt⟩
        · rw [hshape', ← hsame, hlook]
        · rcases hlast r' hr' hc' with rfl | hlt'
          · omega
          · omega
    · refine ⟨r, ⟨List.mem_append_left _ hr, hcarries, fun r' hr' hc' => ?_⟩, hshape⟩
      rcases List.mem_append.mp hr' with hr' | hr'
      · exact hlast r' hr' hc'
      · rw [List.mem_singleton.mp hr'] at hc' ⊢
        have hne := h.apart q List.mem_cons_self r hr
        right
        by_contra hnot
        exact hlater ⟨hc', by omega⟩
  · rcases h.queued q' (List.mem_cons_of_mem _ hq') path shape hlook with hsame | ⟨r, hr, hc, hlt⟩
    · exact .inl hsame
    · exact .inr ⟨r, List.mem_append_left _ hr, hc, hlt⟩
  · rcases List.mem_append.mp hr with hr | hr
    · exact h.apart q' (List.mem_cons_of_mem _ hq') r hr
    · rw [List.mem_singleton.mp hr]
      exact Nat.ne_of_lt (horder.1 q' hq')

theorem SchemaInv.drains {rows : Table Path SchemaRow} {done queue steps : List Replayed} {next : Nat}
    (h : SchemaInv rows (done ++ queue) steps next) : SchemaInv rows queue (steps ++ done) next := by
  induction done generalizing steps with
  | nil =>
    rw [List.append_nil]
    exact h
  | cons q done ih =>
    have := ih h.drain
    rw [List.append_assoc] at this
    exact this

/-- The step `next` is replayed at once. -/
theorem SchemaInv.replay {rows rows' : Table Path SchemaRow} {queue steps : List Replayed} {next : Nat}
    (h : SchemaInv rows queue steps next) {own : Replayed} (hnumber : own.number = next)
    (hrows : ∀ path, look rows' path = (own.look path).or (look rows path)) :
    SchemaInv rows' queue (steps ++ [own]) (next + 1) := by
  have hbelow : ∀ r ∈ steps, r.number < own.number := by
    intro r hr
    rw [hnumber]
    exact h.below r (List.mem_append_left _ hr)
  refine ⟨fun path shape hlook => ?_, fun q hq path shape hlook => ?_, h.order, fun q hq r hr => ?_, fun r hr => ?_⟩
  · rw [hrows] at hlook
    cases hown : own.look path with
    | some shape' =>
      rw [hown, Option.some_or] at hlook
      refine ⟨own, ⟨List.mem_append_right _ List.mem_cons_self, ?_, fun r hr _ => ?_⟩, by rw [hown]; exact hlook⟩
      · rw [← own.isSome_look, hown]
        rfl
      · rcases List.mem_append.mp hr with hr | hr
        · exact .inr (hbelow r hr)
        · exact .inl (List.mem_singleton.mp hr)
    | none =>
      rw [hown, Option.none_or] at hlook
      obtain ⟨r, ⟨hr, hcarries, hlast⟩, hshape⟩ := h.truthful path shape hlook
      refine ⟨r, ⟨List.mem_append_left _ hr, hcarries, fun r' hr' hc' => ?_⟩, hshape⟩
      rcases List.mem_append.mp hr' with hr' | hr'
      · exact hlast r' hr' hc'
      · rw [List.mem_singleton.mp hr', ← own.isSome_look, hown] at hc'
        cases hc'
  · cases hown : own.look path with
    | some shape' =>
      refine .inr ⟨own, List.mem_append_right _ List.mem_cons_self, ?_, ?_⟩
      · rw [← own.isSome_look, hown]
        rfl
      · rw [hnumber]
        exact h.below q (List.mem_append_right _ hq)
    | none =>
      rw [hrows, hown, Option.none_or]
      rcases h.queued q hq path shape hlook with hsame | ⟨r, hr, hc, hlt⟩
      · exact .inl hsame
      · exact .inr ⟨r, List.mem_append_left _ hr, hc, hlt⟩
  · rcases List.mem_append.mp hr with hr | hr
    · exact h.apart q hq r hr
    · rw [List.mem_singleton.mp hr, hnumber]
      exact Nat.ne_of_gt (h.below q (List.mem_append_right _ hq))
  · rcases List.mem_append.mp hr with hr | hr
    · rcases List.mem_append.mp hr with hr | hr
      · exact Nat.lt_succ_of_lt (h.below r (List.mem_append_left _ hr))
      · rw [List.mem_singleton.mp hr, hnumber]
        exact Nat.lt_succ_self _
    · exact Nat.lt_succ_of_lt (h.below r (List.mem_append_right _ hr))

/-- The step `next` is dropped, and left the schema as it looked. -/
theorem SchemaInv.drop {rows rows' : Table Path SchemaRow} {queue steps : List Replayed} {next : Nat}
    (h : SchemaInv rows queue steps next) (hrows : ∀ path, look rows' path = look rows path) :
    SchemaInv rows' queue steps (next + 1) := by
  refine ⟨fun path shape hlook => h.truthful path shape (by rw [← hrows]; exact hlook),
    fun q hq path shape hlook => ?_, h.order, h.apart, fun r hr => Nat.lt_succ_of_lt (h.below r hr)⟩
  rw [hrows]
  exact h.queued q hq path shape hlook

/-- The step `next` is queued, and left the schema as it looked. -/
theorem SchemaInv.spill {rows rows' : Table Path SchemaRow} {queue steps : List Replayed} {next : Nat}
    (h : SchemaInv rows queue steps next) {own : Replayed} (hnumber : own.number = next)
    (hrows : ∀ path, look rows' path = look rows path)
    (hown : ∀ path, look rows' path = (own.look path).or (look rows path)) :
    SchemaInv rows' (queue ++ [own]) steps (next + 1) := by
  have hdrop := h.drop hrows
  refine ⟨hdrop.truthful, fun q hq path shape hlook => ?_, ?_, fun q hq r hr => ?_, fun r hr => ?_⟩
  · rcases List.mem_append.mp hq with hq | hq
    · exact hdrop.queued q hq path shape hlook
    · rw [List.mem_singleton.mp hq] at hlook
      rw [hown, hlook]
      exact .inl rfl
  · refine List.pairwise_append.mpr ⟨h.order, List.pairwise_singleton _ _, fun q hq q' hq' => ?_⟩
    rw [List.mem_singleton.mp hq', hnumber]
    exact h.below q (List.mem_append_right _ hq)
  · rcases List.mem_append.mp hq with hq | hq
    · exact h.apart q hq r hr
    · rw [List.mem_singleton.mp hq, hnumber]
      exact Nat.ne_of_lt (h.below r (List.mem_append_left _ hr))
  · rw [← List.append_assoc] at hr
    rcases List.mem_append.mp hr with hr | hr
    · exact Nat.lt_succ_of_lt (h.below r hr)
    · rw [List.mem_singleton.mp hr, hnumber]
      exact Nat.lt_succ_self _

/-! ## Runs -/

theorem type_encodeType (w : TypeCache) (pe : PendingEntry) : (encodeType w pe).type = pe.type := by
  unfold encodeType
  split
  · rfl
  · rfl

theorem rows_buildEntries {env : BuildEnv} {i off total : Nat} {pending : List PendingEntry} {w w' : TypeCache}
    {entries : List Entry} (h : buildEntries env i off pending w = (w', some (entries, total))) :
    entries.map Entry.row = pending.map PendingEntry.row := by
  induction pending generalizing i off w entries with
  | nil =>
    cases h
    rfl
  | cons pe pending ih =>
    unfold buildEntries at h
    split at h
    · cases h
    · split at h
      · cases h
      · split at h
        · cases h
        · simp only at h
          cases hrest : buildEntries env (i + 1) (off + pe.payload.len) pending (recordType w pe) with
          | mk w₁ res =>
            rw [hrest] at h
            cases res with
            | none => cases h
            | some pair =>
              obtain ⟨es, n⟩ := pair
              cases h
              rw [List.map_cons, List.map_cons, ih hrest]
              unfold Entry.row PendingEntry.row
              simp only [type_encodeType]

/-- A manifest describes what was captured. -/
theorem rows_buildManifest {env : BuildEnv} {fs : Core} {m : Step} (h : (buildManifest env fs).2 = some m) :
    m.entries.map Entry.row = fs.pending.map PendingEntry.row := by
  unfold buildManifest at h
  cases hbuild : buildEntries env 0 0 fs.pending fs.writeTypeCache with
  | mk w pair =>
    rw [hbuild] at h
    cases pair with
    | none => cases h
    | some pair =>
      rw [Option.ite_none_left_eq_some, Option.some.injEq] at h
      obtain ⟨-, rfl⟩ := h
      exact rows_buildEntries hbuild

theorem pendingAt_eq (env : EndEnv) (w : Writer) : pendingAt env w = (w.core.folded env).pending := by
  have hframe := congrArg Core.pending (policyFrame_applyQueuePolicy env ⟨w.core.folded env, [], w.lookups⟩)
  exact hframe

theorem config_apply (w : Writer) (ev : Event) : (w.apply ev).state.core.config = w.core.config := by
  by_cases hev : ∃ env, ev = .endStep env
  · obtain ⟨env, rfl⟩ := hev
    obtain ⟨pending, bytes, hfold⟩ := folded_eq w.core env
    have hframe := congrArg Core.config (policyFrame_applyQueuePolicy env ⟨w.core.folded env, [], w.lookups⟩)
    have hconfig : (applyQueuePolicy env ⟨w.core.folded env, [], w.lookups⟩).state.core.config = w.core.config := by
      rw [hfold] at hframe ⊢
      exact hframe
    show (endStep env w).state.core.config = w.core.config
    cases hend : endStep env w with
    | ok w' =>
      obtain ⟨-, st, happly, hcore⟩ := endStep_ok hend
      rw [happly] at hconfig
      rw [Outcome.state_ok, hcore]
      exact hconfig
    | fail w' =>
      rcases endStep_fail hend with ⟨-, rfl⟩ | ⟨-, st, happly, hcore⟩
      · rfl
      · rw [happly] at hconfig
        rw [Outcome.state_fail, hcore]
        exact hconfig
  · have hcore := (committed_apply w (fun env h => hev ⟨env, h⟩)).1
    have := congrArg Core.config hcore
    exact this

/-- The invariant of a run with a transport. -/
def Publisher.Inv (s : Publisher) (steps : List Replayed) : Prop :=
  s.writer.core.config.transport = true →
    SchemaInv s.schema.rows (s.writer.core.pendingSpill.map SpillEntry.replayed) steps s.writer.core.physicalStep

/-- The drain at the start of `H5Fend_step`. -/
theorem Publisher.Inv.drained {s : Publisher} {steps : List Replayed} (hinv : s.Inv steps) (env : EndEnv)
    (htransport : s.writer.core.config.transport = true) :
    SchemaInv s.schema.rows ((s.writer.left env).map SpillEntry.replayed)
      (steps ++ (s.writer.drains env).map SpillEntry.replayed) s.writer.core.physicalStep := by
  refine SchemaInv.drains ?_
  rw [← List.map_append, s.writer.drains_append_left env]
  exact hinv htransport

theorem Publisher.Inv.abandoned {s : Publisher} {steps : List Replayed} (hinv : s.Inv steps) {env : EndEnv}
    {pub : PublishEnv} {w : Writer} (h : endStep env s.writer = .fail w) :
    (s.apply ⟨.endStep env, pub⟩).Inv (steps ++ s.replays ⟨.endStep env, pub⟩) := by
  intro htransport
  have hconfig : s.writer.core.config.transport = true := by
    rw [← config_apply s.writer (.endStep env)]
    exact htransport
  have hstate : s.apply ⟨.endStep env, pub⟩ = ⟨w, s.schema⟩ := by
    show (⟨(endStep env s.writer).state, (if (endStep env s.writer).isOk then _ else (_ : Schema × _)).1⟩ : Publisher) = _
    rw [h]
    rfl
  have hreplays : s.replays ⟨.endStep env, pub⟩ = (s.writer.drains env).map SpillEntry.replayed := by
    show _ ++ (if (endStep env s.writer).isOk ∧ _ then _ else _) = _
    rw [h, if_neg (by simp), List.append_nil]
  have hnumber : w.core.physicalStep = s.writer.core.physicalStep := by
    rcases endStep_cases env s.writer with ⟨-, h'⟩ | ⟨w₁, h', -⟩ | ⟨w₁, h', habandoned⟩
    · rw [h] at h'
      cases h'
      rfl
    · rw [h] at h'
      cases h'
    · rw [h] at h'
      cases h'
      exact habandoned.number
  rw [hstate, hreplays]
  show SchemaInv s.schema.rows (w.core.pendingSpill.map SpillEntry.replayed) _ w.core.physicalStep
  rw [pendingSpill_abandoned h, hnumber]
  exact hinv.drained env hconfig

theorem Publisher.Inv.committed {s : Publisher} {steps : List Replayed} (hinv : s.Inv steps) {env : EndEnv}
    {pub : PublishEnv} {w : Writer} (h : endStep env s.writer = .ok w) (hat : PublishOkAt s ⟨.endStep env, pub⟩) :
    (s.apply ⟨.endStep env, pub⟩).Inv (steps ++ s.replays ⟨.endStep env, pub⟩) := by
  intro htransport
  have hconfig : s.writer.core.config.transport = true := by
    rw [← config_apply s.writer (.endStep env)]
    exact htransport
  obtain ⟨hfails, hdeferred⟩ := hat hconfig (by rw [h]; rfl)
  have hdrained := hinv.drained env hconfig
  obtain ⟨own, hown⟩ : ∃ own : Replayed, own = ⟨s.writer.core.physicalStep,
    (s.writer.core.folded env).pending.map PendingEntry.row⟩ := ⟨_, rfl⟩
  have hnumber : own.number = s.writer.core.physicalStep := by rw [hown]
  -- the schema after the fold, whether or not it is handed over
  have hrows : (s.apply ⟨.endStep env, pub⟩).schema.rows = (foldSchema pub (pendingAt env s.writer) s.schema).rows := by
    show ((if (endStep env s.writer).isOk then _ else _ : Schema × _)).1.rows = _
    rw [h, Outcome.isOk_ok, if_pos rfl]
    unfold publishSchema
    rw [hconfig, if_neg (by simp)]
    simp only
    split
    · rfl
    · rfl
  have hlook : ∀ path, look (s.apply ⟨.endStep env, pub⟩).schema.rows path
      = (own.look path).or (look s.schema.rows path) := by
    intro path
    unfold look Replayed.look Replayed.row?
    rw [hrows, pendingAt_eq, find?_foldSchema hfails, hown, Option.map_or]
  have hsame : s.writer.disposal env ≠ .replay → ∀ path,
      look (s.apply ⟨.endStep env, pub⟩).schema.rows path = look s.schema.rows path := by
    intro hd path
    unfold look
    rw [hrows]
    exact hdeferred hd path
  have hwriter : (s.apply ⟨.endStep env, pub⟩).writer = w := by
    show (endStep env s.writer).state = w
    rw [h]
    rfl
  have hreplays : s.replays ⟨.endStep env, pub⟩ = (s.writer.drains env).map SpillEntry.replayed
      ++ if s.writer.disposal env = .replay then [own] else [] := by
    show _ ++ (if (endStep env s.writer).isOk ∧ _ then _ else _) = _
    rw [h, hown]
    simp only [Outcome.isOk_ok, true_and]
  obtain ⟨hqueue, hspilled⟩ := pendingSpill_committed h
  rw [hwriter, hreplays, ← List.append_assoc, (endStep_ended h).number]
  cases hd : s.writer.disposal env with
  | replay =>
    rw [if_pos rfl, hqueue (by rw [hd]; simp)]
    exact hdrained.replay hnumber hlook
  | drop =>
    rw [if_neg (by simp), List.append_nil, hqueue (by rw [hd]; simp)]
    exact hdrained.drop (hsame (by rw [hd]; simp))
  | spill =>
    obtain ⟨m, hm, hqueue'⟩ := hspilled hd
    have hnew : SpillEntry.replayed ⟨s.writer.core.physicalStep, m,
        (s.writer.core.folded env).pending.map (·.payload)⟩ = own := by
      rw [hown]
      show Replayed.mk _ (m.entries.map Entry.row) = _
      rw [rows_buildManifest hm]
    rw [if_neg (by simp), List.append_nil, hqueue', List.map_append, List.map_singleton, hnew]
    exact hdrained.spill hnumber (hsame (by rw [hd]; simp)) hlook

theorem Publisher.Inv.apply {s : Publisher} {steps : List Replayed} (hinv : s.Inv steps) {e : PublishEvent}
    (hat : PublishOkAt s e) : (s.apply e).Inv (steps ++ s.replays e) := by
  obtain ⟨ev, pub⟩ := e
  by_cases hev : ∃ env, ev = .endStep env
  · obtain ⟨env, rfl⟩ := hev
    cases h : endStep env s.writer with
    | ok w => exact hinv.committed h hat
    | fail w => exact hinv.abandoned h
  · have hcore := (committed_apply s.writer (fun env h => hev ⟨env, h⟩)).1
    have hqueue := congrArg Core.pendingSpill hcore
    have hnumber := congrArg Core.physicalStep hcore
    have hconfig := config_apply s.writer ev
    simp only [Core.committed] at hqueue hnumber
    have hother : s.apply ⟨ev, pub⟩ = ⟨(s.writer.apply ev).state, s.schema⟩ ∧ s.replays ⟨ev, pub⟩ = [] := by
      cases ev with
      | endStep env => exact absurd ⟨env, rfl⟩ hev
      | _ => exact ⟨rfl, rfl⟩
    rw [hother.1, hother.2, List.append_nil]
    intro htransport
    show SchemaInv s.schema.rows ((s.writer.apply ev).state.core.pendingSpill.map SpillEntry.replayed) steps
      (s.writer.apply ev).state.core.physicalStep
    rw [hqueue, hnumber]
    exact hinv (by rw [← hconfig]; exact htransport)

theorem SchemaInv.isTruthful {rows : Table Path SchemaRow} {queue steps : List Replayed} {next : Nat}
    (h : SchemaInv rows queue steps next) : Truthful steps rows := by
  intro path row hrow
  obtain ⟨r, hlast, hshape⟩ := h.truthful path row.shape (by unfold look; rw [hrow]; rfl)
  unfold Replayed.look at hshape
  cases hr : r.row? path with
  | none =>
    rw [hr] at hshape
    cases hshape
  | some row' =>
    rw [hr, Option.map_some, Option.some.injEq, SchemaRow.shape, SchemaRow.shape, Prod.mk.injEq] at hshape
    exact ⟨r, row', hlast, hr, hshape.1, hshape.2⟩

/-- What is handed over is the schema the event leaves. -/
theorem Publisher.handed {s : Publisher} {e : PublishEvent} {rows : Table Path SchemaRow}
    (h : (s.publish e).2 = some rows) :
    (s.apply e).schema.rows = rows ∧ s.writer.core.config.transport = true := by
  obtain ⟨ev, pub⟩ := e
  cases ev with
  | endStep env =>
    show (s.publish ⟨.endStep env, pub⟩).1.rows = rows ∧ _
    have hpublish : s.publish ⟨.endStep env, pub⟩ = if (endStep env s.writer).isOk then
        publishSchema pub s.writer.core.config.transport (pendingAt env s.writer) s.schema
      else (s.schema, none) := rfl
    rw [hpublish] at h ⊢
    split at h
    · rename_i hok
      rw [if_pos hok]
      unfold publishSchema at h ⊢
      split at h
      · cases h
      · rename_i htransport
        rw [if_neg htransport]
        simp only at h ⊢
        split at h
        · cases h
        · rename_i hsent
          rw [if_neg hsent]
          exact ⟨Option.some.inj h, by simpa using htransport⟩
    · cases h
  | _ => cases h

/-- In every run in which no fold fails and a step that is dropped or queued leaves every path as it
looked, each schema handed to the transport is truthful. -/
theorem published_truthful {config : Config} {events : List PublishEvent} {e : PublishEvent}
    {rows : Table Path SchemaRow}
    (hat : Runs.Meets Publisher.apply PublishOkAt (.init config) (events ++ [e]))
    (hhanded : ((Publisher.after config events).publish e).2 = some rows) :
    Truthful (Publisher.replayed config (events ++ [e])) rows := by
  have hinit : (Publisher.init config).Inv [] := fun _ =>
    ⟨fun _ _ h => (by cases h), List.forall_mem_nil _, List.Pairwise.nil, List.forall_mem_nil _, List.forall_mem_nil _⟩
  have hinv : (Publisher.after config (events ++ [e])).Inv (Publisher.replayed config (events ++ [e])) :=
    Runs.run_keeps (P := Publisher.Inv) (fun _ _ _ hs hev => hs.apply hev) hinit hat
  have hafter : Publisher.after config (events ++ [e]) = (Publisher.after config events).apply e :=
    Runs.run_append _ _ _
  obtain ⟨hrows, htransport⟩ := Publisher.handed hhanded
  rw [← hrows, ← hafter]
  refine (hinv ?_).isTruthful
  rw [hafter]
  show ((Publisher.after config events).writer.apply e.ev).state.core.config.transport = true
  rw [config_apply]
  exact htransport

/-! ### A dropped step in the schema -/

-- step 0 creates `/a`, and step 1 the dataset named, while a reader stays at step 0
def behindRun (policy : QueuePolicy) (name : Path) : List PublishEvent :=
  [⟨.setQueuePolicy policy 0, .quiet⟩, ⟨.beginStep [] 0, .quiet⟩, ⟨createByte 0 ['a'], .quiet⟩, ⟨.closeHandle 0, .quiet⟩,
    ⟨.endStep .lagging, .quiet⟩, ⟨.beginStep [] 1, .quiet⟩, ⟨createByte 1 name, .quiet⟩, ⟨.closeHandle 1, .quiet⟩]

/-- Step 1 is dropped, and the schema handed over lists its dataset. -/
theorem droppedStep_not_truthful :
    ¬ ∀ config events e rows, ((Publisher.after config events).publish e).2 = some rows →
      Truthful (Publisher.replayed config (events ++ [e])) rows := by
  intro h
  obtain ⟨rows, hrows⟩ : ∃ rows, ((Publisher.after .staging (behindRun .discard ['b'])).publish
      ⟨.endStep .lagging, .quiet⟩).2 = some rows := Option.isSome_iff_exists.mp (by decide)
  have hlisted : (((Publisher.after .staging (behindRun .discard ['b'])).publish ⟨.endStep .lagging, .quiet⟩).2.bind
      (Table.find? · ['/', 'b'])).isSome := by decide
  rw [hrows, Option.bind_some] at hlisted
  obtain ⟨row, hrow⟩ := Option.isSome_iff_exists.mp hlisted
  obtain ⟨r, -, ⟨hr, hcarries, -⟩, -⟩ := h .staging (behindRun .discard ['b']) ⟨.endStep .lagging, .quiet⟩ rows hrows
    ['/', 'b'] row hrow
  have hnone : ∀ r ∈ Publisher.replayed .staging (behindRun .discard ['b'] ++ [⟨.endStep .lagging, .quiet⟩]),
      (r.row? ['/', 'b']).isSome = false := by decide
  rw [hnone r hr] at hcarries
  cases hcarries

/-- Step 1 is queued, but says of `/a` what step 0 said; step 2 is replayed and adds `/b`. -/
theorem queuedStep_truthful :
    ∃ rows, ((Publisher.after .staging (behindRun .spill ['a'] ++ [⟨.endStep .lagging, .quiet⟩,
        ⟨.beginStep [] 2, .quiet⟩, ⟨createByte 2 ['b'], .quiet⟩])).publish ⟨.endStep .lagging, .quiet⟩).2 = some rows
      ∧ Truthful (Publisher.replayed .staging (behindRun .spill ['a'] ++ [⟨.endStep .lagging, .quiet⟩,
        ⟨.beginStep [] 2, .quiet⟩, ⟨createByte 2 ['b'], .quiet⟩] ++ [⟨.endStep .lagging, .quiet⟩])) rows := by
  obtain ⟨rows, hrows⟩ : ∃ rows, ((Publisher.after .staging (behindRun .spill ['a'] ++ [⟨.endStep .lagging, .quiet⟩,
      ⟨.beginStep [] 2, .quiet⟩, ⟨createByte 2 ['b'], .quiet⟩])).publish ⟨.endStep .lagging, .quiet⟩).2 = some rows :=
    Option.isSome_iff_exists.mp (by decide)
  refine ⟨rows, hrows, published_truthful ?_ hrows⟩
  refine ⟨trivial, trivial, trivial, trivial, ?_, trivial, trivial, trivial, ?_, trivial, trivial, ?_, trivial⟩
  · exact fun _ _ => ⟨fun _ => rfl, fun hf => absurd (by decide) hf⟩
  · refine fun _ _ => ⟨fun _ => rfl, fun _ path => ?_⟩
    refine congrArg (fun rows : Table Path SchemaRow => (rows.find? path).map SchemaRow.shape) ?_
    decide
  · exact fun _ _ => ⟨fun _ => rfl, fun hf => absurd (by decide) hf⟩

end VolStream
