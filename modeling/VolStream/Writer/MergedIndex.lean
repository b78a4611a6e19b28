import VolStream.Reader.Logical
import VolStream.Writer.Merge
import VolStream.Writer.StepGroups

/-!
# What a reader finds in a merged manifest

A serial writer that had captured what all the ranks captured, the first of every kind and path, would have left a
manifest of its own for the step. A reader that finds the merged one in its place should build the same index.

It does for the creates and the attributes. The merge knows nothing of links, which only
`H5VL__stream_build_manifest` encodes, and of the two encoders only that one writes the step's logical ids.
-/

namespace VolStream

open FirstWins

/-! ## The serial counterpart -/

/-- What the ranks captured, in the order of the merge. -/
def captured (ranks : List Core) : List PendingEntry := ranks.flatMap (·.pending)

def indexKey (pe : PendingEntry) : Option (Kind × Path) := if pe.kind.indexed then some pe.key else none

/-- The first of every kind and path a reader indexes, and every write. -/
def firstRankWins (ranks : List Core) : List PendingEntry := keepFirst indexKey [] (captured ranks)

/-- A step's merged manifest, next to the one a serial writer would have left. -/
structure IndexesAlike (ranks : List Core) (fs : Core) (serial : Step) (res : MergeResult) : Prop where
  logicalIds : res.manifest.logicalIds = serial.logicalIds
  index : ∀ (children : Table Path (Option Step)) (rd : Reader),
    readerBuildIndex (some (children.set (stepName fs.physicalStep) (some res.manifest))) rd
      = readerBuildIndex (some (children.set (stepName fs.physicalStep) (some serial))) rd
  once : ∀ k : Kind × Path, k.1.indexed = true →
    (res.manifest.entries.map Entry.key).count k = if k ∈ (captured ranks).map PendingEntry.key then 1 else 0
  attrs : ∀ e ∈ res.manifest.entries, e.kind = .attr → ∃ pe,
    (captured ranks).find? (fun pe => decide (pe.key = e.key)) = some pe ∧
      (res.payload.mem.drop e.payloadOff).take e.payloadLen = pe.payload.raw

/-! ## A reader goes by kinds and paths -/

/-- Indexing the entries of a manifest looks at their kinds and paths, and at the indexed ones only. -/
theorem foldl_indexEntry (entries : List Entry) (n : Nat) (idx : PathIndex) :
    entries.foldl (fun idx e => indexEntry idx n e.kind e.path) idx
      = ((entries.map Entry.key).filter (·.1.indexed)).foldl (fun idx k => indexEntry idx n k.1 k.2) idx := by
  induction entries generalizing idx with
  | nil => rfl
  | cons e entries ih =>
    rw [List.foldl_cons, ih, List.map_cons]
    cases hkind : e.kind.indexed with
    | true => rw [List.filter_cons_of_pos (p := fun k : Kind × Path => k.1.indexed) hkind, List.foldl_cons, Entry.key]
    | false =>
      have hlink : e.kind ≠ .link := by
        intro h
        rw [h] at hkind
        cases hkind
      have hskip : indexEntry idx n e.kind e.path = idx := by
        simp only [indexEntry, hkind, Bool.false_eq_true, if_false, if_neg hlink]
      rw [List.filter_cons_of_neg (by simpa [Entry.key] using hkind), hskip]

/-- Two files that differ in one manifest, by nothing the index is built from. -/
theorem readerBuildIndex_set (children : Table Path (Option Step)) (name : Path) {m m' : Step}
    (hids : m.logicalIds = m'.logicalIds)
    (hkeys : (m.entries.map Entry.key).filter (·.1.indexed) = (m'.entries.map Entry.key).filter (·.1.indexed))
    (rd : Reader) :
    readerBuildIndex (some (children.set name (some m))) rd = readerBuildIndex (some (children.set name (some m'))) rd := by
  have hone : readerIndexOneStep (children.set name (some m)) = readerIndexOneStep (children.set name (some m')) := by
    funext p fs
    unfold readerIndexOneStep
    rw [Table.find?_set, Table.find?_set]
    by_cases hname : name = stepName p
    · simp only [if_pos hname, hids, foldl_indexEntry m.entries, foldl_indexEntry m'.entries, hkeys]
    · rw [if_neg hname, if_neg hname]
  have hsteps : collectSteps (children.set name (some m)) = collectSteps (children.set name (some m')) := by
    rw [collectSteps, collectSteps, iterateNames, iterateNames, Table.keys_set, Table.keys_set]
  simp only [readerBuildIndex, hone, hsteps]

/-! ## The winners among all that was captured -/

theorem snd_exchanged (myRank k : Nat) (ranks : List Core) :
    (exchanged myRank (ranks.zipIdx k)).map (·.2) = (captured ranks).filter (·.kind.aggregated) := by
  induction ranks generalizing k with
  | nil => rfl
  | cons fs ranks ih =>
    rw [List.zipIdx_cons, exchanged, List.flatMap_cons, List.map_append, captured, List.flatMap_cons,
      List.filter_append, ← exchanged, ih, captured, List.map_map]
    exact congrArg (· ++ _) (List.map_id _)

theorem aggregated_iff {k : Kind} : k.aggregated = true ↔ k.indexed = true ∧ k ≠ .link := by
  cases k <;> decide

theorem indexKey_eq_some_iff {pe : PendingEntry} {k : Kind × Path} (hk : k.1.indexed = true) :
    indexKey pe = some k ↔ pe.key = k := by
  unfold indexKey
  constructor
  · intro h
    split at h
    · exact Option.some.inj h
    · cases h
  · rintro rfl
    exact if_pos hk

/-- The kinds that are exchanged, among the first of every kind and path. -/
theorem filter_firstRankWins (ranks : List Core) : (firstRankWins ranks).filter (·.kind.aggregated)
    = keepFirst indexKey [] ((captured ranks).filter (·.kind.aggregated)) := by
  refine filter_keepFirst (q := fun k => k.1.aggregated) (fun pe => ?_) (fun _ _ => Iff.rfl) (captured ranks)
  unfold indexKey
  cases hindexed : pe.kind.indexed with
  | true => rfl
  | false =>
    have hno : pe.kind.aggregated ≠ true := fun h => by
      rw [(aggregated_iff.mp h).1] at hindexed
      cases hindexed
    simpa using hno

/-- The merge takes what the serial writer would have, of the kinds it knows. -/
theorem snd_winners (myRank : Nat) (ranks : List Core) :
    (winners myRank ranks).map (·.2) = (firstRankWins ranks).filter (·.kind.aggregated) := by
  have hkinds : ∀ pe ∈ (captured ranks).filter (·.kind.aggregated), indexKey pe = some pe.key := by
    intro pe hpe
    have hagg := (List.mem_filter.mp hpe).2
    exact if_pos (aggregated_iff.mp hagg).1
  have hmap : keepFirst (fun pe => some pe.key) [] ((exchanged myRank ranks.zipIdx).map fun c => c.2)
      = (keepFirst (fun c => some c.2.key) [] (exchanged myRank ranks.zipIdx)).map fun c => c.2 :=
    keepFirst_map [] fun c _ => rfl
  have hkey : keepFirst indexKey [] (((captured ranks).filter (·.kind.aggregated)).map id)
      = (keepFirst (fun pe => some pe.key) [] ((captured ranks).filter (·.kind.aggregated))).map id :=
    keepFirst_map [] hkinds
  rw [List.map_id, List.map_id] at hkey
  rw [winners, ← hmap, snd_exchanged, ← hkey, filter_firstRankWins]

/-- The indexed kinds and paths a serial writer would have left. -/
theorem filterMap_indexKey (ps : List PendingEntry) :
    ps.filterMap indexKey = (ps.map PendingEntry.key).filter (·.1.indexed) := by
  induction ps with
  | nil => rfl
  | cons pe ps ih =>
    unfold indexKey at ih ⊢
    cases hkind : pe.kind.indexed with
    | true =>
      rw [List.filterMap_cons_some (by rw [hkind]; rfl), List.map_cons,
        List.filter_cons_of_pos (p := fun k : Kind × Path => k.1.indexed) hkind, ih]
    | false =>
      rw [List.filterMap_cons_none (by rw [hkind]; rfl), List.map_cons,
        List.filter_cons_of_neg (by simpa [PendingEntry.key] using hkind), ih]

/-! ## The two manifests -/

section manifests

variable {ranks : List Core} {fs : Core} {myRank : Nat} {res : MergeResult} (h : res.Holds fs myRank ranks)

include h

theorem MergeResult.Holds.keys :
    res.manifest.entries.map Entry.key = ((firstRankWins ranks).filter (·.kind.aggregated)).map PendingEntry.key := by
  have hkeys := congrArg (List.map Prod.fst) h.reads
  rw [List.map_map, List.map_map] at hkeys
  rw [← snd_winners myRank, List.map_map]
  exact hkeys

/-- A merged entry is the first that was captured of its kind and path, and carries its bytes. -/
theorem MergeResult.Holds.first {e : Entry} (he : e ∈ res.manifest.entries) :
    ∃ pe, (captured ranks).find? (fun pe => decide (pe.key = e.key)) = some pe ∧
      (res.payload.mem.drop e.payloadOff).take e.payloadLen = pe.aggPayload := by
  have hread := List.mem_map_of_mem (f := Entry.reads res.payload.mem) he
  rw [h.reads] at hread
  obtain ⟨c, hc, hview⟩ := List.mem_map.mp hread
  obtain ⟨hkey, hbytes⟩ := Prod.mk.inj hview
  have hwon := List.mem_map_of_mem (f := fun c : Bool × PendingEntry => c.2) hc
  rw [snd_winners, List.mem_filter] at hwon
  have hindexed : e.key.1.indexed = true := by
    rw [← hkey]
    exact (aggregated_iff.mp hwon.2).1
  have hfirst := (find?_of_mem_keepFirst hwon.1 ((indexKey_eq_some_iff hindexed).mpr hkey)).2
  have hsame : (fun pe => decide (indexKey pe = some e.key)) = fun pe => decide (pe.key = e.key) := by
    funext pe
    exact decide_eq_decide.mpr (indexKey_eq_some_iff hindexed)
  rw [hsame] at hfirst
  exact ⟨c.2, hfirst, hbytes.symm⟩

variable {env : BuildEnv} {fs' : Core} {serial : Step}
  (hserial : buildManifest env { fs with pending := firstRankWins ranks } = (fs', some serial))

include hserial

omit h in
theorem serial_keys : serial.logicalIds = fs.logicalIds ∧
    serial.entries.map Entry.key = (firstRankWins ranks).map PendingEntry.key := by
  have hres := congrArg Prod.snd hserial
  refine ⟨?_, keys_of_shapes (shapes_buildManifest hres)⟩
  unfold buildManifest at hres
  cases hbuild : buildEntries env 0 0 (firstRankWins ranks) fs.writeTypeCache with
  | mk w pair =>
    simp only [hbuild] at hres
    cases pair with
    | none => cases hres
    | some pair =>
      rw [Option.ite_none_left_eq_some, Option.some.injEq] at hres
      rw [← hres.2]

/-- Without logical ids and without links, the merged manifest indexes like the serial one. -/
theorem MergeResult.Holds.alike (hids : fs.logicalIds = []) (hlinks : ∀ pe ∈ captured ranks, pe.kind ≠ .link) :
    IndexesAlike ranks fs serial res := by
  obtain ⟨hserialIds, hserialKeys⟩ := serial_keys hserial
  have hkinds : (firstRankWins ranks).filter (·.kind.aggregated) = (firstRankWins ranks).filter (·.kind.indexed) := by
    refine List.filter_congr fun pe hpe => ?_
    have hno := hlinks pe ((keepFirst_sublist indexKey [] (captured ranks)).subset hpe)
    rw [Bool.eq_iff_iff, aggregated_iff]
    exact and_iff_left hno
  have hkeys : res.manifest.entries.map Entry.key = (firstRankWins ranks).filterMap indexKey := by
    rw [h.keys, hkinds, filterMap_indexKey, List.filter_map]
    rfl
  refine ⟨?_, fun children rd => ?_, fun k hk => ?_, fun e he hattr => ?_⟩
  · rw [h.logicalIds, hserialIds, hids]
  · refine readerBuildIndex_set children _ (by rw [h.logicalIds, hserialIds, hids]) ?_ rd
    rw [hkeys, filterMap_indexKey, hserialKeys, List.filter_filter]
    simp only [Bool.and_self]
  · rw [hkeys, firstRankWins, count_keepFirst, filterMap_indexKey]
    simp only [List.mem_filter, hk, and_true, List.not_mem_nil, not_false_eq_true]
  · obtain ⟨pe, hfirst, hbytes⟩ := h.first he
    have hkind : pe.kind = .attr := by
      have hpe := List.find?_some hfirst
      rw [decide_eq_true_iff] at hpe
      exact (congrArg Prod.fst hpe).trans hattr
    rw [PendingEntry.aggPayload, if_pos hkind] at hbytes
    exact ⟨pe, hfirst, hbytes⟩

end manifests

-- a rank that captured these entries in a step with these logical ids
def rankOf (logicalIds : List Nat) (pending : List PendingEntry) : Core :=
  { Core.init .plain with logicalIds := logicalIds, pending := pending }

-- `/d`, and an attribute of it
def createD : PendingEntry := ⟨.dsetCreate, ['/', 'd'], nativeUchar, ⟨.scalar, .all⟩, some [1], .bytes [], some 1⟩

def attrOfD (b : UInt8) : PendingEntry :=
  ⟨.attr, ['/', 'd', '@', 'a'], nativeUchar, ⟨.scalar, .all⟩, some [1], .bytes [b], some 2⟩

end VolStream
