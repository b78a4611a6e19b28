import VolStream.Lib.FirstWins
import VolStream.Writer.PayloadSlices

/-!
# The merged manifest of a parallel step

A rank of a parallel writer does not know what the others captured. Each encodes the part of its pending entries the
others have to replay with it (`H5VL__stream_build_agg_manifest`), the parts are exchanged, and every rank merges
them in the same order (`H5VL__stream_merge_agg_manifests`): the first entry of a kind and path is taken, its payload
moves to the end of the merged one. Slot `r` of what `MPI_Allgatherv` returns is what rank `r` sent, a manifest is
never empty, and lengths are those an `int` holds: a longer part cannot be exchanged.
-/

namespace VolStream

open FirstWins Slices

/-! ## One rank's part -/

/-- The kinds that are exchanged. -/
def Kind.aggregated : Kind → Bool
  | .dsetCreate => true
  | .attr => true
  | _ => false

/-- The bytes that go along: an attribute's. -/
def PendingEntry.aggPayload (pe : PendingEntry) : Bytes := if pe.kind = .attr then pe.payload.raw else []

/-- The entry loop of `H5VL__stream_build_agg_manifest`. The type is always sent. -/
def buildAggEntries (junk : Nat → UInt8) (env : BuildEnv) :
    Nat → PayloadBuf → List PendingEntry → Parse (List Entry × PayloadBuf)
  | _, pb, [] => .accept ([], pb)
  | i, pb, pe :: ps =>
    if pe.kind.aggregated = false then buildAggEntries junk env (i + 1) pb ps
    else if env.encodeFails i then .reject
    else
      (pb.add true junk (env.growFails i) pe.aggPayload).bind fun pb' =>
        let e : Entry := ⟨pe.kind, pe.path, .sent pe.type, pe.space, pe.dcpl, pb.len, pe.aggPayload.length⟩
        (buildAggEntries junk env (i + 1) pb' ps).map fun r => (e :: r.1, r.2)

/-- What one rank sends: its manifest and the `payload_len` bytes of its payload. -/
structure AggManifest where
  manifest : Step
  payload : Bytes
deriving DecidableEq, Repr

/-- `H5VL__stream_build_agg_manifest`. -/
def buildAggManifest (junk : Nat → UInt8) (env : BuildEnv) (fs : Core) : Parse AggManifest :=
  (buildAggEntries junk env 0 .start fs.pending).bind fun r =>
    if env.finalizeFails then .reject
    else .accept ⟨⟨fs.physicalStep, [], fs.wallTimeNs, r.1, r.2.len⟩, r.2.mem.take r.2.len⟩

/-- Every rank's part, exchanged. The call is collective: one rank that has nothing to send stops them all. -/
def gatherManifests (junk : Nat → UInt8) (env : Nat → BuildEnv) : Nat → List Core → Parse (List AggManifest)
  | _, [] => .accept []
  | r, fs :: ranks =>
    (buildAggManifest junk (env r) fs).bind fun a =>
      (gatherManifests junk env (r + 1) ranks).map fun as => a :: as

/-! ## The merge -/

/-- What the allocator answers for the `n`-th merged entry, and for the manifest. -/
structure MergeEnv where
  seenFails : Nat → Bool
  growFails : Nat → Bool
  refsFail : Nat → Bool
  wiringFails : Nat → Bool
  finalizeFails : Bool

-- no call fails
def MergeEnv.quiet : MergeEnv := ⟨fun _ => false, fun _ => false, fun _ => false, fun _ => false, false⟩

/-- The locals of the merge: `seen`, `entry_refs`, `merged_payload` and the `owner_wrapper` fields of `wiring`. -/
structure Merged where
  seen : List (Kind × Path)
  entries : List Entry
  payload : PayloadBuf
  wiring : List (Option Handle)

def Merged.start : Merged := ⟨[], [], .start, []⟩

/-- An entry as the merge comes to it: whether it is this rank's own, the payload it came with, and itself. -/
structure Gathered where
  own : Bool
  payload : Bytes
  entry : Entry

-- `payload_buf_r + poff`, `plen` bytes
def Gathered.bytes (g : Gathered) : Bytes := (g.payload.drop g.entry.payloadOff).take g.entry.payloadLen

/-- A dcpl is encoded again unless it is absent or empty. -/
def dcplAgain : Option Bytes → Option Bytes
  | some (b :: bs) => some (b :: bs)
  | _ => none

/-- The wiring slot of an entry: the owner of the first of this rank's pending entries with its kind and path. -/
def wiringOf (fs : Core) (own : Bool) (key : Kind × Path) : Option Handle :=
  if own then (fs.pending.find? fun pe => pe.kind = key.1 ∧ pe.path = key.2).bind (·.owner) else none

/-- One entry of the merge. -/
def mergeEntry (junk : Nat → UInt8) (env : MergeEnv) (fs : Core) (m : Merged) (g : Gathered) : Parse Merged :=
  let n := m.entries.length
  if (g.entry.kind, g.entry.path) ∈ m.seen then .accept m
  else if env.seenFails n then .reject
  else
    -- a copy of nothing reads nothing
    (if 0 < g.entry.payloadLen then Wire.read g.payload g.entry.payloadOff g.entry.payloadLen
      else .accept []).bind fun bytes =>
    (m.payload.add true junk (env.growFails n) bytes).bind fun payload =>
      if env.refsFail n then .reject
      else if env.wiringFails n then .reject
      else .accept {
        seen := m.seen ++ [(g.entry.kind, g.entry.path)]
        entries := m.entries ++
          [{ g.entry with
              dcpl := dcplAgain g.entry.dcpl
              payloadOff := m.payload.len
              payloadLen := g.entry.payloadLen }]
        payload := payload
        wiring := m.wiring ++ [wiringOf fs g.own (g.entry.kind, g.entry.path)] }

/-- The entries of rank `r`. -/
def rankEntries (myRank : Nat) (a : AggManifest × Nat) : List Gathered :=
  a.1.manifest.entries.map fun e => ⟨a.2 = myRank, a.1.payload, e⟩

/-- What the merge returns. -/
structure MergeResult where
  manifest : Step
  payload : PayloadBuf
  wiring : List (Option Handle)

/-- `H5VL__stream_merge_agg_manifests`: the ranks in ascending order, the entries of each in theirs. -/
def mergeAggManifests (junk : Nat → UInt8) (env : MergeEnv) (fs : Core) (myRank : Nat) (gathered : List AggManifest) :
    Parse MergeResult :=
  (Parse.fold (fun m a => Parse.fold (mergeEntry junk env fs) m (rankEntries myRank a)) .start
    gathered.zipIdx).bind fun m =>
    if env.finalizeFails then .reject
    else .accept ⟨⟨fs.physicalStep, [], fs.wallTimeNs, m.entries, m.payload.len⟩, m.payload, m.wiring⟩

/-! ## Entries laid out one behind the other -/

/-- The entries with their payloads at running offsets. -/
def packed : Nat → List (Entry × Bytes) → List Entry
  | _, [] => []
  | off, (e, p) :: l => { e with payloadOff := off, payloadLen := p.length } :: packed (off + p.length) l

theorem packed_append (off : Nat) (l l' : List (Entry × Bytes)) :
    packed off (l ++ l') = packed off l ++ packed (off + (l.map (·.2)).flatten.length) l' := by
  induction l generalizing off with
  | nil => rfl
  | cons i l ih =>
    rw [List.cons_append, packed, packed, ih, List.map_cons, List.flatten_cons, List.length_append, Nat.add_assoc]
    rfl

theorem key_packed (off : Nat) (l : List (Entry × Bytes)) : (packed off l).map Entry.key = l.map (·.1.key) := by
  induction l generalizing off with
  | nil => rfl
  | cons i l ih =>
    rw [packed, List.map_cons, List.map_cons, ih]
    rfl

theorem length_packed (off : Nat) (l : List (Entry × Bytes)) :
    (packed off l).map (·.payloadLen) = (l.map (·.2)).map List.length := by
  induction l generalizing off with
  | nil => rfl
  | cons i l ih => rw [packed, List.map_cons, List.map_cons, List.map_cons, ih]

theorem packed_consecutive (off : Nat) (l : List (Entry × Bytes)) :
    Consecutive off ((packed off l).map Entry.slice) (off + (l.map (·.2)).flatten.length) := by
  induction l generalizing off with
  | nil => rfl
  | cons i l ih =>
    have := ih (off + i.2.length)
    rw [List.map_cons, List.flatten_cons, List.length_append, ← Nat.add_assoc]
    exact ⟨rfl, this⟩

/-- An entry's kind and path, with the bytes in its slice of a buffer. -/
def Entry.reads (buf : Bytes) (e : Entry) : (Kind × Path) × Bytes := (e.key, (buf.drop e.payloadOff).take e.payloadLen)

/-- A buffer that begins with the payloads has each entry's in its slice. -/
theorem reads_packed (l : List (Entry × Bytes)) (rest : Bytes) :
    (packed 0 l).map (Entry.reads ((l.map (·.2)).flatten ++ rest)) = l.map fun i => (i.1.key, i.2) := by
  have hslices : Consecutive ([] : Bytes).length _ _ := packed_consecutive 0 l
  have hlens : ((packed 0 l).map Entry.slice).map (·.2) = (l.map (·.2)).map List.length := by
    rw [List.map_map, ← length_packed 0 l]
    rfl
  have hbytes := hslices.read_all (t := rest) hlens
  rw [List.nil_append, List.map_map] at hbytes
  have hkeys := key_packed 0 l
  have hzip := congrArg₂ List.zip hkeys hbytes
  rwa [List.zip_map', List.zip_map'] at hzip

theorem packed_bounds {l : List (Entry × Bytes)} {e : Entry} (h : e ∈ packed 0 l) :
    e.payloadOff + e.payloadLen ≤ (l.map (·.2)).flatten.length := by
  have := ((packed_consecutive 0 l).bounds (List.mem_map_of_mem h)).2
  rwa [Nat.zero_add] at this

/-! ## What the ranks send -/

/-- A pending entry as it is sent, less the slice. -/
def PendingEntry.aggEntry (pe : PendingEntry) : Entry × Bytes :=
  (⟨pe.kind, pe.path, .sent pe.type, pe.space, pe.dcpl, 0, 0⟩, pe.aggPayload)

-- the entries of a rank that are exchanged
def Core.aggPending (fs : Core) : List PendingEntry := fs.pending.filter (·.kind.aggregated)

theorem buildAggEntries_spec (junk : Nat → UInt8) (env : BuildEnv) (i : Nat) {pb : PayloadBuf} {done : Bytes}
    (hpb : pb.Holds true done) (ps : List PendingEntry) :
    (buildAggEntries junk env i pb ps = .reject ∧ env ≠ .quiet) ∨
      ∃ pb', buildAggEntries junk env i pb ps
          = .accept (packed pb.len ((ps.filter (·.kind.aggregated)).map PendingEntry.aggEntry), pb') ∧
        pb'.Holds true (done ++ ((ps.filter (·.kind.aggregated)).map PendingEntry.aggPayload).flatten) := by
  induction ps generalizing i pb done with
  | nil =>
    refine .inr ⟨pb, rfl, ?_⟩
    rw [List.filter_nil, List.map_nil, List.flatten_nil, List.append_nil]
    exact hpb
  | cons pe ps ih =>
    rw [buildAggEntries]
    cases hkind : pe.kind.aggregated with
    | false =>
      rw [if_pos rfl, List.filter_cons_of_neg (by rw [hkind]; decide)]
      exact ih (i + 1) hpb
    | true =>
      rw [if_neg (by decide), List.filter_cons_of_pos (p := fun pe : PendingEntry => pe.kind.aggregated) hkind]
      cases hencode : env.encodeFails i with
      | true =>
        refine .inl ⟨rfl, ?_⟩
        rintro rfl
        cases hencode
      | false =>
        rw [if_neg (by decide)]
        rcases hpb.add junk (env.growFails i) pe.aggPayload with ⟨hgrow, hadd⟩ | ⟨pb₁, hadd, hpb₁⟩
        · rw [hadd]
          refine .inl ⟨rfl, ?_⟩
          rintro rfl
          cases hgrow
        · rw [hadd, Parse.bind_accept]
          rcases ih (i + 1) hpb₁ with ⟨hrej, henv⟩ | ⟨pb', hrest, hpb'⟩
          · exact .inl ⟨by rw [hrej]; rfl, henv⟩
          · refine .inr ⟨pb', ?_, ?_⟩
            · have hlen : pb₁.len = pb.len + pe.aggPayload.length := by
                rw [hpb₁.len, hpb.len, List.length_append]
              rw [hrest, hlen]
              rfl
            · rwa [List.map_cons, List.flatten_cons, ← List.append_assoc]

/-- What a part says: the entries to exchange, in order, each with its bytes in its slice. -/
theorem buildAggManifest_spec (junk : Nat → UInt8) (env : BuildEnv) (fs : Core) :
    (buildAggManifest junk env fs = .reject ∧ env ≠ .quiet) ∨
      ∃ a, buildAggManifest junk env fs = .accept a ∧
        a.manifest.entries = packed 0 (fs.aggPending.map PendingEntry.aggEntry) ∧
        a.payload = (fs.aggPending.map PendingEntry.aggPayload).flatten := by
  unfold buildAggManifest
  rcases buildAggEntries_spec junk env 0 (PayloadBuf.holds_start true) fs.pending with ⟨hrej, henv⟩ | ⟨pb, hbuild, hpb⟩
  · exact .inl ⟨by rw [hrej]; rfl, henv⟩
  · rw [hbuild, Parse.bind_accept]
    cases hfinal : env.finalizeFails with
    | true =>
      refine .inl ⟨rfl, ?_⟩
      rintro rfl
      cases hfinal
    | false => exact .inr ⟨_, rfl, rfl, hpb.bytes rfl⟩

/-! ## What the merge makes of them -/

-- an entry's kind and path
def Gathered.key (g : Gathered) : Kind × Path := g.entry.key

/-- A gathered entry as it is merged, less the new slice. -/
def Gathered.merged (g : Gathered) : Entry × Bytes := ({ g.entry with dcpl := dcplAgain g.entry.dcpl }, g.bytes)

/-- The slice lies in the payload it came with. -/
def Gathered.InBounds (g : Gathered) : Prop := g.entry.payloadOff + g.entry.payloadLen ≤ g.payload.length

theorem Gathered.InBounds.length_bytes {g : Gathered} (h : g.InBounds) : g.bytes.length = g.entry.payloadLen := by
  unfold InBounds at h
  rw [bytes, List.length_take, List.length_drop]
  omega

/-- The bytes a round copies. -/
theorem Gathered.InBounds.read {g : Gathered} (h : g.InBounds) :
    (if 0 < g.entry.payloadLen then Wire.read g.payload g.entry.payloadOff g.entry.payloadLen else .accept [])
      = .accept g.bytes := by
  by_cases hlen : 0 < g.entry.payloadLen
  · rw [if_pos hlen]
    exact Wire.read_of_le h
  · have hzero : g.entry.payloadLen = 0 := by omega
    rw [if_neg hlen, bytes, hzero, List.take_zero]

/-- A duplicate changes nothing; a new entry goes to the end, or a call failed. -/
theorem mergeEntry_cases (junk : Nat → UInt8) (env : MergeEnv) (fs : Core) {m : Merged} {done : Bytes}
    (hpb : m.payload.Holds true done) {g : Gathered} (hg : g.InBounds) :
    (g.key ∈ m.seen ∧ mergeEntry junk env fs m g = .accept m) ∨
      g.key ∉ m.seen ∧
        ((mergeEntry junk env fs m g = .reject ∧ env ≠ .quiet) ∨
          ∃ payload, payload.Holds true (done ++ g.bytes) ∧
            mergeEntry junk env fs m g = .accept ⟨m.seen ++ [g.key],
              m.entries ++ packed m.payload.len [g.merged], payload, m.wiring ++ [wiringOf fs g.own g.key]⟩) := by
  have hquiet : ∀ {b : Bool}, b = true → (env = .quiet → b = false) → env ≠ .quiet := by
    rintro b rfl hb henv
    cases hb henv
  unfold mergeEntry
  by_cases hseen : (g.entry.kind, g.entry.path) ∈ m.seen
  · exact .inl ⟨hseen, if_pos hseen⟩
  · refine .inr ⟨hseen, ?_⟩
    simp only [if_neg hseen, hg.read, Parse.bind_accept]
    cases hkey : env.seenFails m.entries.length with
    | true => exact .inl ⟨rfl, hquiet hkey fun h => by rw [h]; rfl⟩
    | false =>
      rw [if_neg (by decide)]
      rcases hpb.add junk (env.growFails m.entries.length) g.bytes with ⟨hgrow, hadd⟩ | ⟨payload, hadd, hpayload⟩
      · rw [hadd]
        exact .inl ⟨rfl, hquiet hgrow fun h => by rw [h]; rfl⟩
      · rw [hadd, Parse.bind_accept]
        cases hrefs : env.refsFail m.entries.length with
        | true => exact .inl ⟨rfl, hquiet hrefs fun h => by rw [h]; rfl⟩
        | false =>
          cases hwiring : env.wiringFails m.entries.length with
          | true => exact .inl ⟨rfl, hquiet hwiring fun h => by rw [h]; rfl⟩
          | false =>
            refine .inr ⟨payload, hpayload, ?_⟩
            rw [if_neg (by decide), if_neg (by decide), packed, packed, Gathered.merged, hg.length_bytes]
            rfl

/-- The loop appends the first of every kind and path that was not seen. -/
theorem fold_mergeEntry (junk : Nat → UInt8) (env : MergeEnv) (fs : Core) {m : Merged} {done : Bytes}
    (hpb : m.payload.Holds true done) {gs : List Gathered} (hgs : ∀ g ∈ gs, g.InBounds) :
    (Parse.fold (mergeEntry junk env fs) m gs = .reject ∧ env ≠ .quiet) ∨
      ∃ m', Parse.fold (mergeEntry junk env fs) m gs = .accept m' ∧
        m'.entries = m.entries
          ++ packed m.payload.len ((keepFirst (some ∘ Gathered.key) m.seen gs).map Gathered.merged) ∧
        m'.wiring = m.wiring ++ (keepFirst (some ∘ Gathered.key) m.seen gs).map (fun g => wiringOf fs g.own g.key) ∧
        m'.payload.Holds true (done ++ ((keepFirst (some ∘ Gathered.key) m.seen gs).map Gathered.bytes).flatten) := by
  induction gs generalizing m done with
  | nil =>
    refine .inr ⟨m, rfl, ?_, ?_, ?_⟩
    · rw [keepFirst, List.map_nil, packed, List.append_nil]
    · rw [keepFirst, List.map_nil, List.append_nil]
    · rw [keepFirst, List.map_nil, List.flatten_nil, List.append_nil]
      exact hpb
  | cons g gs ih =>
    have hrest : ∀ g' ∈ gs, g'.InBounds := fun g' hg' => hgs g' (List.mem_cons_of_mem g hg')
    have hkey : (some ∘ Gathered.key) g = some g.key := rfl
    rw [Parse.fold]
    rcases mergeEntry_cases junk env fs hpb (hgs g List.mem_cons_self) with
      ⟨hseen, hround⟩ | ⟨hnew, ⟨hrej, henv⟩ | ⟨payload, hpayload, hround⟩⟩
    · rw [hround, Parse.bind_accept, keepFirst_cons_seen hkey hseen]
      exact ih hpb hrest
    · rw [hrej]
      exact .inl ⟨rfl, henv⟩
    · rw [hround, Parse.bind_accept, keepFirst_cons_new hkey hnew]
      rcases ih (m := ⟨_, _, payload, _⟩) hpayload hrest with ⟨hrej, henv⟩ | ⟨m', hloop, hentries, hwiring, hheld⟩
      · exact .inl ⟨hrej, henv⟩
      · have hlen : payload.len = m.payload.len + g.bytes.length := by
          rw [hpayload.len, hpb.len, List.length_append]
        refine .inr ⟨m', hloop, ?_, ?_, ?_⟩
        · rw [hentries, hlen, List.map_cons, List.append_assoc]
          rfl
        · rw [hwiring, List.map_cons, List.append_assoc]
          rfl
        · rwa [List.map_cons, List.flatten_cons, ← List.append_assoc]

/-! ## Every rank's entries -/

/-- What a part says of the rank that sent it. -/
structure AggManifest.Says (fs : Core) (a : AggManifest) : Prop where
  entries : a.manifest.entries = packed 0 (fs.aggPending.map PendingEntry.aggEntry)
  payload : a.payload = (fs.aggPending.map PendingEntry.aggPayload).flatten

theorem gatherManifests_spec (junk : Nat → UInt8) (env : Nat → BuildEnv) (r : Nat) (ranks : List Core) :
    (gatherManifests junk env r ranks = .reject ∧ ∃ k, env k ≠ .quiet) ∨
      ∃ gathered, gatherManifests junk env r ranks = .accept gathered ∧
        List.Forall₂ AggManifest.Says ranks gathered := by
  induction ranks generalizing r with
  | nil => exact .inr ⟨[], rfl, .nil⟩
  | cons fs ranks ih =>
    rw [gatherManifests]
    rcases buildAggManifest_spec junk (env r) fs with ⟨hrej, henv⟩ | ⟨a, hbuild, hentries, hpayload⟩
    · rw [hrej]
      exact .inl ⟨rfl, r, henv⟩
    · rw [hbuild, Parse.bind_accept]
      rcases ih (r + 1) with ⟨hrej, henv⟩ | ⟨gathered, hrest, hsays⟩
      · rw [hrej]
        exact .inl ⟨rfl, henv⟩
      · rw [hrest]
        exact .inr ⟨a :: gathered, rfl, .cons ⟨hentries, hpayload⟩ hsays⟩

/-- The entries the ranks exchange in the order of the merge, each with whether it is this rank's own. -/
def exchanged (myRank : Nat) (ranks : List (Core × Nat)) : List (Bool × PendingEntry) :=
  ranks.flatMap fun fs => fs.1.aggPending.map fun pe => (decide (fs.2 = myRank), pe)

-- what the merge knows of an entry
def Gathered.view (g : Gathered) : Bool × (Kind × Path) × Bytes := (g.own, g.key, g.bytes)

def exchangedView (c : Bool × PendingEntry) : Bool × (Kind × Path) × Bytes := (c.1, c.2.key, c.2.aggPayload)

section gathered

variable {fs : Core} {a : AggManifest}

theorem AggManifest.Says.view (h : a.Says fs) (myRank r : Nat) :
    (rankEntries myRank (a, r)).map Gathered.view
      = (fs.aggPending.map fun pe => (decide (r = myRank), pe)).map exchangedView := by
  have hreads := reads_packed (fs.aggPending.map PendingEntry.aggEntry) []
  rw [List.append_nil, List.map_map, List.map_map] at hreads
  have hbytes : (fs.aggPending.map ((·.2) ∘ PendingEntry.aggEntry)).flatten = a.payload := h.payload.symm
  rw [hbytes, ← h.entries] at hreads
  have hown := congrArg (List.map fun read => (decide (r = myRank), read)) hreads
  rw [List.map_map, List.map_map] at hown
  rw [rankEntries, List.map_map, List.map_map]
  exact hown

theorem AggManifest.Says.inBounds (h : a.Says fs) {myRank r : Nat} {g : Gathered} (hg : g ∈ rankEntries myRank (a, r)) :
    g.InBounds := by
  obtain ⟨e, he, rfl⟩ := List.mem_map.mp hg
  have hmem : e ∈ a.manifest.entries := he
  rw [h.entries] at hmem
  have hbound := packed_bounds hmem
  rw [List.map_map] at hbound
  show e.payloadOff + e.payloadLen ≤ a.payload.length
  rw [h.payload]
  exact hbound

end gathered

section ranks

variable {ranks : List Core} {gathered : List AggManifest} (h : List.Forall₂ AggManifest.Says ranks gathered)

include h

theorem view_gathered (myRank k : Nat) :
    ((gathered.zipIdx k).flatMap (rankEntries myRank)).map Gathered.view
      = (exchanged myRank (ranks.zipIdx k)).map exchangedView := by
  induction h generalizing k with
  | nil => rfl
  | cons hsays hrest ih =>
    rw [List.zipIdx_cons, List.zipIdx_cons, exchanged, List.flatMap_cons, List.flatMap_cons, List.map_append,
      List.map_append, hsays.view, ih, exchanged]

theorem inBounds_gathered {myRank k : Nat} {g : Gathered}
    (hg : g ∈ (gathered.zipIdx k).flatMap (rankEntries myRank)) : g.InBounds := by
  induction h generalizing k with
  | nil => cases hg
  | cons hsays hrest ih =>
    rw [List.zipIdx_cons, List.flatMap_cons, List.mem_append] at hg
    rcases hg with hg | hg
    · exact hsays.inBounds hg
    · exact ih hg

end ranks

/-- The first of every kind and path among what the ranks exchange. -/
def winners (myRank : Nat) (ranks : List Core) : List (Bool × PendingEntry) :=
  keepFirst (fun c => some c.2.key) [] (exchanged myRank ranks.zipIdx)

theorem view_winners (myRank : Nat) {ranks : List Core} {gathered : List AggManifest}
    (h : List.Forall₂ AggManifest.Says ranks gathered) :
    (keepFirst (some ∘ Gathered.key) [] (gathered.zipIdx.flatMap (rankEntries myRank))).map Gathered.view
      = (winners myRank ranks).map exchangedView := by
  let viewKey : Bool × (Kind × Path) × Bytes → Option (Kind × Path) := fun v => some v.2.1
  have hgathered : keepFirst viewKey [] ((gathered.zipIdx.flatMap (rankEntries myRank)).map Gathered.view)
      = (keepFirst (some ∘ Gathered.key) [] (gathered.zipIdx.flatMap (rankEntries myRank))).map Gathered.view :=
    keepFirst_map [] fun g _ => rfl
  have hexchanged : keepFirst viewKey [] ((exchanged myRank ranks.zipIdx).map exchangedView)
      = (keepFirst (fun c => some c.2.key) [] (exchanged myRank ranks.zipIdx)).map exchangedView :=
    keepFirst_map [] fun c _ => rfl
  rw [winners, ← hgathered, ← hexchanged, view_gathered h myRank 0]

/-- What a merge returns: the winners' kinds and paths, the bytes each captured in its slice, and a slot for each. -/
structure MergeResult.Holds (fs : Core) (myRank : Nat) (ranks : List Core) (res : MergeResult) : Prop where
  physicalStep : res.manifest.physicalStep = fs.physicalStep
  logicalIds : res.manifest.logicalIds = []
  reads : res.manifest.entries.map (Entry.reads res.payload.mem)
    = (winners myRank ranks).map fun c => (c.2.key, c.2.aggPayload)
  wiring : res.wiring = (winners myRank ranks).map fun c => wiringOf fs c.1 c.2.key

theorem mergeAggManifests_spec (junk : Nat → UInt8) (env : MergeEnv) (fs : Core) (myRank : Nat) {ranks : List Core}
    {gathered : List AggManifest} (h : List.Forall₂ AggManifest.Says ranks gathered) :
    (mergeAggManifests junk env fs myRank gathered = .reject ∧ env ≠ .quiet) ∨
      ∃ res, mergeAggManifests junk env fs myRank gathered = .accept res ∧ res.Holds fs myRank ranks := by
  unfold mergeAggManifests
  rw [Parse.fold_flatMap]
  rcases fold_mergeEntry junk env fs (m := .start) (PayloadBuf.holds_start true)
    (fun g hg => inBounds_gathered h hg) with ⟨hrej, henv⟩ | ⟨m, hloop, hentries, hwiring, hheld⟩
  · rw [hrej]
    exact .inl ⟨rfl, henv⟩
  · rw [hloop, Parse.bind_accept]
    cases hfinal : env.finalizeFails with
    | true =>
      refine .inl ⟨rfl, ?_⟩
      rintro rfl
      cases hfinal
    | false =>
      have hview := view_winners myRank h
      refine .inr ⟨_, rfl, rfl, rfl, ?_, ?_⟩
      · -- the payload and whatever is behind it in the block
        have hreads := reads_packed ((keepFirst (some ∘ Gathered.key) []
          (gathered.zipIdx.flatMap (rankEntries myRank))).map Gathered.merged) (m.payload.mem.drop m.payload.len)
        have hpair := congrArg (List.map fun v : Bool × (Kind × Path) × Bytes => v.2) hview
        rw [List.map_map, List.map_map] at hpair
        have hbytes := hheld.bytes rfl
        rw [List.nil_append] at hbytes
        rw [List.map_map, List.map_map] at hreads
        have hmem : m.payload.mem = ((keepFirst (some ∘ Gathered.key) []
            (gathered.zipIdx.flatMap (rankEntries myRank))).map Gathered.bytes).flatten
              ++ m.payload.mem.drop m.payload.len := by
          have htaken := List.take_append_drop m.payload.len m.payload.mem
          rw [hbytes] at htaken
          exact htaken.symm
        show m.entries.map (Entry.reads m.payload.mem) = _
        rw [hentries, hmem]
        exact hreads.trans hpair
      · have hslots := congrArg (List.map fun v : Bool × (Kind × Path) × Bytes => wiringOf fs v.1 v.2.1) hview
        rw [List.map_map, List.map_map] at hslots
        exact hwiring.trans hslots

end VolStream
