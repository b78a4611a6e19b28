import VolStream.Writer.MergedIndex

/-!
# One merge for all ranks

The ranks exchange what they captured and then merge it each by itself, without another word. What they replay
together has to be the same everywhere: the merged manifest and its payload must not depend on the rank that made
them, and the object a merged entry makes has to go to one placeholder, that of the rank whose entry it is.
-/

namespace VolStream

open FirstWins Slices

/-! ## What every rank sees -/

-- an entry as it is merged, whoever merges it
def mergedAt (payload : Bytes) (e : Entry) : Entry × Bytes := (Gathered.mk false payload e).merged

def mergedKey (i : Entry × Bytes) : Option (Kind × Path) := some i.1.key

/-- The merged entries, less their slices, with their payloads. -/
def mergedEntries (gathered : List AggManifest) : List (Entry × Bytes) :=
  keepFirst mergedKey [] (gathered.flatMap fun a => a.manifest.entries.map (mergedAt a.payload))

theorem merged_rankEntries (myRank k : Nat) (gathered : List AggManifest) :
    ((gathered.zipIdx k).flatMap (rankEntries myRank)).map Gathered.merged
      = gathered.flatMap fun a => a.manifest.entries.map (mergedAt a.payload) := by
  induction gathered generalizing k with
  | nil => rfl
  | cons a gathered ih =>
    rw [List.zipIdx_cons, List.flatMap_cons, List.flatMap_cons, List.map_append, ih, rankEntries, List.map_map]
    rfl

/-- What a rank's merge returns, by what every rank sees. -/
structure MergeResult.Made (gathered : List AggManifest) (res : MergeResult) : Prop where
  entries : res.manifest.entries = packed 0 (mergedEntries gathered)
  payloadBytes : res.manifest.payloadBytes = ((mergedEntries gathered).map (·.2)).flatten.length
  payload : res.payload.mem.take res.manifest.payloadBytes = ((mergedEntries gathered).map (·.2)).flatten

theorem mergeAggManifests_made {junk : Nat → UInt8} {env : MergeEnv} {fs : Core} {myRank : Nat} {ranks : List Core}
    {gathered : List AggManifest} (h : List.Forall₂ AggManifest.Says ranks gathered) {res : MergeResult}
    (hmerge : mergeAggManifests junk env fs myRank gathered = .accept res) : res.Made gathered := by
  unfold mergeAggManifests at hmerge
  rw [Parse.fold_flatMap] at hmerge
  obtain ⟨m, hloop, hmerge⟩ := Parse.bind_eq_accept hmerge
  split at hmerge
  · cases hmerge
  · cases hmerge
    have hkeep : keepFirst mergedKey [] ((gathered.zipIdx.flatMap (rankEntries myRank)).map Gathered.merged)
        = (keepFirst (some ∘ Gathered.key) [] (gathered.zipIdx.flatMap (rankEntries myRank))).map Gathered.merged :=
      keepFirst_map [] fun g _ => rfl
    rw [merged_rankEntries] at hkeep
    rcases fold_mergeEntry junk env fs (m := .start) (PayloadBuf.holds_start true)
      (fun g hg => inBounds_gathered h hg) with ⟨hrej, -⟩ | ⟨m', hloop', hentries, -, hheld⟩
    · rw [hrej] at hloop
      cases hloop
    · rw [hloop'] at hloop
      cases hloop
      have hbytes : ((keepFirst (some ∘ Gathered.key) [] (gathered.zipIdx.flatMap (rankEntries myRank))).map
          Gathered.bytes) = (mergedEntries gathered).map (·.2) := by
        rw [mergedEntries, hkeep, List.map_map]
        rfl
      rw [show Merged.start.seen = [] from rfl, hbytes, List.nil_append] at hheld
      refine ⟨?_, hheld.len, ?_⟩
      · rw [mergedEntries, hkeep]
        exact hentries
      · exact hheld.bytes rfl

/-- The merged entries' kinds and paths: each that a rank sent, once. -/
theorem keys_mergedEntries {ranks : List Core} {gathered : List AggManifest}
    (h : List.Forall₂ AggManifest.Says ranks gathered) (k : Kind × Path) :
    ((mergedEntries gathered).map (·.1.key)).count k
      = if ∃ fs ∈ ranks, ∃ pe ∈ fs.aggPending, pe.key = k then 1 else 0 := by
  have hmap : ∀ l : List (Entry × Bytes), l.filterMap mergedKey = l.map (·.1.key) := fun l => by
    rw [← List.filterMap_eq_map]
    rfl
  have hsent : (gathered.flatMap fun a => a.manifest.entries.map (mergedAt a.payload)).map (·.1.key)
      = ranks.flatMap fun fs => fs.aggPending.map PendingEntry.key := by
    induction h with
    | nil => rfl
    | @cons fs a ranks gathered hsays _ ih =>
      have hone : (a.manifest.entries.map (mergedAt a.payload)).map (·.1.key) = fs.aggPending.map PendingEntry.key := by
        rw [List.map_map, hsays.entries]
        refine (key_packed 0 _).trans ?_
        rw [List.map_map]
        rfl
      rw [List.flatMap_cons, List.map_append, ih, hone, List.flatMap_cons]
  have hcount := count_keepFirst mergedKey [] (gathered.flatMap fun a => a.manifest.entries.map (mergedAt a.payload)) k
  rw [hmap, hmap, hsent] at hcount
  rw [mergedEntries, hcount]
  simp only [List.mem_flatMap, List.mem_map, List.not_mem_nil, not_false_eq_true, and_true]

/-! ## Whose entry it is -/

-- what the ranks exchange, each entry with the rank that captured it
def exchangedAt (ranks : List (Core × Nat)) : List (Nat × PendingEntry) :=
  ranks.flatMap fun fs => fs.1.aggPending.map fun pe => (fs.2, pe)

def capturerKey (c : Nat × PendingEntry) : Option (Kind × Path) := some c.2.key

/-- The first of every kind and path, with the rank that captured it. -/
def firstCapturers (ranks : List Core) : List (Nat × PendingEntry) := keepFirst capturerKey [] (exchangedAt ranks.zipIdx)

theorem winners_eq (myRank : Nat) (ranks : List Core) :
    winners myRank ranks = (firstCapturers ranks).map fun c => (decide (c.1 = myRank), c.2) := by
  have hexchanged : exchanged myRank ranks.zipIdx
      = (exchangedAt ranks.zipIdx).map fun c => (decide (c.1 = myRank), c.2) := by
    rw [exchanged, exchangedAt, List.map_flatMap]
    simp only [List.map_map, Function.comp_def]
  rw [winners, hexchanged, firstCapturers]
  exact keepFirst_map [] fun c _ => rfl

/-- The first entry that satisfies a condition is the first such entry of the first rank that has one. -/
theorem find?_exchangedAt {p : PendingEntry → Bool} {ranks : List Core} {k : Nat} {c : Nat × PendingEntry}
    (h : (exchangedAt (ranks.zipIdx k)).find? (fun c => p c.2) = some c) :
    ∃ i fs, c.1 = k + i ∧ ranks[i]? = some fs ∧ fs.aggPending.find? p = some c.2 ∧
      ∀ j fs', j < i → ranks[j]? = some fs' → fs'.aggPending.find? p = none := by
  induction ranks generalizing k with
  | nil => cases h
  | cons fs ranks ih =>
    rw [List.zipIdx_cons, exchangedAt, List.flatMap_cons, List.find?_append, List.find?_map] at h
    cases hown : fs.aggPending.find? p with
    | some pe =>
      have hfind : fs.aggPending.find? ((fun c : Nat × PendingEntry => p c.2) ∘ fun pe => (k, pe)) = some pe := hown
      rw [hfind] at h
      cases h
      exact ⟨0, fs, rfl, rfl, hown, fun j _ hj => absurd hj (Nat.not_lt_zero j)⟩
    | none =>
      have hfind : fs.aggPending.find? ((fun c : Nat × PendingEntry => p c.2) ∘ fun pe => (k, pe)) = none := hown
      rw [hfind, Option.map_none, Option.none_or] at h
      obtain ⟨i, fs', hrank, hget, hfirst, hbefore⟩ := ih h
      refine ⟨i + 1, fs', by omega, hget, hfirst, fun j fs'' hj hget' => ?_⟩
      cases j with
      | zero =>
        cases hget'
        exact hown
      | succ j => exact hbefore j fs'' (by omega) hget'

/-- The entry of a rank that captured a kind and path first: no rank in front of it captured one. -/
structure CapturedFirst (ranks : List Core) (c : Nat × PendingEntry) : Prop where
  own : ∃ fs, ranks[c.1]? = some fs ∧ fs.pending.find? (fun pe => decide (pe.key = c.2.key)) = some c.2
  before : ∀ r fs, r < c.1 → ranks[r]? = some fs → ∀ pe ∈ fs.pending, pe.key ≠ c.2.key

/-- A kind that is exchanged is looked for among all pending entries or among these alike. -/
theorem find?_aggPending (fs : Core) {k : Kind × Path} (hk : k.1.aggregated = true) :
    fs.aggPending.find? (fun pe => decide (pe.key = k)) = fs.pending.find? fun pe => decide (pe.key = k) := by
  rw [Core.aggPending, List.find?_filter]
  congr 1
  funext pe
  by_cases hkey : pe.key = k
  · have hagg : pe.kind.aggregated = true := by
      rw [← hkey] at hk
      exact hk
    simp [hkey, hagg]
  · simp [hkey]

theorem aggregated_of_mem_exchangedAt {ranks : List (Core × Nat)} {c : Nat × PendingEntry} (h : c ∈ exchangedAt ranks) :
    c.2.kind.aggregated = true := by
  obtain ⟨fs, -, hc⟩ := List.mem_flatMap.mp h
  obtain ⟨pe, hpe, rfl⟩ := List.mem_map.mp hc
  exact (List.mem_filter.mp hpe).2

theorem capturedFirst_of_mem {ranks : List Core} {c : Nat × PendingEntry} (hc : c ∈ firstCapturers ranks) :
    CapturedFirst ranks c := by
  have hagg := aggregated_of_mem_exchangedAt ((keepFirst_sublist capturerKey [] _).subset hc)
  have hfind := (find?_of_mem_keepFirst hc (k := c.2.key) rfl).2
  have hsame : (fun b : Nat × PendingEntry => decide (capturerKey b = some c.2.key))
      = fun b => decide (b.2.key = c.2.key) := by
    funext b
    exact decide_eq_decide.mpr Option.some_inj
  rw [hsame] at hfind
  obtain ⟨i, fs, hrank, hget, hfirst, hbefore⟩ :=
    find?_exchangedAt (p := fun pe => decide (pe.key = c.2.key)) hfind
  rw [Nat.zero_add] at hrank
  subst hrank
  refine ⟨⟨fs, hget, ?_⟩, fun r fs' hr hget' pe hpe hkey => ?_⟩
  · rwa [find?_aggPending fs hagg] at hfirst
  · have hnone := hbefore r fs' hr hget'
    rw [find?_aggPending fs' hagg, List.find?_eq_none] at hnone
    exact hnone pe hpe (by simpa using hkey)

/-- A kind and path have one first capturer. -/
theorem CapturedFirst.unique {ranks : List Core} {c c' : Nat × PendingEntry} (h : CapturedFirst ranks c)
    (h' : CapturedFirst ranks c') (hkey : c.2.key = c'.2.key) : c = c' := by
  obtain ⟨fs, hget, hfirst⟩ := h.own
  obtain ⟨fs', hget', hfirst'⟩ := h'.own
  have hrank : c.1 = c'.1 := by
    rcases Nat.lt_trichotomy c.1 c'.1 with hlt | heq | hgt
    · exact absurd hkey (h'.before c.1 fs hlt hget c.2 (List.mem_of_find?_eq_some hfirst))
    · exact heq
    · exact absurd hkey.symm (h.before c'.1 fs' hgt hget' c'.2 (List.mem_of_find?_eq_some hfirst'))
  rw [hrank, hget'] at hget
  cases hget
  rw [hkey, hfirst'] at hfirst
  exact Prod.ext hrank (Option.some.inj hfirst).symm

/-! ## The merges of all ranks -/

section ranks

variable {junk : Nat → UInt8} {env : Nat → BuildEnv} {ranks : List Core} {gathered : List AggManifest}

/-- One rank could not build its part, and none has anything to merge. -/
theorem says_of_gathered (h : gatherManifests junk env 0 ranks = .accept gathered) :
    List.Forall₂ AggManifest.Says ranks gathered := by
  rcases gatherManifests_spec junk env 0 ranks with ⟨hrej, -⟩ | ⟨gathered', hgather, hsays⟩
  · rw [hrej] at h
    cases h
  · rw [hgather] at h
    cases h
    exact hsays

/-- Whichever rank merges, and whatever its allocator puts in new memory: if it returns, it returns the same entries
and the same payload. Each kind and path that some rank sent is there once, and the slices lie one behind the other
and make up the payload. -/
theorem merge_same_on_every_rank (h : gatherManifests junk env 0 ranks = .accept gathered) :
    ∃ (entries : List Entry) (payload : Bytes),
      Consecutive 0 (entries.map Entry.slice) payload.length ∧
      (∀ k : Kind × Path, (entries.map Entry.key).count k
        = if ∃ fs ∈ ranks, ∃ pe ∈ fs.aggPending, pe.key = k then 1 else 0) ∧
      ∀ (junk' : Nat → UInt8) (menv : MergeEnv) (fs : Core) (myRank : Nat) (res : MergeResult),
        mergeAggManifests junk' menv fs myRank gathered = .accept res →
          res.manifest.entries = entries ∧ res.manifest.payloadBytes = payload.length ∧
            res.payload.mem.take payload.length = payload := by
  have hsays := says_of_gathered h
  refine ⟨packed 0 (mergedEntries gathered), ((mergedEntries gathered).map (·.2)).flatten, ?_, fun k => ?_,
    fun junk' menv fs myRank res hmerge => ?_⟩
  · have hslices := packed_consecutive 0 (mergedEntries gathered)
    rwa [Nat.zero_add] at hslices
  · rw [key_packed]
    exact keys_mergedEntries hsays k
  · have hmade := mergeAggManifests_made hsays hmerge
    have hpayload := hmade.payload
    rw [hmade.payloadBytes] at hpayload
    exact ⟨hmade.entries, hmade.payloadBytes, hpayload⟩

/-- What a rank merges, entry by entry, and what it wires: its own among the first. -/
theorem slots_of_merge (hsent : List.Forall₂ AggManifest.Says ranks gathered) {junk' : Nat → UInt8} {menv : MergeEnv}
    {fs : Core} {myRank : Nat} {res : MergeResult} (hrank : ranks[myRank]? = some fs)
    (hmerge : mergeAggManifests junk' menv fs myRank gathered = .accept res) :
    res.manifest.entries.map Entry.key = (firstCapturers ranks).map (·.2.key) ∧
      res.wiring = (firstCapturers ranks).map fun c => if c.1 = myRank then c.2.owner else none := by
  have hres : res.Holds fs myRank ranks := by
    rcases mergeAggManifests_spec junk' menv fs myRank hsent with ⟨hrej, -⟩ | ⟨res', hmerge', hres'⟩
    · rw [hrej] at hmerge
      cases hmerge
    · rw [hmerge'] at hmerge
      cases hmerge
      exact hres'
  constructor
  · have hkeys := congrArg (List.map Prod.fst) hres.reads
    rw [List.map_map, List.map_map, winners_eq, List.map_map] at hkeys
    exact hkeys
  · rw [hres.wiring, winners_eq, List.map_map]
    refine List.map_congr_left fun c hc => ?_
    by_cases hown : c.1 = myRank
    · obtain ⟨fs', hget, hfirst⟩ := (capturedFirst_of_mem hc).own
      rw [hown, hrank] at hget
      cases hget
      have hslot : fs.pending.find? (fun pe => decide (pe.kind = c.2.key.1 ∧ pe.path = c.2.key.2)) = some c.2 := by
        rw [← hfirst]
        congr 1
        funext pe
        exact decide_eq_decide.mpr Prod.mk_inj.symm
      simp only [Function.comp, wiringOf, hown, decide_true, if_true, hslot, Option.bind_some]
    · simp [wiringOf, hown]

/-- The object a merged entry makes goes to at most one placeholder of all ranks: that of the first pending entry of
its kind and path, at the first rank that has one. -/
theorem wired_on_first_capturer_only (h : gatherManifests junk env 0 ranks = .accept gathered) :
    ∃ firsts : List (Nat × PendingEntry), (∀ c ∈ firsts, CapturedFirst ranks c) ∧
      ∀ (junk' : Nat → UInt8) (menv : MergeEnv) (fs : Core) (myRank : Nat) (res : MergeResult),
        ranks[myRank]? = some fs → mergeAggManifests junk' menv fs myRank gathered = .accept res →
          res.manifest.entries.map Entry.key = firsts.map (·.2.key) ∧
            res.wiring = firsts.map fun c => if c.1 = myRank then c.2.owner else none := by
  have hsays := says_of_gathered h
  exact ⟨firstCapturers ranks, fun c hc => capturedFirst_of_mem hc,
    fun junk' menv fs myRank res hrank hmerge => slots_of_merge hsays hrank hmerge⟩

end ranks

/-- If no call fails, the parts arrive and every rank's merge returns. -/
theorem merges_of_quiet (junk : Nat → UInt8) (ranks : List Core) :
    ∃ gathered, gatherManifests junk (fun _ => .quiet) 0 ranks = .accept gathered ∧
      ∀ (junk' : Nat → UInt8) (fs : Core) (myRank : Nat),
        ∃ res, mergeAggManifests junk' .quiet fs myRank gathered = .accept res := by
  rcases gatherManifests_spec junk (fun _ => .quiet) 0 ranks with ⟨-, k, hno⟩ | ⟨gathered, hgather, hsays⟩
  · exact absurd rfl hno
  · refine ⟨gathered, hgather, fun junk' fs myRank => ?_⟩
    rcases mergeAggManifests_spec junk' .quiet fs myRank hsays with ⟨-, hno⟩ | ⟨res, hmerge, -⟩
    · exact absurd rfl hno
    · exact ⟨res, hmerge⟩

-- both ranks create `/d` and its attribute, with different values
def twoCapturers : List Core := [rankOf [] [createD, attrOfD 5], rankOf [] [createD, attrOfD 6]]

/-- The attribute is there once, and it is the same entry on both ranks. -/
theorem merge_same_on_every_rank_two : ∃ gathered res₀ res₁,
    gatherManifests (fun _ => 0) (fun _ => .quiet) 0 twoCapturers = .accept gathered ∧
      mergeAggManifests (fun _ => 0) .quiet (rankOf [] [createD, attrOfD 5]) 0 gathered = .accept res₀ ∧
      mergeAggManifests (fun _ => 1) .quiet (rankOf [] [createD, attrOfD 6]) 1 gathered = .accept res₁ ∧
      res₀.manifest.entries = res₁.manifest.entries ∧
      (res₀.manifest.entries.map Entry.key).count (attrOfD 5).key = 1 := by
  obtain ⟨gathered, hgather, hmerges⟩ := merges_of_quiet (fun _ => 0) twoCapturers
  obtain ⟨res₀, hres₀⟩ := hmerges (fun _ => 0) (rankOf [] [createD, attrOfD 5]) 0
  obtain ⟨res₁, hres₁⟩ := hmerges (fun _ => 1) (rankOf [] [createD, attrOfD 6]) 1
  obtain ⟨entries, payload, -, hcount, hall⟩ := merge_same_on_every_rank hgather
  refine ⟨gathered, res₀, res₁, hgather, hres₀, hres₁, ?_, ?_⟩
  · rw [(hall _ _ _ _ _ hres₀).1, (hall _ _ _ _ _ hres₁).1]
  · rw [(hall _ _ _ _ _ hres₀).1, hcount]
    exact if_pos ⟨_, List.mem_cons_self, attrOfD 5, by decide, rfl⟩

/-- The second rank gets none of its placeholders wired: the first has captured all of them. -/
theorem wired_on_first_capturer_only_two : ∃ gathered res,
    gatherManifests (fun _ => 0) (fun _ => .quiet) 0 twoCapturers = .accept gathered ∧
      mergeAggManifests (fun _ => 1) .quiet (rankOf [] [createD, attrOfD 6]) 1 gathered = .accept res ∧
      ∀ slot ∈ res.wiring, slot = none := by
  obtain ⟨gathered, hgather, hmerges⟩ := merges_of_quiet (fun _ => 0) twoCapturers
  obtain ⟨res, hres⟩ := hmerges (fun _ => 1) (rankOf [] [createD, attrOfD 6]) 1
  obtain ⟨firsts, hfirsts, hall⟩ := wired_on_first_capturer_only hgather
  refine ⟨gathered, res, hgather, hres, fun slot hslot => ?_⟩
  rw [(hall _ _ _ 1 _ rfl hres).2] at hslot
  obtain ⟨⟨r, pe⟩, hc, rfl⟩ := List.mem_map.mp hslot
  refine if_neg fun hr => ?_
  obtain ⟨⟨fs, hget, hfind⟩, hbefore⟩ := hfirsts _ hc
  dsimp only at hr
  subst hr
  cases hget
  rcases List.mem_cons.mp (List.mem_of_find?_eq_some hfind) with rfl | hmem
  · exact hbefore 0 _ Nat.zero_lt_one rfl createD List.mem_cons_self rfl
  · cases List.mem_singleton.mp hmem
    exact hbefore 0 _ Nat.zero_lt_one rfl (attrOfD 5) (List.mem_cons_of_mem _ List.mem_cons_self) rfl

end VolStream
