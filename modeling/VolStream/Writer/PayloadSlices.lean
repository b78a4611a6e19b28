import VolStream.Lib.Slices
import VolStream.Lib.Wire
import VolStream.Writer.Deferred

/-!
# Where replay finds a payload

The manifest of a step says of every entry which slice of the step's payload is its own. Whether that payload
exists as one buffer is another matter: `H5VL__stream_build_manifest` concatenates the bytes only for a caller that
wants them (the `.payload` dataset, a spill), and otherwise just counts. `H5VL__stream_replay_manifest` then reads
each entry's bytes from the buffer at the entry's offset, or from the pending entry the manifest was built from.

Here both are followed on the level of memory: the buffer is a block that grows by doubling and whose contents
behind the payload are whatever the allocator left there. Lengths are `size_t`; as all the payloads are in memory
at once, no sum of them wraps.
-/

namespace VolStream

open Slices

/-- A payload as it stands in memory; a link's is `h` or `s` and the target. -/
def Payload.raw : Payload → Bytes
  | .bytes b => b
  | .link hard target => (if hard then 104 else 115) :: target.map fun c => UInt8.ofNat c.toNat

theorem Payload.length_raw (p : Payload) : p.raw.length = p.len := by
  cases p with
  | bytes b => rfl
  | link hard target => simp [raw, len]

/-! ## The builder -/

/-- `payload_buf`, as all its `payload_cap` bytes, and `payload_len`. -/
structure PayloadBuf where
  mem : Bytes
  len : Nat
deriving DecidableEq, Repr

/-- `while (new_cap < need) new_cap *= 2`; at most `need` rounds. -/
def doubleTo (need : Nat) : Nat → Nat → Nat
  | 0, cap => cap
  | rounds + 1, cap => if cap < need then doubleTo need rounds (cap * 2) else cap

def newCap (cap need : Nat) : Nat := doubleTo need need (if cap = 0 then 4096 else cap * 2)

namespace PayloadBuf

def start : PayloadBuf := ⟨[], 0⟩

/-- `realloc`; `junk` is what the new bytes hold. -/
def grow (junk : Nat → UInt8) (pb : PayloadBuf) (need : Nat) : PayloadBuf :=
  { pb with mem := pb.mem ++ (List.range (newCap pb.mem.length need - pb.mem.length)).map junk }

/-- `memcpy` to the end of the payload. -/
def copy (pb : PayloadBuf) (p : Bytes) : Parse PayloadBuf :=
  if pb.len + p.length ≤ pb.mem.length then
    .accept ⟨pb.mem.take pb.len ++ p ++ pb.mem.drop (pb.len + p.length), pb.len + p.length⟩
  else .fault

/-- One entry's payload. -/
def add (want : Bool) (junk : Nat → UInt8) (growFails : Bool) (pb : PayloadBuf) (p : Bytes) : Parse PayloadBuf :=
  if 0 < p.length ∧ want = false then .accept { pb with len := pb.len + p.length }
  else if 0 < p.length then
    if pb.mem.length < pb.len + p.length then
      if growFails then .reject else (pb.grow junk (pb.len + p.length)).copy p
    else pb.copy p
  else .accept pb

/-- The pointer: NULL until something was copied. -/
def ptr (pb : PayloadBuf) : Option Bytes := if pb.mem = [] then none else some pb.mem

end PayloadBuf

/-- The entry loop of `H5VL__stream_build_manifest` with the payload it collects. -/
def buildStaged (want : Bool) (junk : Nat → UInt8) (env : BuildEnv) :
    Nat → PayloadBuf → List PendingEntry → TypeCache → TypeCache × Parse (List Entry × PayloadBuf)
  | _, pb, [], w => (w, .accept ([], pb))
  | i, pb, pe :: ps, w =>
    if env.encodeFails i then (w, .reject)
    else if sendsNewType w pe && env.upsertFails i then (w, .reject)
    else
      match pb.add want junk (env.growFails i) pe.payload.raw with
      | .fault => (recordType w pe, .fault)
      | .reject => (recordType w pe, .reject)
      | .accept pb' =>
        let e : Entry := ⟨pe.kind, pe.path, encodeType w pe, pe.space, pe.dcpl, pb.len, pe.payload.raw.length⟩
        let rest := buildStaged want junk env (i + 1) pb' ps (recordType w pe)
        (rest.1, rest.2.map fun r => (e :: r.1, r.2))

/-- `H5VL__stream_build_manifest` with `want_payload_buf`, and what it hands back. -/
def buildManifestStaged (want : Bool) (junk : Nat → UInt8) (env : BuildEnv) (fs : Core) :
    Core × Parse (Step × PayloadBuf) :=
  let r := buildStaged want junk env 0 .start fs.pending fs.writeTypeCache
  ({ fs with writeTypeCache := r.1 }, r.2.bind fun p =>
    if env.finalizeFails then .reject
    else .accept (⟨fs.physicalStep, fs.logicalIds, fs.wallTimeNs, p.1, p.2.len⟩, p.2))

/-! ## The reader -/

/-- What `entry_payload` points at; `none` is NULL. -/
def entryPayload (payloadBuf : Option Bytes) (pending : Option (List PendingEntry)) (i : Nat) (e : Entry) :
    Option Bytes :=
  match payloadBuf with
  | some mem => some (mem.drop e.payloadOff)
  | none =>
    match pending with
    | some ps => ps[i]?.map (·.payload.raw)
    | none => none

/-- The bytes replay applies for entry `i`: refused by one of the two checks in front of them, read outside the
memory they are in, or read. -/
def readPayload (payloadBuf : Option Bytes) (pending : Option (List PendingEntry)) (payloadLen i : Nat) (e : Entry) :
    Parse Bytes :=
  if 0 < e.payloadLen ∧ payloadBuf.isSome ∧ (payloadLen < e.payloadOff ∨ payloadLen - e.payloadOff < e.payloadLen) then
    .reject
  else
    match entryPayload payloadBuf pending i e with
    | none => if 0 < e.payloadLen then .reject else .accept []
    | some mem => if e.payloadLen ≤ mem.length then .accept (mem.take e.payloadLen) else .fault

/-- The entries in the order of the two passes, each with its bytes. -/
def appliedPayloads (payloadBuf : Option Bytes) (pending : Option (List PendingEntry)) (m : Step) :
    List ((Nat × Entry) × Parse Bytes) :=
  (replayOrder m.entries).map fun ie => (ie, readPayload payloadBuf pending m.payloadBytes ie.1 ie.2)

/-! ## The buffer holds the payloads -/

theorem le_doubleTo {need : Nat} {rounds cap : Nat} (hcap : 0 < cap) (hr : need ≤ cap + rounds) :
    need ≤ doubleTo need rounds cap := by
  induction rounds generalizing cap with
  | zero => exact hr
  | succ rounds ih =>
    rw [doubleTo]
    by_cases h : cap < need
    · rw [if_pos h]
      exact ih (by omega) (by omega)
    · rw [if_neg h]
      exact Nat.le_of_not_lt h

theorem le_newCap (cap need : Nat) : need ≤ newCap cap need := by
  rw [newCap]
  by_cases h : cap = 0
  · rw [if_pos h]
    exact le_doubleTo (by decide) (Nat.le_add_left need 4096)
  · rw [if_neg h]
    exact le_doubleTo (by omega) (Nat.le_add_left need _)

namespace PayloadBuf

/-- The payload so far is `done`; where the buffer is wanted it holds these bytes, within its block. -/
structure Holds (want : Bool) (pb : PayloadBuf) (done : Bytes) : Prop where
  len : pb.len = done.length
  fits : want = true → pb.len ≤ pb.mem.length
  bytes : want = true → pb.mem.take pb.len = done
  unwanted : want = false → pb.mem = []

theorem holds_start (want : Bool) : Holds want start [] := ⟨rfl, fun _ => Nat.le_refl 0, fun _ => rfl, fun _ => rfl⟩

theorem grow_fits (junk : Nat → UInt8) (pb : PayloadBuf) (need : Nat) : need ≤ (pb.grow junk need).mem.length := by
  have := le_newCap pb.mem.length need
  simp only [grow, List.length_append, List.length_map, List.length_range]
  omega

theorem Holds.grow {want : Bool} {pb : PayloadBuf} {done : Bytes} (h : Holds want pb done) (hw : want = true)
    (junk : Nat → UInt8) (need : Nat) : Holds want (pb.grow junk need) done := by
  have hfits := h.fits hw
  refine ⟨h.len, fun _ => ?_, fun _ => ?_, fun hw' => ?_⟩
  · simp only [PayloadBuf.grow, List.length_append]
    omega
  · rw [← h.bytes hw]
    exact List.take_append_of_le_length hfits
  · rw [hw] at hw'
    cases hw'

theorem Holds.copy {want : Bool} {pb : PayloadBuf} {done p : Bytes} (h : Holds want pb done) (hw : want = true)
    (hroom : pb.len + p.length ≤ pb.mem.length) : ∃ pb', pb.copy p = .accept pb' ∧ Holds want pb' (done ++ p) := by
  refine ⟨_, if_pos hroom, ?_, fun _ => ?_, fun _ => ?_, fun hw' => ?_⟩
  · rw [List.length_append, h.len]
  · simp only [List.length_append, List.length_take, List.length_drop]
    omega
  · have hlen : (pb.mem.take pb.len ++ p).length = pb.len + p.length := by
      rw [List.length_append, List.length_take, Nat.min_eq_left (h.fits hw)]
    rw [List.take_append_of_le_length (Nat.le_of_eq hlen.symm), List.take_of_length_le (Nat.le_of_eq hlen), h.bytes hw]
  · rw [hw] at hw'
    cases hw'

/-- A payload is added, unless the buffer has to grow and cannot. It is never copied outside the block. -/
theorem Holds.add {want : Bool} {pb : PayloadBuf} {done : Bytes} (h : Holds want pb done) (junk : Nat → UInt8)
    (growFails : Bool) (p : Bytes) :
    (growFails = true ∧ pb.add want junk growFails p = .reject) ∨
      ∃ pb', pb.add want junk growFails p = .accept pb' ∧ Holds want pb' (done ++ p) := by
  rw [PayloadBuf.add]
  by_cases hp : 0 < p.length
  · cases want with
    | false =>
      right
      rw [if_pos ⟨hp, rfl⟩]
      refine ⟨_, rfl, ?_, nofun, nofun, h.unwanted⟩
      rw [List.length_append, h.len]
    | true =>
      rw [if_neg (fun hno => absurd hno.2 (by decide)), if_pos hp]
      by_cases hroom : pb.mem.length < pb.len + p.length
      · rw [if_pos hroom]
        cases growFails with
        | true => exact .inl ⟨rfl, rfl⟩
        | false => exact .inr ((h.grow rfl junk _).copy rfl (grow_fits junk pb _))
      · rw [if_neg hroom]
        exact .inr (h.copy rfl (Nat.le_of_not_lt hroom))
  · have hnil : p = [] := List.length_eq_zero_iff.mp (by omega)
    rw [if_neg (fun hno => hp hno.1), if_neg hp, hnil, List.append_nil]
    exact .inr ⟨pb, rfl, h⟩

end PayloadBuf

def rawPayloads (ps : List PendingEntry) : List Bytes := ps.map (·.payload.raw)

def Entry.slice (e : Entry) : Nat × Nat := (e.payloadOff, e.payloadLen)

/-- Both modes encode what `buildEntries` does and collect the payloads, or a call failed. -/
theorem buildStaged_spec {want : Bool} (junk : Nat → UInt8) (env : BuildEnv) (i : Nat) {pb : PayloadBuf} {done : Bytes}
    (hpb : pb.Holds want done) (ps : List PendingEntry) (w : TypeCache) :
    ((buildStaged want junk env i pb ps w).2 = .reject ∧ env ≠ .quiet) ∨
      ∃ w' es pb', buildStaged want junk env i pb ps w = (w', .accept (es, pb')) ∧
        buildEntries .quiet i pb.len ps w = (w', some (es, pb'.len)) ∧
        pb'.Holds want (done ++ (rawPayloads ps).flatten) := by
  induction ps generalizing i pb done w with
  | nil =>
    refine .inr ⟨w, [], pb, rfl, rfl, ?_⟩
    rw [rawPayloads, List.map_nil, List.flatten_nil, List.append_nil]
    exact hpb
  | cons pe ps ih =>
    have hquiet : ∀ b : Bool, b = true → (env = .quiet → b = false) → env ≠ .quiet := by
      rintro b rfl hb henv
      cases hb henv
    rw [buildStaged, buildEntries]
    cases hencode : env.encodeFails i with
    | true => exact .inl ⟨rfl, hquiet _ hencode fun h => by rw [h]; rfl⟩
    | false =>
      simp only [BuildEnv.quiet, Bool.and_false, Bool.false_eq_true, if_false]
      by_cases hupsert : (sendsNewType w pe && env.upsertFails i) = true
      · rw [if_pos hupsert]
        exact .inl ⟨rfl, hquiet _ (Bool.and_eq_true_iff.mp hupsert).2 fun h => by rw [h]; rfl⟩
      · rw [if_neg hupsert]
        rcases hpb.add junk (env.growFails i) pe.payload.raw with ⟨hgrow, hadd⟩ | ⟨pb₁, hadd, hpb₁⟩
        · rw [hadd]
          exact .inl ⟨rfl, hquiet _ hgrow fun h => by rw [h]; rfl⟩
        · simp only [hadd]
          have hlen : pb₁.len = pb.len + pe.payload.len := by
            rw [hpb₁.len, List.length_append, ← hpb.len, Payload.length_raw]
          rcases ih (i + 1) hpb₁ (recordType w pe) with ⟨hrej, henv⟩ | ⟨w', es, pb', hrest, hentries, hpb'⟩
          · rw [hrej]
            exact .inl ⟨rfl, henv⟩
          · rw [hlen, BuildEnv.quiet] at hentries
            rw [hrest, hentries, Payload.length_raw]
            refine .inr ⟨w', _, pb', rfl, rfl, ?_⟩
            rwa [rawPayloads, List.map_cons, List.flatten_cons, ← List.append_assoc]

/-! ## The slices -/

/-- The entries' slices are laid out by the running offset, each as long as the entry's payload. -/
theorem buildEntries_slices {env : BuildEnv} {i off total : Nat} {ps : List PendingEntry} {w w' : TypeCache}
    {es : List Entry} (h : buildEntries env i off ps w = (w', some (es, total))) :
    Consecutive off (es.map Entry.slice) total ∧ es.map (·.payloadLen) = ps.map (·.payload.len) := by
  induction ps generalizing i off w es with
  | nil =>
    cases h
    exact ⟨rfl, rfl⟩
  | cons pe ps ih =>
    unfold buildEntries at h
    split at h
    · cases h
    · split at h
      · cases h
      · split at h
        · cases h
        · simp only at h
          cases hrest : buildEntries env (i + 1) (off + pe.payload.len) ps (recordType w pe) with
          | mk w₁ res₁ =>
            rw [hrest] at h
            cases res₁ with
            | none => cases h
            | some pair =>
              obtain ⟨es', n⟩ := pair
              cases h
              obtain ⟨hslices, hlens⟩ := ih hrest
              exact ⟨⟨rfl, hslices⟩, by rw [List.map_cons, List.map_cons, hlens]⟩

/-- What `H5VL__stream_build_manifest` hands back, in both modes: the manifest of the unstaged one, and the
payloads one behind the other. -/
theorem buildManifestStaged_ok {want : Bool} {junk : Nat → UInt8} {env : BuildEnv} {fs fs' : Core} {m : Step}
    {pb : PayloadBuf} (h : buildManifestStaged want junk env fs = (fs', .accept (m, pb))) :
    buildManifest .quiet fs = (fs', some m) ∧ m.payloadBytes = pb.len ∧
      pb.Holds want (rawPayloads fs.pending).flatten := by
  unfold buildManifestStaged at h
  rcases buildStaged_spec junk env 0 (PayloadBuf.holds_start want) fs.pending fs.writeTypeCache with
    ⟨hrej, -⟩ | ⟨w', es, pb', hbuild, hentries, hpb⟩
  · simp only [hrej, Parse.bind_reject] at h
    cases congrArg Prod.snd h
  · simp only [hbuild, Parse.bind_accept, Prod.mk.injEq] at h
    obtain ⟨hfs, hm⟩ := h
    by_cases hfinal : env.finalizeFails = true
    · rw [if_pos hfinal] at hm
      cases hm
    · rw [if_neg hfinal] at hm
      cases hm
      refine ⟨?_, rfl, hpb⟩
      have hstart : PayloadBuf.start.len = 0 := rfl
      rw [hstart] at hentries
      rw [buildManifest, hentries]
      simp only [BuildEnv.quiet, Bool.false_eq_true, if_false, hfs]

/-- No call fails, and the manifest is built. -/
theorem buildManifestStaged_quiet (want : Bool) (junk : Nat → UInt8) (fs : Core) :
    ∃ fs' m pb, buildManifestStaged want junk .quiet fs = (fs', .accept (m, pb)) := by
  rcases buildStaged_spec junk .quiet 0 (PayloadBuf.holds_start want) fs.pending fs.writeTypeCache with
    ⟨-, hno⟩ | ⟨w', es, pb', hbuild, -, -⟩
  · exact absurd rfl hno
  · unfold buildManifestStaged
    rw [hbuild]
    exact ⟨_, _, pb', rfl⟩

/-- What the encoder may answer is never a copy outside the buffer. -/
theorem buildManifestStaged_safe (want : Bool) (junk : Nat → UInt8) (env : BuildEnv) (fs : Core) :
    (buildManifestStaged want junk env fs).2.Safe := by
  unfold buildManifestStaged
  rcases buildStaged_spec junk env 0 (PayloadBuf.holds_start want) fs.pending fs.writeTypeCache with
    ⟨hrej, -⟩ | ⟨w', es, pb', hbuild, -, -⟩
  · simp only [hrej, Parse.bind_reject]
    exact Parse.safe_reject
  · rw [hbuild]
    show (if env.finalizeFails then _ else _ : Parse (Step × PayloadBuf)).Safe
    split
    · exact Parse.safe_reject
    · exact Parse.safe_accept _

/-! ## Reading -/

/-- A manifest and the payload it was built with: the slices tile the payload, and whichever way an entry's bytes
are read, in whichever order, they are its pending entry's. -/
structure SameBytes (want : Bool) (pending : List PendingEntry) (m : Step) (pb : PayloadBuf) : Prop where
  entries : m.entries.length = pending.length
  consecutive : Consecutive 0 (m.entries.map Entry.slice) m.payloadBytes
  disjoint : (m.entries.map Entry.slice).Pairwise fun s t => s.1 + s.2 ≤ t.1
  covered : ∀ x < m.payloadBytes, ∃ s ∈ m.entries.map Entry.slice, s.1 ≤ x ∧ x < s.1 + s.2
  lengths : ∀ (i : Nat) (e : Entry) (pe : PendingEntry), m.entries[i]? = some e → pending[i]? = some pe →
    e.payloadLen = pe.payload.raw.length
  held : want = true → ∀ (i : Nat) (e : Entry) (pe : PendingEntry), m.entries[i]? = some e → pending[i]? = some pe →
    (pb.mem.drop e.payloadOff).take e.payloadLen = pe.payload.raw
  applied : ∀ ie ∈ replayOrder m.entries, ∃ pe, pending[ie.1]? = some pe ∧
    readPayload pb.ptr (some pending) m.payloadBytes ie.1 ie.2 = .accept pe.payload.raw
  unstaged : appliedPayloads none (some pending) m = appliedPayloads pb.ptr (some pending) m
  drained : want = true → appliedPayloads (some (pb.mem.take pb.len)) none m = appliedPayloads pb.ptr (some pending) m

section reading

variable {m : Step} {pending : List PendingEntry} {i : Nat} {e : Entry} {pe : PendingEntry}
  (hslices : Consecutive 0 (m.entries.map Entry.slice) m.payloadBytes)
  (hlens : m.entries.map (·.payloadLen) = (rawPayloads pending).map List.length)
  (he : m.entries[i]? = some e) (hpe : pending[i]? = some pe)

include hslices hlens he hpe

omit hslices in
theorem payloadLen_eq : e.payloadLen = pe.payload.raw.length := by
  have h : (m.entries.map (·.payloadLen))[i]? = some pe.payload.raw.length := by
    rw [hlens, rawPayloads, List.getElem?_map, List.getElem?_map, hpe]
    rfl
  rw [List.getElem?_map, he] at h
  exact Option.some.inj h

/-- A block that begins with the payloads has each of them at its entry's offset. -/
theorem slice_eq {mem : Bytes} (hmem : mem.take m.payloadBytes = (rawPayloads pending).flatten) :
    (mem.drop e.payloadOff).take e.payloadLen = pe.payload.raw := by
  have hslice : (m.entries.map Entry.slice)[i]? = some (e.payloadOff, e.payloadLen) := by
    rw [List.getElem?_map, he]
    rfl
  have hblock : (rawPayloads pending)[i]? = some pe.payload.raw := by
    rw [rawPayloads, List.getElem?_map, hpe]
    rfl
  have hread := Consecutive.read (p := []) (t := mem.drop m.payloadBytes) hslices
    (by rw [← hlens, List.map_map]; rfl) hslice hblock
  rwa [List.nil_append, ← hmem, List.take_append_drop] at hread

/-- Reading through a buffer of at least the payload's length: neither check refuses, nothing is read outside. -/
theorem readPayload_buffer {mem : Bytes} (hmem : mem.take m.payloadBytes = (rawPayloads pending).flatten)
    (hfits : m.payloadBytes ≤ mem.length) (ps : Option (List PendingEntry)) :
    readPayload (some mem) ps m.payloadBytes i e = .accept pe.payload.raw := by
  have hbound := (hslices.bounds (List.mem_map_of_mem (List.mem_of_getElem? he))).2
  have hend : e.payloadOff + e.payloadLen ≤ m.payloadBytes := hbound
  rw [readPayload, if_neg (by omega), entryPayload]
  simp only [List.length_drop]
  rw [if_pos (by omega), slice_eq hslices hlens he hpe hmem]

omit hslices in
/-- Reading through the pending entries. -/
theorem readPayload_pending : readPayload none (some pending) m.payloadBytes i e = .accept pe.payload.raw := by
  have hlen := payloadLen_eq hlens he hpe
  rw [readPayload, if_neg (by simp), entryPayload]
  simp only [hpe, Option.map_some]
  rw [if_pos (Nat.le_of_eq hlen), hlen, List.take_length]

end reading

/-- The entries and the slices of a manifest that was built. -/
theorem buildManifest_slices {env : BuildEnv} {fs fs' : Core} {m : Step} (h : buildManifest env fs = (fs', some m)) :
    Consecutive 0 (m.entries.map Entry.slice) m.payloadBytes ∧
      m.entries.map (·.payloadLen) = (rawPayloads fs.pending).map List.length := by
  unfold buildManifest at h
  cases hbuild : buildEntries env 0 0 fs.pending fs.writeTypeCache with
  | mk w res =>
    rw [hbuild] at h
    cases res with
    | none => cases h
    | some pair =>
      obtain ⟨entries, total⟩ := pair
      simp only [Prod.mk.injEq] at h
      obtain ⟨-, h⟩ := h
      rw [Option.ite_none_left_eq_some, Option.some.injEq] at h
      obtain ⟨-, rfl⟩ := h
      obtain ⟨hslices, hlens⟩ := buildEntries_slices hbuild
      refine ⟨hslices, hlens.trans ?_⟩
      rw [rawPayloads, List.map_map]
      exact List.map_congr_left fun pe _ => (Payload.length_raw pe.payload).symm

/-- Whatever is pending: where the builder returns a manifest, in either mode, its slices tile the payload; the
buffer, if it was wanted, holds every entry's bytes in its slice; a replay that goes through the buffer, one that
goes through the pending entries and one of the spilled copy apply the pending entry's bytes to every entry, in the
order of their two passes; the bounds check refuses none; and the replay as a whole comes to the same. The other mode
returns the same manifest. The builder copies nothing outside the buffer, and it does return one if no call fails. -/
theorem staged_replay_same_bytes {want : Bool} {junk : Nat → UInt8} {env : BuildEnv} {fs fs' : Core} {m : Step}
    {pb : PayloadBuf} (h : buildManifestStaged want junk env fs = (fs', .accept (m, pb))) :
    SameBytes want fs.pending m pb ∧
      (∀ e ∈ m.entries, ReplayArgs.outOfBounds { fs.replayArgs m with staged := true } e = false) ∧
      (∀ renv st, replayManifest renv { fs.replayArgs m with staged := true } st =
        replayManifest renv { fs.replayArgs m with staged := false } st) ∧
      (∀ want' junk' env' fs'' m' pb', buildManifestStaged want' junk' env' fs = (fs'', .accept (m', pb')) → m' = m) ∧
      ∀ want' junk', (∀ env', (buildManifestStaged want' junk' env' fs).2.Safe) ∧
        ∃ fs'' pb', buildManifestStaged want' junk' .quiet fs = (fs'', .accept (m, pb')) := by
  obtain ⟨hbuild, hbytes, hpb⟩ := buildManifestStaged_ok h
  obtain ⟨hslices, hlens⟩ := buildManifest_slices hbuild
  have hcount : m.entries.length = fs.pending.length := by
    have := congrArg List.length hlens
    simpa [rawPayloads] using this
  have hsame : ∀ {want' junk' env' fs'' m' pb'},
      buildManifestStaged want' junk' env' fs = (fs'', .accept (m', pb')) → m' = m := by
    intro want' junk' env' fs'' m' pb' h'
    have := (buildManifestStaged_ok h').1
    rw [hbuild, Prod.mk.injEq, Option.some.injEq] at this
    exact this.2.symm
  -- the pending entry of an entry in either pass
  have hpair : ∀ ie ∈ replayOrder m.entries, m.entries[ie.1]? = some ie.2 ∧ ∃ pe, fs.pending[ie.1]? = some pe := by
    intro ie hie
    have he := getElem?_of_mem_replayOrder hie
    have hlt := (List.getElem?_eq_some_iff.mp he).1
    have hlt' : ie.1 < fs.pending.length := hcount ▸ hlt
    exact ⟨he, fs.pending[ie.1], List.getElem?_eq_getElem hlt'⟩
  have hmem : want = true → pb.mem.take m.payloadBytes = (rawPayloads fs.pending).flatten ∧ m.payloadBytes ≤ pb.mem.length := by
    intro hw
    rw [hbytes]
    exact ⟨hpb.bytes hw, hpb.fits hw⟩
  have happlied : ∀ ie ∈ replayOrder m.entries, ∀ pe, fs.pending[ie.1]? = some pe →
      readPayload pb.ptr (some fs.pending) m.payloadBytes ie.1 ie.2 = .accept pe.payload.raw := by
    intro ie hie pe hpe
    have he := (hpair ie hie).1
    rw [PayloadBuf.ptr]
    by_cases hnull : pb.mem = []
    · rw [if_pos hnull]
      exact readPayload_pending hlens he hpe
    · have hw : want = true := by
        cases want with
        | true => rfl
        | false => exact absurd (hpb.unwanted rfl) hnull
      rw [if_neg hnull]
      exact readPayload_buffer hslices hlens he hpe (hmem hw).1 (hmem hw).2 _
  refine ⟨⟨hcount, hslices, hslices.disjoint, fun x hx => hslices.cover (Nat.zero_le x) hx, ?_, ?_, ?_, ?_, ?_⟩, ?_, ?_, ?_, ?_⟩
  · exact fun i e pe he hpe => payloadLen_eq hlens he hpe
  · exact fun hw i e pe he hpe => slice_eq hslices hlens he hpe (hmem hw).1
  · intro ie hie
    obtain ⟨-, pe, hpe⟩ := hpair ie hie
    exact ⟨pe, hpe, happlied ie hie pe hpe⟩
  · refine List.map_congr_left fun ie hie => ?_
    obtain ⟨he, pe, hpe⟩ := hpair ie hie
    rw [happlied ie hie pe hpe, readPayload_pending hlens he hpe]
  · intro hw
    refine List.map_congr_left fun ie hie => ?_
    obtain ⟨he, pe, hpe⟩ := hpair ie hie
    obtain ⟨htaken, hfits⟩ := hmem hw
    have hcopy : (pb.mem.take pb.len).length = m.payloadBytes := by
      rw [List.length_take, ← hbytes, Nat.min_eq_left hfits]
    rw [happlied ie hie pe hpe, readPayload_buffer hslices hlens he hpe
      (by rw [← hbytes, List.take_take, Nat.min_self, htaken]) (Nat.le_of_eq hcopy.symm)]
  · exact fun e he => outOfBounds_built hbuild rfl he
  · intro renv st
    exact replayManifest_staged renv { fs.replayArgs m with staged := false } true
      (fun e he => ⟨outOfBounds_built hbuild rfl he, outOfBounds_built hbuild rfl he⟩) st
  · exact fun want' junk' env' fs'' m' pb' h' => hsame h'
  · intro want' junk'
    refine ⟨fun env' => buildManifestStaged_safe want' junk' env' fs, ?_⟩
    obtain ⟨fs'', m', pb', hquiet⟩ := buildManifestStaged_quiet want' junk' fs
    obtain rfl := hsame hquiet
    exact ⟨fs'', pb', hquiet⟩

-- a dataset without bytes of its own, three bytes written to it, and an attribute of one
def threeEntries : Core :=
  let native : Datatype := nativeUchar
  let three : Dataspace := ⟨.simple [3], .all⟩
  { (Writer.init .plain).core with
    pending := [⟨.dsetCreate, ['/', 'd'], native, three, some [], .bytes [], some 1⟩,
      ⟨.dsetWrite, ['/', 'd'], native, three, none, .bytes [7, 8, 9], none⟩,
      ⟨.attr, ['/', 'd', '@', 'a'], native, ⟨.scalar, .all⟩, some [], .bytes [5], none⟩] }

theorem staged_replay_three_entries :
    ∃ fs' m pb, buildManifestStaged true (fun _ => 0) .quiet threeEntries = (fs', .accept (m, pb)) ∧
      SameBytes true threeEntries.pending m pb := by
  obtain ⟨fs', m, pb, h⟩ := buildManifestStaged_quiet true (fun _ => 0) threeEntries
  exact ⟨fs', m, pb, h, (staged_replay_same_bytes h).1⟩

end VolStream
