import Mathlib.Data.List.TakeWhile
import VolStream.Lib.Wire
import VolStream.Manifest

/-!
# The schema on the wire

A live query is answered with one blob: a header of 16 bytes with the version, the number of entries and
the step that published it, then for each entry a header of 16 bytes with three lengths and the kind, and
the path, the datatype and the dataspace themselves (`H5VL__stream_encode_schema`). The reader walks it
with every length checked against what arrived (`H5VL__stream_decode_schema`).

The encodings of datatypes and dataspaces are HDF5's. `H5Tdecode2` is handed the bytes of one encoding,
`H5Sdecode` a pointer only: it sees whatever follows, so an encoding of a dataspace has to delimit itself.
-/

namespace VolStream

open Wire

/-- The four HDF5 routines: `H5Tencode`, `H5Tdecode2`, `H5Sencode2` and `H5Sdecode`. -/
structure H5Codec (T S : Type) where
  encodeType : T → Bytes
  decodeType : Bytes → Option T
  encodeSpace : S → Bytes
  decodeSpace : Bytes → Option S

/-- The decoders undo the encoders, `H5Sdecode` whatever stands behind the encoding. -/
structure H5Codec.Inverts {T S : Type} (c : H5Codec T S) : Prop where
  type : ∀ t, c.decodeType (c.encodeType t) = some t
  space : ∀ s back, c.decodeSpace (c.encodeSpace s ++ back) = some s

/-- They do so for one datatype and one dataspace. -/
structure H5Codec.InvertsAt {T S : Type} (c : H5Codec T S) (t : T) (s : S) : Prop where
  type : c.decodeType (c.encodeType t) = some t
  space : ∀ back, c.decodeSpace (c.encodeSpace s ++ back) = some s

theorem H5Codec.Inverts.at {T S : Type} {c : H5Codec T S} (h : c.Inverts) (t : T) (s : S) : c.InvertsAt t s :=
  ⟨h.type t, h.space s⟩

variable {T S : Type}

/-- `H5VL_stream_schema_entry_t`; the path is a C string. -/
structure SchemaEntry (T S : Type) where
  path : Bytes
  kind : Kind
  type : T
  space : S
deriving DecidableEq, Repr

/-- `H5F_stream_var_t`. -/
structure StreamVar (T S : Type) where
  path : Bytes
  isAttr : Bool
  type : T
  space : S
deriving DecidableEq, Repr

-- `vs_Kind_enum_t` as a byte
def Kind.code : Kind → UInt8
  | .dsetCreate => 0
  | .dsetWrite => 1
  | .attr => 2
  | .group => 3
  | .link => 4

/-- `H5VL_STREAM_SCHEMA_HDR` and `H5VL_STREAM_SCHEMA_ENT_HDR`. -/
def schemaHdr : Nat := 16
def schemaEntHdr : Nat := 16

/-! ## Packing -/

def encodeEntry (c : H5Codec T S) (e : SchemaEntry T S) : Bytes :=
  putLe 4 e.path.length ++ (putLe 4 (c.encodeType e.type).length ++ (putLe 4 (c.encodeSpace e.space).length ++
    ([e.kind.code] ++ ([0, 0, 0] ++ (e.path ++ (c.encodeType e.type ++ c.encodeSpace e.space))))))

-- the header: version 1, three reserved bytes, the number of entries, the step
def schemaHeader (n physicalStep : Nat) : Bytes := [1, 0, 0, 0] ++ (putLe 4 n ++ putLe 8 physicalStep)

/-- `H5VL__stream_encode_schema`. -/
def encodeSchema (c : H5Codec T S) (physicalStep : Nat) (s : List (SchemaEntry T S)) : Bytes :=
  schemaHeader s.length physicalStep ++ s.flatMap (encodeEntry c)

/-! ## Unpacking -/

-- an announced length that reaches past what arrived
def tooLong (blob : Bytes) (off n : Nat) : Parse Bool := (remaining blob off).map fun left => decide (n > left)

/-- The three variable parts behind an entry's header, and the offset behind them. -/
def decodeParts (c : H5Codec T S) (blob : Bytes) (off pathLen typeLen spaceLen : Nat) (kind : Bytes) :
    Parse (StreamVar T S × Nat) :=
  (tooLong blob off pathLen).bind fun long =>
  if long then .reject else (read blob off pathLen).bind fun path =>
  (tooLong blob (off + pathLen) typeLen).bind fun long =>
  if long then .reject else (read blob (off + pathLen) typeLen).bind fun typeEnc =>
  (Parse.ofOption (c.decodeType typeEnc)).bind fun type =>
  (tooLong blob (off + pathLen + typeLen) spaceLen).bind fun long =>
  if long then .reject
  -- only the pointer is handed over
  else (Parse.ofOption (c.decodeSpace (blob.drop (off + pathLen + typeLen)))).map fun space =>
    -- the path is a C string again
    (⟨path.takeWhile (· ≠ 0), decide (kind = [Kind.attr.code]), type, space⟩, off + pathLen + typeLen + spaceLen)

/-- One round of the entry loop: the variable, and the offset behind the entry. -/
def decodeEntry (c : H5Codec T S) (blob : Bytes) (off : Nat) : Parse (StreamVar T S × Nat) :=
  if off + schemaEntHdr > blob.length then .reject
  else
    (word blob off 4).bind fun pathLen =>
    (word blob (off + 4) 4).bind fun typeLen =>
    (word blob (off + 8) 4).bind fun spaceLen =>
    (read blob (off + 12) 1).bind fun kind =>
    decodeParts c blob (off + schemaEntHdr) pathLen typeLen spaceLen kind

def decodeEntries (c : H5Codec T S) (blob : Bytes) : Nat → Nat → Parse (List (StreamVar T S))
  | 0, _ => .accept []
  | n + 1, off => (decodeEntry c blob off).bind fun v => (decodeEntries c blob n v.2).map (v.1 :: ·)

/-- `H5VL__stream_decode_schema`. -/
def decodeSchema (c : H5Codec T S) (blob : Option Bytes) : Parse (List (StreamVar T S)) :=
  match blob with
  | none => .reject
  | some blob =>
      if blob.length < schemaHdr then .reject
      else (read blob 0 1).bind fun version =>
        if version ≠ [1] then .reject
        else (word blob 4 4).bind fun n => decodeEntries c blob n schemaHdr

-- a C string ends where its bytes do
theorem takeWhile_of_no_nul {b : Bytes} (h : 0 ∉ b) : b.takeWhile (fun x => decide (x ≠ 0)) = b := by
  have hall : ∀ x ∈ b, decide (x ≠ 0) = true := fun x hx => by
    simpa using fun h0 : x = 0 => h (h0 ▸ hx)
  exact List.takeWhile_eq_self_iff.2 hall

/-! ## Staying inside the blob -/

theorem tooLong_of_le {blob : Bytes} {off : Nat} (hoff : off ≤ blob.length) (n : Nat) :
    tooLong blob off n = .accept (decide (n > blob.length - off)) := by
  rw [tooLong, remaining_of_le hoff, Parse.map_accept]

/-- The parts are walked inside the blob, and the walk ends behind the last of them. -/
theorem decodeParts_inside (c : H5Codec T S) {blob : Bytes} {off : Nat} (hoff : off ≤ blob.length)
    (pathLen typeLen spaceLen : Nat) (kind : Bytes) :
    (decodeParts c blob off pathLen typeLen spaceLen kind).Safe ∧
      ∀ v, decodeParts c blob off pathLen typeLen spaceLen kind = .accept v →
        v.2 = off + pathLen + typeLen + spaceLen ∧ v.2 ≤ blob.length := by
  unfold decodeParts
  rw [tooLong_of_le hoff, Parse.bind_accept]
  by_cases hpath : pathLen > blob.length - off
  · rw [decide_eq_true hpath]
    exact ⟨Parse.safe_reject, nofun⟩
  rw [decide_eq_false hpath, if_neg Bool.false_ne_true, read_of_le (by omega), Parse.bind_accept,
    tooLong_of_le (by omega), Parse.bind_accept]
  by_cases htype : typeLen > blob.length - (off + pathLen)
  · rw [decide_eq_true htype]
    exact ⟨Parse.safe_reject, nofun⟩
  rw [decide_eq_false htype, if_neg Bool.false_ne_true, read_of_le (by omega), Parse.bind_accept]
  cases c.decodeType ((blob.drop (off + pathLen)).take typeLen) with
  | none => exact ⟨Parse.safe_reject, nofun⟩
  | some t =>
    rw [Parse.ofOption, Parse.bind_accept, tooLong_of_le (by omega), Parse.bind_accept]
    by_cases hspace : spaceLen > blob.length - (off + pathLen + typeLen)
    · rw [decide_eq_true hspace]
      exact ⟨Parse.safe_reject, nofun⟩
    rw [decide_eq_false hspace, if_neg Bool.false_ne_true]
    cases c.decodeSpace (blob.drop (off + pathLen + typeLen)) with
    | none => exact ⟨Parse.safe_reject, nofun⟩
    | some s =>
      refine ⟨Parse.safe_accept _, fun v hv => ?_⟩
      cases hv
      exact ⟨rfl, by show off + pathLen + typeLen + spaceLen ≤ blob.length; omega⟩

theorem decodeEntry_inside (c : H5Codec T S) (blob : Bytes) (off : Nat) :
    (decodeEntry c blob off).Safe ∧ ∀ v, decodeEntry c blob off = .accept v → v.2 ≤ blob.length := by
  unfold decodeEntry schemaEntHdr
  by_cases hshort : off + 16 > blob.length
  · rw [if_pos hshort]
    exact ⟨Parse.safe_reject, nofun⟩
  rw [if_neg hshort, word_of_le (by omega), Parse.bind_accept, word_of_le (by omega), Parse.bind_accept,
    word_of_le (by omega), Parse.bind_accept, read_of_le (by omega), Parse.bind_accept]
  have hparts := decodeParts_inside c (show off + 16 ≤ blob.length by omega) (getLe ((blob.drop off).take 4))
    (getLe ((blob.drop (off + 4)).take 4)) (getLe ((blob.drop (off + 8)).take 4)) ((blob.drop (off + 12)).take 1)
  exact ⟨hparts.1, fun v hv => (hparts.2 v hv).2⟩

/-- The entry loop stays inside the blob and returns one variable for each round. -/
theorem decodeEntries_inside (c : H5Codec T S) (blob : Bytes) (n off : Nat) :
    (decodeEntries c blob n off).Safe ∧ ∀ vars, decodeEntries c blob n off = .accept vars → vars.length = n := by
  induction n generalizing off with
  | zero =>
    refine ⟨Parse.safe_accept _, fun vars hvars => ?_⟩
    cases hvars
    rfl
  | succ n ih =>
    rw [decodeEntries]
    refine ⟨Parse.safe_bind (decodeEntry_inside c blob off).1 fun v _ =>
      Parse.safe_bind (ih v.2).1 fun vars _ => Parse.safe_accept _, fun vars hvars => ?_⟩
    obtain ⟨v, -, hrest⟩ := Parse.bind_eq_accept hvars
    obtain ⟨rest, hloop, hcons⟩ := Parse.bind_eq_accept hrest
    cases hcons
    rw [List.length_cons, (ih v.2).2 rest hloop]

/-! ## The round trip -/

/-- The lengths fit the fields of the format. -/
structure SchemaFits (c : H5Codec T S) (s : List (SchemaEntry T S)) : Prop where
  count : s.length < 2 ^ 32
  path : ∀ e ∈ s, e.path.length < 2 ^ 32
  type : ∀ e ∈ s, (c.encodeType e.type).length < 2 ^ 32
  space : ∀ e ∈ s, (c.encodeSpace e.space).length < 2 ^ 32

/-- What a reader is to get for an entry. -/
def SchemaEntry.var (e : SchemaEntry T S) : StreamVar T S := ⟨e.path, decide (e.kind = .attr), e.type, e.space⟩

-- what an entry is packed behind
def SchemaEntry.parts (c : H5Codec T S) (e : SchemaEntry T S) : Bytes :=
  e.path ++ (c.encodeType e.type ++ c.encodeSpace e.space)

theorem length_encodeEntry (c : H5Codec T S) (e : SchemaEntry T S) :
    (encodeEntry c e).length = schemaEntHdr + e.path.length + (c.encodeType e.type).length
      + (c.encodeSpace e.space).length := by
  simp only [encodeEntry, schemaEntHdr, List.length_append, length_putLe, List.length_cons, List.length_nil]
  omega

/-- The header of an entry, read where the entry was packed. -/
theorem read_header {c : H5Codec T S} {s : List (SchemaEntry T S)} (hfits : SchemaFits c s) {e : SchemaEntry T S}
    (he : e ∈ s) {blob back : Bytes} {off : Nat} (hoff : off ≤ blob.length)
    (h : blob.drop off = encodeEntry c e ++ back) :
    word blob off 4 = .accept e.path.length ∧ word blob (off + 4) 4 = .accept (c.encodeType e.type).length ∧
      word blob (off + 8) 4 = .accept (c.encodeSpace e.space).length ∧
      read blob (off + 12) 1 = .accept [e.kind.code] ∧ blob.drop (off + schemaEntHdr) = e.parts c ++ back ∧
      off + schemaEntHdr ≤ blob.length := by
  simp only [encodeEntry, List.append_assoc] at h
  have hpath := word_of_drop hoff (by simpa using hfits.path e he) h
  have h4 := le_of_drop hoff h
  have htype := drop_of_drop h
  rw [length_putLe] at h4 htype
  have h8 := le_of_drop h4 htype
  have hspace := drop_of_drop htype
  rw [length_putLe] at h8 hspace
  have h12 := le_of_drop h8 hspace
  have hkind := drop_of_drop hspace
  rw [length_putLe] at h12 hkind
  have h13 := le_of_drop h12 hkind
  have hzero := drop_of_drop hkind
  have h16 := le_of_drop h13 hzero
  have hparts := drop_of_drop hzero
  refine ⟨hpath, word_of_drop h4 (by simpa using hfits.type e he) htype,
    word_of_drop h8 (by simpa using hfits.space e he) hspace, read_of_drop h12 hkind, ?_, h16⟩
  rw [SchemaEntry.parts, List.append_assoc, List.append_assoc]
  exact hparts

/-- The attribute flag survives as the kind's byte. -/
theorem code_eq_attr (k : Kind) : decide ([k.code] = [Kind.attr.code]) = decide (k = .attr) := by
  cases k <;> rfl

theorem decodeParts_packed {c : H5Codec T S} (hc : c.Inverts) {e : SchemaEntry T S} (hnul : 0 ∉ e.path)
    {blob back : Bytes} {off : Nat} (hoff : off ≤ blob.length) (h : blob.drop off = e.parts c ++ back) :
    decodeParts c blob off e.path.length (c.encodeType e.type).length (c.encodeSpace e.space).length [e.kind.code]
      = .accept (e.var, off + e.path.length + (c.encodeType e.type).length + (c.encodeSpace e.space).length) := by
  rw [SchemaEntry.parts, List.append_assoc, List.append_assoc] at h
  have hpath := le_of_drop hoff h
  have htype := drop_of_drop h
  have htypeEnd := le_of_drop hpath htype
  have hspace := drop_of_drop htype
  have hspaceEnd := le_of_drop htypeEnd hspace
  have hstr : e.path.takeWhile (fun b => decide (b ≠ 0)) = e.path := takeWhile_of_no_nul hnul
  unfold decodeParts
  rw [tooLong_of_le hoff, Parse.bind_accept, decide_eq_false (by omega), if_neg Bool.false_ne_true,
    read_of_drop hoff h, Parse.bind_accept, tooLong_of_le hpath, Parse.bind_accept, decide_eq_false (by omega),
    if_neg Bool.false_ne_true, read_of_drop hpath htype, Parse.bind_accept, hc.type, Parse.ofOption, Parse.bind_accept,
    tooLong_of_le htypeEnd, Parse.bind_accept, decide_eq_false (by omega), if_neg Bool.false_ne_true, hspace, hc.space,
    Parse.ofOption, Parse.map_accept, hstr, code_eq_attr]
  rfl

theorem decodeEntries_packed {c : H5Codec T S} (hc : c.Inverts) {s : List (SchemaEntry T S)} (hfits : SchemaFits c s)
    (hnul : ∀ e ∈ s, 0 ∉ e.path) {l : List (SchemaEntry T S)} (hl : ∀ e ∈ l, e ∈ s) {blob : Bytes} {off : Nat}
    (hoff : off ≤ blob.length) (h : blob.drop off = l.flatMap (encodeEntry c)) :
    decodeEntries c blob l.length off = .accept (l.map SchemaEntry.var) := by
  induction l generalizing off with
  | nil => rfl
  | cons e l ih =>
    rw [List.flatMap_cons] at h
    have he : e ∈ s := hl e List.mem_cons_self
    obtain ⟨hpath, htype, hspace, hkind, hparts, hend⟩ := read_header hfits he hoff h
    have hnext := drop_of_drop h
    have hnextEnd := le_of_drop hoff h
    have hlen := length_encodeEntry c e
    have hentry : decodeEntry c blob off = .accept (e.var, off + (encodeEntry c e).length) := by
      unfold decodeEntry
      rw [if_neg (by omega), hpath, Parse.bind_accept, htype, Parse.bind_accept, hspace, Parse.bind_accept, hkind,
        Parse.bind_accept, decodeParts_packed hc (hnul e he) hend hparts]
      congr 2
      omega
    rw [List.length_cons, decodeEntries, hentry, Parse.bind_accept,
      ih (fun e' he' => hl e' (List.mem_cons_of_mem _ he')) hnextEnd hnext]
    rfl

/-! ## Truncated blobs -/

/-- An entry of which the end is cut off is refused; one that is whole is walked to its end. -/
theorem decodeEntry_cut {c : H5Codec T S} {s : List (SchemaEntry T S)} (hfits : SchemaFits c s) {e : SchemaEntry T S}
    (he : e ∈ s) {blob back : Bytes} {off k : Nat} (hoff : off ≤ blob.length) (hk : k ≤ blob.length)
    (h : blob.drop off = encodeEntry c e ++ back) {v : StreamVar T S × Nat}
    (hv : decodeEntry c (blob.take k) off = .accept v) : v.2 = off + (encodeEntry c e).length ∧ v.2 ≤ k := by
  obtain ⟨hpath, htype, hspace, hkind, -, -⟩ := read_header hfits he hoff h
  have hlen := length_encodeEntry c e
  have htake : (blob.take k).length = k := by
    rw [List.length_take]
    omega
  unfold decodeEntry at hv
  rw [htake] at hv
  split at hv
  · cases hv
  · rename_i hshort
    unfold schemaEntHdr at hshort hlen
    rw [word_take (by omega) hk, hpath, Parse.bind_accept, word_take (by omega) hk, htype, Parse.bind_accept,
      word_take (by omega) hk, hspace, Parse.bind_accept, read_take (by omega) hk, hkind, Parse.bind_accept] at hv
    obtain ⟨hend, hle⟩ := (decodeParts_inside c (show off + schemaEntHdr ≤ (blob.take k).length by
      rw [htake]; unfold schemaEntHdr; omega) _ _ _ _).2 v hv
    unfold schemaEntHdr at hend
    omega

theorem decodeEntries_cut {c : H5Codec T S} {s : List (SchemaEntry T S)} (hfits : SchemaFits c s)
    {l : List (SchemaEntry T S)} (hl : ∀ e ∈ l, e ∈ s) {blob : Bytes} {off k : Nat} (hoff : off ≤ k)
    (hk : k < blob.length) (h : blob.drop off = l.flatMap (encodeEntry c)) :
    decodeEntries c (blob.take k) l.length off = .reject := by
  induction l generalizing off with
  | nil =>
    -- the offset is the end of the whole blob
    rw [List.flatMap_nil, List.drop_eq_nil_iff] at h
    omega
  | cons e l ih =>
    rw [List.flatMap_cons] at h
    rw [List.length_cons, decodeEntries]
    cases hentry : decodeEntry c (blob.take k) off with
    | fault => exact absurd hentry (decodeEntry_inside c _ off).1
    | reject => rfl
    | accept v =>
      obtain ⟨hend, hle⟩ := decodeEntry_cut hfits (hl e List.mem_cons_self) (by omega) (by omega) h hentry
      have hnext := drop_of_drop h
      rw [← hend] at hnext
      rw [Parse.bind_accept, ih (fun e' he' => hl e' (List.mem_cons_of_mem _ he')) hle hnext]
      rfl

/-! ## The blob -/

-- the number of entries the header announces
def announced (blob : Bytes) : Nat := getLe ((blob.drop 4).take 4)

theorem length_schemaHeader (n physicalStep : Nat) : (schemaHeader n physicalStep).length = schemaHdr := by
  simp only [schemaHeader, schemaHdr, List.length_append, length_putLe, List.length_cons, List.length_nil]

theorem read_schemaHeader {n : Nat} (hn : n < 2 ^ 32) (physicalStep : Nat) (back : Bytes) :
    read (schemaHeader n physicalStep ++ back) 0 1 = .accept [1] ∧
      word (schemaHeader n physicalStep ++ back) 4 4 = .accept n := by
  have hlen := length_schemaHeader n physicalStep
  unfold schemaHdr at hlen
  constructor
  · have hfirst : (schemaHeader n physicalStep ++ back).drop 0 = [1] ++ (schemaHeader n physicalStep ++ back).tail := rfl
    exact read_of_drop (Nat.zero_le _) hfirst
  · have hcount : (schemaHeader n physicalStep ++ back).drop 4 = putLe 4 n ++ (putLe 8 physicalStep ++ back) := by
      simp [schemaHeader]
    exact word_of_drop (by rw [List.length_append]; omega) (by simpa using hn) hcount

/-- The schema blob: what was packed is what is unpacked, any blob at all is walked inside its bytes and
yields as many variables as it announces, and no blob of a schema can be cut short unnoticed. -/
theorem schemaBlob_exact (c : H5Codec T S) :
    (c.Inverts → ∀ (physicalStep : Nat) (s : List (SchemaEntry T S)), SchemaFits c s → (∀ e ∈ s, 0 ∉ e.path) →
        decodeSchema c (some (encodeSchema c physicalStep s)) = .accept (s.map SchemaEntry.var)) ∧
      (∀ blob : Option Bytes, (decodeSchema c blob).Safe ∧
        ∀ vars, decodeSchema c blob = .accept vars → ∃ b, blob = some b ∧ vars.length = announced b) ∧
      ∀ (physicalStep : Nat) (s : List (SchemaEntry T S)), SchemaFits c s →
        ∀ k < (encodeSchema c physicalStep s).length,
          decodeSchema c (some ((encodeSchema c physicalStep s).take k)) = .reject := by
  refine ⟨fun hc physicalStep s hfits hnul => ?_, fun blob => ?_, fun physicalStep s hfits k hk => ?_⟩
  · obtain ⟨hversion, hcount⟩ := read_schemaHeader hfits.count physicalStep (s.flatMap (encodeEntry c))
    have hlen := length_schemaHeader s.length physicalStep
    have hle : schemaHdr ≤ (encodeSchema c physicalStep s).length := by
      rw [encodeSchema, List.length_append, hlen]
      exact Nat.le_add_right _ _
    unfold decodeSchema
    simp only
    rw [if_neg (by omega), encodeSchema, hversion, Parse.bind_accept, if_neg (by simp), hcount, Parse.bind_accept]
    exact decodeEntries_packed hc hfits hnul (fun e he => he) hle (List.drop_left' hlen)
  · cases blob with
    | none => exact ⟨Parse.safe_reject, nofun⟩
    | some blob =>
      unfold decodeSchema schemaHdr
      simp only
      by_cases hshort : blob.length < 16
      · rw [if_pos hshort]
        exact ⟨Parse.safe_reject, nofun⟩
      rw [if_neg hshort, read_of_le (by omega), Parse.bind_accept, word_of_le (by omega), Parse.bind_accept]
      split
      · exact ⟨Parse.safe_reject, nofun⟩
      · have hinside := decodeEntries_inside c blob (announced blob) 16
        exact ⟨hinside.1, fun vars hvars => ⟨blob, rfl, hinside.2 vars hvars⟩⟩
  · obtain ⟨hversion, hcount⟩ := read_schemaHeader hfits.count physicalStep (s.flatMap (encodeEntry c))
    have hlen := length_schemaHeader s.length physicalStep
    have htake : ((encodeSchema c physicalStep s).take k).length = k := by
      rw [List.length_take]
      omega
    unfold decodeSchema
    simp only
    rw [htake]
    unfold schemaHdr at hlen ⊢
    by_cases hshort : k < 16
    · rw [if_pos hshort]
    rw [if_neg hshort, read_take (by omega) (by omega), word_take (by omega) (by omega), encodeSchema, hversion,
      Parse.bind_accept, if_neg (by simp), hcount, Parse.bind_accept]
    exact decodeEntries_cut hfits (fun e he => he) (by omega) hk (List.drop_left' hlen)

/-- HDF5's encodings of one datatype, `H5T_NATIVE_UCHAR`, and of one dataspace, the scalar one. -/
def scalarUchar : H5Codec Unit Unit where
  encodeType _ := [3, 0, 16, 0, 0, 0, 1, 0, 0, 0, 0, 0, 8, 0]
  decodeType b := if b = [3, 0, 16, 0, 0, 0, 1, 0, 0, 0, 0, 0, 8, 0] then some () else none
  encodeSpace _ := [1, 0, 8, 4, 0, 0, 0, 2, 0, 0, 0, 3, 0, 0, 0, 1, 0, 0, 0, 0, 0, 0, 0, 0, 0, 0, 0]
  decodeSpace b :=
    if [1, 0, 8, 4, 0, 0, 0, 2, 0, 0, 0, 3, 0, 0, 0, 1, 0, 0, 0, 0, 0, 0, 0, 0, 0, 0, 0].isPrefixOf b then some ()
    else none

-- `/a` and its attribute `u`
def twoVars : List (SchemaEntry Unit Unit) :=
  [⟨[47, 97], .dsetWrite, (), ()⟩, ⟨[47, 97, 64, 117], .attr, (), ()⟩]

theorem twoVars_exact :
    decodeSchema scalarUchar (some (encodeSchema scalarUchar 7 twoVars))
        = .accept [⟨[47, 97], false, (), ()⟩, ⟨[47, 97, 64, 117], true, (), ()⟩] ∧
      decodeSchema scalarUchar (some ((encodeSchema scalarUchar 7 twoVars).take 80)) = .reject := by
  have hfits : SchemaFits scalarUchar twoVars :=
    ⟨by decide, by simp [twoVars], by simp [scalarUchar], by simp [scalarUchar]⟩
  have hlong : 80 < (encodeSchema scalarUchar 7 twoVars).length := by
    rw [encodeSchema, List.length_append, length_schemaHeader, schemaHdr]
    simp [twoVars, length_encodeEntry, schemaEntHdr, scalarUchar]
  exact ⟨(schemaBlob_exact scalarUchar).1 ⟨fun _ => rfl, fun _ _ => rfl⟩ 7 twoVars hfits (by decide),
    (schemaBlob_exact scalarUchar).2.2 7 twoVars hfits 80 hlong⟩

end VolStream
