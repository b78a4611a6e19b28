import VolStream.Writer.Replicas

/-!
# What one write hands over

A captured write is whole values of its type, or the wire form of a variable-length array. Read as it stands, the
payload is the buffer the application wrote if the type has no pointers, or if every pointer in it is NULL: the tag of
a NULL string is as wide as the pointer. Rebuilt, it always is, except that an array of no elements has no payload.

A write that travels to a concentrator arrives as it was, or with a shorter payload if its length is no `int`.
-/

namespace VolStream

open Wire

/-- A write as `H5VL__stream_dataset_write_impl` captures it. A path is a C string. -/
structure WriteJob.Captured (base : Datatype → Nat) (j : WriteJob) : Prop where
  path : ∀ ch ∈ j.path, 0 < ch.toNat ∧ ch.toNat < 256
  values : j.type.vlKind = .none → j.payload.length = j.space.npoints * j.type.size
  array : j.type.vlKind ≠ .none → (j.type.vlType base).refused = false ∧
    ∃ arr : VlArray (j.type.vlType base), arr.elems.length = j.space.npoints ∧ j.payload = arr.elems.flatMap vlWire

/-- A write that needs no rebuilding, and that can be rebuilt: of a type without pointers, of no elements where these
come from a staged buffer, or of NULL strings. -/
def WriteJob.Portable (base : Datatype → Nat) (staged : Bool) (j : WriteJob) : Prop :=
  j.type.vlKind = .none ∨ (j.space.npoints = 0 ∧ staged = true) ∨
    (j.type.vlKind = .string ∧ 0 < j.space.npoints ∧ ∀ e ∈ j.elems base, e = none)

/-! ## The elements of a payload -/

section elements

variable {base : Datatype → Nat} {staged : Bool} {j : WriteJob}

theorem WriteJob.elems_of_array (hkind : j.type.vlKind ≠ .none) {arr : VlArray (j.type.vlType base)}
    (hlen : arr.elems.length = j.space.npoints) (hpayload : j.payload = arr.elems.flatMap vlWire) :
    j.elems base = arr.elems := by
  rw [WriteJob.elems, if_neg hkind, hpayload, ← hlen,
    vlFrames_wire _ (fun data hdata => (arr.whole data hdata).1) arr.fits, Option.getD_some]

/-- NULL elements are eight zero bytes each. -/
theorem flatMap_vlWire_none {l : List (Option Bytes)} (hnull : ∀ e ∈ l, e = none) :
    l.flatMap vlWire = List.replicate (l.length * 8) 0 := by
  induction l with
  | nil => rfl
  | cons e l ih =>
    have hzeros : vlWire none = List.replicate 8 0 := rfl
    rw [List.flatMap_cons, hnull e List.mem_cons_self, ih fun e' he' => hnull e' (List.mem_cons_of_mem e he'), hzeros,
      List.replicate_append_replicate, List.length_cons]
    congr 1
    omega

/-- A walk that ends has every cell inside the payload. -/
theorem WriteJob.length_of_rawElems {es : List (Option Bytes)} (h : j.rawElems = .accept es) :
    j.space.npoints * j.type.cellSize ≤ j.payload.length := by
  cases hn : j.space.npoints with
  | zero =>
    rw [Nat.zero_mul]
    exact Nat.zero_le _
  | succ n =>
    have hlast : n ∈ List.range j.space.npoints := List.mem_range.mpr (by omega)
    obtain ⟨e, -, hcell⟩ := (Parse.mapAll_eq_accept h).2.1 n hlast
    obtain ⟨cell, hread, -⟩ := Parse.bind_eq_accept hcell
    unfold Wire.read at hread
    split at hread
    · rwa [Nat.succ_mul]
    · cases hread

/-- A pointer that can be followed is NULL. -/
theorem cellElem_null {kind : VlKind} (hkind : kind ≠ .none) {cell : Bytes} {e : Option Bytes}
    (h : cellElem kind cell = .accept e) : e = none := by
  have hpointee : ∀ {p : Bytes} {e : Option Bytes}, pointee p = .accept e → e = none := by
    intro p e hp
    unfold pointee at hp
    split at hp
    · cases hp
      rfl
    · cases hp
  cases kind with
  | none => exact absurd rfl hkind
  | string => exact hpointee h
  | sequence =>
    rw [cellElem] at h
    split at h
    · cases h
      rfl
    · exact hpointee h

/-- Read as it stands, a portable write hands over what was captured. -/
theorem WriteJob.Captured.rawElems (hcap : j.Captured base) (hport : j.Portable base staged) :
    j.rawElems = .accept (j.elems base) := by
  unfold WriteJob.rawElems
  rcases hport with hkind | ⟨hn, -⟩ | ⟨hkind, -, hnull⟩
  · have hlen := hcap.values hkind
    rw [WriteJob.elems, if_pos hkind]
    refine Parse.mapAll_of_accept fun i hi => ?_
    have hi' := Nat.mul_le_mul_right j.type.size (List.mem_range.mp hi)
    have hsize : j.type.cellSize = j.type.size := by simp only [Datatype.cellSize, hkind]
    rw [hsize, hkind, read_of_le (by rw [hlen, ← Nat.succ_mul]; exact hi'), Parse.bind_accept, cellElem]
  · have hnone : j.elems base = [] := by
      unfold WriteJob.elems
      rw [hn]
      split <;> rfl
    rw [hn, hnone]
    rfl
  · have hvl : j.type.vlKind ≠ .none := by rw [hkind]; decide
    obtain ⟨arr, hlen, hpayload⟩ := (hcap.array hvl).2
    have helems := WriteJob.elems_of_array hvl hlen hpayload
    rw [helems] at hnull ⊢
    have hzeros := flatMap_vlWire_none hnull
    rw [hlen] at hzeros
    have hreplicate : arr.elems = (List.range j.space.npoints).map fun _ => none := by
      rw [List.map_const', List.length_range, ← hlen]
      exact List.eq_replicate_of_mem hnull
    have hsize : j.type.cellSize = 8 := by simp only [Datatype.cellSize, hkind]
    rw [hreplicate]
    refine Parse.mapAll_of_accept fun i hi => ?_
    have hi' := List.mem_range.mp hi
    rw [hpayload, hzeros, hsize, read_of_le (by rw [List.length_replicate]; omega), Parse.bind_accept, hkind, cellElem,
      List.drop_replicate, List.take_replicate, pointee, if_pos (by simp)]

/-- A payload that was not rebuilt and yet gave the captured elements. -/
theorem WriteJob.Captured.portable_of_rawElems (hcap : j.Captured base) (h : j.rawElems = .accept (j.elems base))
    (hstaged : j.type.vlKind ≠ .none → j.space.npoints = 0 → staged = true) : j.Portable base staged := by
  by_cases hkind : j.type.vlKind = .none
  · exact .inl hkind
  refine .inr ?_
  by_cases hn : j.space.npoints = 0
  · exact .inl ⟨hn, hstaged hkind hn⟩
  obtain ⟨arr, hlen, hpayload⟩ := (hcap.array hkind).2
  have hnull : ∀ e ∈ j.elems base, e = none := by
    intro e he
    obtain ⟨i, -, hcell⟩ := (Parse.mapAll_eq_accept h).2.2 e he
    obtain ⟨cell, -, hcell⟩ := Parse.bind_eq_accept hcell
    exact cellElem_null hkind hcell
  refine .inr ⟨?_, by omega, hnull⟩
  -- the payload has eight bytes for each element, and an `hvl_t` has sixteen
  have hlong := WriteJob.length_of_rawElems h
  rw [WriteJob.elems_of_array hkind hlen hpayload] at hnull
  rw [hpayload, flatMap_vlWire_none hnull, List.length_replicate, hlen] at hlong
  cases hk : j.type.vlKind with
  | none => exact absurd hk hkind
  | string => rfl
  | sequence =>
    simp only [Datatype.cellSize, hk] at hlong
    omega

/-- A portable write's payload is exactly what the walk covers. -/
theorem WriteJob.Captured.length_payload (hcap : j.Captured base) (hport : j.Portable base staged) :
    j.payload.length = j.space.npoints * j.type.cellSize := by
  rcases hport with hkind | ⟨hn, -⟩ | ⟨hkind, -, hnull⟩
  · simp only [hcap.values hkind, Datatype.cellSize, hkind]
  · by_cases hkind : j.type.vlKind = .none
    · rw [hcap.values hkind, hn, Nat.zero_mul, Nat.zero_mul]
    · obtain ⟨arr, hlen, hpayload⟩ := (hcap.array hkind).2
      rw [hn] at hlen
      rw [hpayload, List.eq_nil_of_length_eq_zero hlen, hn, Nat.zero_mul]
      rfl
  · have hvl : j.type.vlKind ≠ .none := by rw [hkind]; decide
    obtain ⟨arr, hlen, hpayload⟩ := (hcap.array hvl).2
    rw [WriteJob.elems_of_array hvl hlen hpayload] at hnull
    simp only [hpayload, flatMap_vlWire_none hnull, List.length_replicate, hlen, Datatype.cellSize, hkind]

/-- Rebuilt, a write hands over what was captured, unless it is an array of no elements without a payload. -/
theorem WriteJob.Captured.rebuiltElems (hcap : j.Captured base)
    (hstaged : j.type.vlKind ≠ .none → j.space.npoints = 0 → staged = true) :
    j.rebuiltElems base staged = .accept (j.elems base) := by
  unfold WriteJob.rebuiltElems
  by_cases hkind : j.type.vlKind = .none
  · rw [if_pos hkind]
    have hportable : j.Portable base staged := .inl hkind
    exact hcap.rawElems hportable
  rw [if_neg hkind]
  obtain ⟨hrefused, arr, hlen, hpayload⟩ := hcap.array hkind
  have hsome : ¬ (j.payload = [] ∧ staged = false) := by
    rintro ⟨hnil, hno⟩
    cases helems : arr.elems with
    | nil =>
      rw [helems] at hlen
      rw [hstaged hkind hlen.symm] at hno
      cases hno
    | cons e es =>
      have := congrArg List.length (hpayload.symm.trans hnil)
      rw [helems, List.flatMap_cons, List.length_append] at this
      cases e <;> simp [vlWire] at this
  have hvalues : arr.elems.map (Option.map (j.type.vlType base).value) = arr.elems := by
    rw [List.map_congr_left (g := id), List.map_id]
    intro e he
    cases e with
    | none => rfl
    | some data => exact congrArg some (VlType.value_eq hrefused (arr.whole data he))
  have hfits : ∀ b ∈ some j.payload, b.length ≤ ptrdiffMax := by
    intro b hb
    cases hb
    rw [hpayload]
    exact arr.fits
  rw [if_neg hsome, vlDeserialize_eq _ _ _ hfits, vlDecoded, hrefused,
    if_neg Bool.false_ne_true, Option.bind_some, hpayload, ← hlen,
    vlFrames_wire _ (fun data hdata => (arr.whole data hdata).1) arr.fits, Option.map_some, hvalues,
    WriteJob.elems_of_array hkind hlen hpayload]
  rfl

/-- An array of no elements without a payload is refused. -/
theorem WriteJob.Captured.staged_of_rebuiltElems (hcap : j.Captured base) {es : List (Option Bytes)}
    (h : j.rebuiltElems base staged = .accept es) (hkind : j.type.vlKind ≠ .none) (hn : j.space.npoints = 0) :
    staged = true := by
  obtain ⟨arr, hlen, hpayload⟩ := (hcap.array hkind).2
  rw [hn] at hlen
  have hnil : j.payload = [] := by
    rw [hpayload, List.eq_nil_of_length_eq_zero hlen]
    rfl
  cases staged with
  | true => rfl
  | false =>
    rw [WriteJob.rebuiltElems, if_neg hkind, if_pos ⟨hnil, rfl⟩] at h
    cases h

end elements

/-! ## One write sent to a concentrator -/

section shipped

variable {base : Datatype → Nat} {mpi : Mpi} {big : Bool} {c : H5Codec Datatype Dataspace} {j : WriteJob}
  (hc : c.InvertsAt j.type j.space) (hcap : j.Captured base)

theorem bytesPath_pathBytes {path : Path} (h : ∀ ch ∈ path, 0 < ch.toNat ∧ ch.toNat < 256) :
    bytesPath (pathBytes path) = path ∧ 0 ∉ pathBytes path := by
  have hbyte : ∀ ch ∈ path, (UInt8.ofNat ch.toNat).toNat = ch.toNat := fun ch hch => by
    rw [UInt8.toNat_ofNat']
    exact Nat.mod_eq_of_lt (h ch hch).2
  constructor
  · rw [bytesPath, pathBytes, List.map_map]
    refine (List.map_congr_left fun ch hch => ?_).trans (List.map_id path)
    rw [Function.comp, hbyte ch hch, Char.ofNat_toNat, id]
  · intro hzero
    obtain ⟨ch, hch, hval⟩ := List.mem_map.mp hzero
    have hsame := hbyte ch hch
    rw [hval, UInt8.toNat_zero] at hsame
    exact absurd hsame (Nat.ne_of_lt (h ch hch).1)

theorem length_pathBytes (path : Path) : (pathBytes path).length = path.length := List.length_map _

include hc hcap

/-- A message short enough arrives as it was. -/
theorem shipJob_of_short (hshort : msgLen c j.shipped < 2 ^ 31) : shipJob mpi big c j = .accept j := by
  have hpath := bytesPath_pathBytes hcap.path
  have hcount : sentCount big c j.shipped = (concentratorMsg big c j.shipped).length := by
    rwa [sentCount, toCInt_eq_iff, length_concentratorMsg]
  have hsend : sendWriteEntryToConcentrator mpi big c j.shipped = some (concentratorMsg big c j.shipped) := by
    rw [sendWriteEntryToConcentrator, hcount, mpi.delivers _ _ (Nat.le_refl _), List.take_length]
  unfold msgLen at hshort
  have hrecv : recvEntry big c (concentratorMsg big c j.shipped) = .accept j.shipped :=
    recvEntry_of_head hc hpath.2 ⟨by omega, by omega, by omega⟩ (by omega) j.shipped.payload
  have hback : receivedJob j.shipped = j := by
    simp only [receivedJob, WriteJob.shipped, hpath.1]
  unfold shipJob
  rw [hsend]
  simp only [hrecv, Parse.map_accept, hback]

/-- A message whose length is no `int` is not sent, or loses the end of the payload. -/
theorem shipJob_of_long (hlong : ¬ msgLen c j.shipped < 2 ^ 31) (hlen : msgLen c j.shipped < 2 ^ 64) {j' : WriteJob}
    (h : shipJob mpi big c j = .accept j') :
    j'.type = j.type ∧ j'.space = j.space ∧ j'.payload.length < j.payload.length := by
  have hpath := bytesPath_pathBytes hcap.path
  have hmsg := length_concentratorMsg big c j.shipped
  have hfits : HeadFits c j.shipped := by
    unfold msgLen at hlen
    exact ⟨by omega, by omega, by omega⟩
  have hpayload : j.shipped.payload.length < 2 ^ 64 := by
    unfold msgLen at hlen
    omega
  unfold shipJob sendWriteEntryToConcentrator at h
  -- the count is negative, or that of a shorter message
  by_cases hneg : sentCount big c j.shipped < 0
  · rw [mpi.refuses _ _ hneg] at h
    cases h
  have hnonneg : 0 ≤ sentCount big c j.shipped := by omega
  have hk := (Int.toNat_of_nonneg hnonneg).symm
  generalize (sentCount big c j.shipped).toNat = k at hk
  have hshorter : k < msgLen c j.shipped := by
    have hless := toCInt_lt hlong
    rw [sentCount, hmsg] at hk
    omega
  rw [hk, mpi.delivers _ k (by omega)] at h
  obtain ⟨e', hrecv, hj'⟩ := Parse.bind_eq_accept h
  cases hj'
  have hhead := recvEntry_cut hfits hpayload hrecv
  have hsplit : (concentratorMsg big c j.shipped).take k
      = concentratorHead big c j.shipped j.shipped.payload.length
        ++ j.shipped.payload.take (k - (concentratorHead big c j.shipped j.shipped.payload.length).length) := by
    rw [concentratorMsg, List.take_append, List.take_of_length_le hhead]
  have hwhole := length_concentratorHead big c j.shipped j.shipped.payload.length
  unfold msgLen at hshorter
  rw [hsplit, recvEntry_of_head hc hpath.2 hfits hpayload] at hrecv
  cases hrecv
  refine ⟨rfl, rfl, ?_⟩
  show (j.shipped.payload.take _).length < j.shipped.payload.length
  rw [List.length_take]
  omega

end shipped

end VolStream
