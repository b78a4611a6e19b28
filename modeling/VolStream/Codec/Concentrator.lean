import VolStream.Codec.SchemaBlob

/-!
# Writes shipped to a concentrator

With concentrators, a rank hands its writes to the rank that does the I/O: one message for each entry, with
the path, the datatype, the dataspace and the payload, each behind its length
(`H5VL__stream_send_write_entry_to_concentrator`, `H5VL__stream_recv_entry`). Both ends are one build on
one architecture, so the lengths travel in the machine's byte order.

The length of the message is a `size_t` and the count of `MPI_Send` an `int`. Below `2 ^ 31` bytes the two
agree and the receiver recovers the entry; from there on the count is negative or that of a shorter message.
-/

namespace VolStream

open Wire

variable {T S : Type}

/-- A `uint64_t` as `memcpy` stores it. -/
def putNative (big : Bool) (v : Nat) : Bytes := if big then (putLe 8 v).reverse else putLe 8 v

def getNative (big : Bool) (b : Bytes) : Nat := getLe (if big then b.reverse else b)

theorem length_putNative (big : Bool) (v : Nat) : (putNative big v).length = 8 := by
  cases big <;> simp [putNative]

theorem getNative_putNative (big : Bool) {v : Nat} (hv : v < 2 ^ 64) : getNative big (putNative big v) = v := by
  have hle : getLe (putLe 8 v) = v := getLe_putLe (by simpa using hv)
  cases big with
  | false => exact hle
  | true => simpa [getNative, putNative] using hle

/-- What the sender reads of a `DsetWrite` entry; the path is a C string. -/
structure ShippedWrite (T S : Type) where
  path : Bytes
  type : T
  space : S
  payload : Bytes
deriving DecidableEq, Repr

/-! ## Sending -/

-- a field behind its length
def nativeField (big : Bool) (data : Bytes) : Bytes := putNative big data.length ++ data

/-- The message up to the length of the payload, which is `n`. -/
def concentratorHead (big : Bool) (c : H5Codec T S) (e : ShippedWrite T S) (n : Nat) : Bytes :=
  nativeField big e.path ++ (nativeField big (c.encodeType e.type) ++ (nativeField big (c.encodeSpace e.space)
    ++ putNative big n))

def concentratorMsg (big : Bool) (c : H5Codec T S) (e : ShippedWrite T S) : Bytes :=
  concentratorHead big c e e.payload.length ++ e.payload

/-- `(int)` of a `size_t`. -/
def toCInt (n : Nat) : Int := (n : Int).bmod (2 ^ 32)

/-- `MPI_Send` of bytes: what arrives for a buffer and a count. A negative count is an error
(`MPI_ERR_COUNT`); otherwise that many bytes of the buffer arrive. -/
structure Mpi where
  send : Bytes → Int → Option Bytes
  refuses : ∀ msg count, count < 0 → send msg count = none
  delivers : ∀ msg (count : Nat), count ≤ msg.length → send msg count = some (msg.take count)

-- the count `MPI_Send` is called with
def sentCount (big : Bool) (c : H5Codec T S) (e : ShippedWrite T S) : Int := toCInt (concentratorMsg big c e).length

/-- `H5VL__stream_send_write_entry_to_concentrator`: the message that arrives. -/
def sendWriteEntryToConcentrator (mpi : Mpi) (big : Bool) (c : H5Codec T S) (e : ShippedWrite T S) : Option Bytes :=
  mpi.send (concentratorMsg big c e) (sentCount big c e)

/-! ## Receiving -/

-- a length at an offset
def readNative (big : Bool) (msg : Bytes) (off : Nat) : Parse Nat := (read msg off 8).map (getNative big)

/-- `H5VL__stream_recv_entry`: no length is checked against the message. The payload is a pointer into the
message: the bytes from there on. -/
def recvEntry (big : Bool) (c : H5Codec T S) (msg : Bytes) : Parse (ShippedWrite T S) :=
  (readNative big msg 0).bind fun pathLen =>
  (read msg 8 pathLen).bind fun path =>
  (readNative big msg (8 + pathLen)).bind fun typeLen =>
  (read msg (8 + pathLen + 8) typeLen).bind fun typeEnc =>
  (Parse.ofOption (c.decodeType typeEnc)).bind fun type =>
  (readNative big msg (8 + pathLen + 8 + typeLen)).bind fun spaceLen =>
  (Parse.ofOption (c.decodeSpace (msg.drop (8 + pathLen + 8 + typeLen + 8)))).bind fun space =>
  (readNative big msg (8 + pathLen + 8 + typeLen + 8 + spaceLen)).map fun _ =>
    ⟨path.takeWhile (· ≠ 0), type, space, msg.drop (8 + pathLen + 8 + typeLen + 8 + spaceLen + 8)⟩

/-! ## What the receiver makes of a message -/

theorem readNative_of_drop {big : Bool} {msg back : Bytes} {off v : Nat} (hoff : off ≤ msg.length) (hv : v < 2 ^ 64)
    (h : msg.drop off = putNative big v ++ back) :
    readNative big msg off = .accept v ∧ off + 8 ≤ msg.length ∧ msg.drop (off + 8) = back := by
  have hread := read_of_drop hoff h
  have hle := le_of_drop hoff h
  have hdrop := drop_of_drop h
  rw [length_putNative] at hread hle hdrop
  refine ⟨?_, hle, hdrop⟩
  rw [readNative, hread, Parse.map_accept, getNative_putNative big hv]

/-- The lengths of the three fields in front of the payload are `uint64_t` values. -/
structure HeadFits (c : H5Codec T S) (e : ShippedWrite T S) : Prop where
  path : e.path.length < 2 ^ 64
  type : (c.encodeType e.type).length < 2 ^ 64
  space : (c.encodeSpace e.space).length < 2 ^ 64

/-- Where the fields of a message stand: each length at its offset, and the field behind it. -/
theorem head_fields {big : Bool} {c : H5Codec T S} {e : ShippedWrite T S} (hfits : HeadFits c e) {n : Nat}
    (hn : n < 2 ^ 64) {msg back : Bytes} (hmsg : msg = concentratorHead big c e n ++ back) :
    readNative big msg 0 = .accept e.path.length ∧ read msg 8 e.path.length = .accept e.path ∧
      readNative big msg (8 + e.path.length) = .accept (c.encodeType e.type).length ∧
      read msg (8 + e.path.length + 8) (c.encodeType e.type).length = .accept (c.encodeType e.type) ∧
      readNative big msg (8 + e.path.length + 8 + (c.encodeType e.type).length)
        = .accept (c.encodeSpace e.space).length ∧
      msg.drop (8 + e.path.length + 8 + (c.encodeType e.type).length + 8)
        = c.encodeSpace e.space ++ (putNative big n ++ back) ∧
      readNative big msg (8 + e.path.length + 8 + (c.encodeType e.type).length + 8 + (c.encodeSpace e.space).length)
        = .accept n ∧
      msg.drop (8 + e.path.length + 8 + (c.encodeType e.type).length + 8 + (c.encodeSpace e.space).length + 8)
        = back := by
  have h0 : msg.drop 0 = putNative big e.path.length ++ (e.path ++ (putNative big (c.encodeType e.type).length ++
      (c.encodeType e.type ++ (putNative big (c.encodeSpace e.space).length ++ (c.encodeSpace e.space ++
      (putNative big n ++ back)))))) := by
    rw [hmsg]
    simp only [concentratorHead, nativeField, List.append_assoc, List.drop_zero]
  obtain ⟨hpathLen, hoff1, h1⟩ := readNative_of_drop (Nat.zero_le _) hfits.path h0
  rw [Nat.zero_add] at hoff1 h1
  obtain ⟨htypeLen, hoff2, h2⟩ := readNative_of_drop (le_of_drop hoff1 h1) hfits.type (drop_of_drop h1)
  obtain ⟨hspaceLen, hoff3, h3⟩ := readNative_of_drop (le_of_drop hoff2 h2) hfits.space (drop_of_drop h2)
  obtain ⟨hpayloadLen, -, h4⟩ := readNative_of_drop (le_of_drop hoff3 h3) hn (drop_of_drop h3)
  exact ⟨hpathLen, read_of_drop hoff1 h1, htypeLen, read_of_drop hoff2 h2, hspaceLen, h3, hpayloadLen, h4⟩

/-- Whatever payload is announced, the receiver finds the fields in front of it, and the payload's pointer
is where the announcement ends. -/
theorem recvEntry_of_head {big : Bool} {c : H5Codec T S} {e : ShippedWrite T S} (hc : c.InvertsAt e.type e.space)
    (hnul : 0 ∉ e.path) (hfits : HeadFits c e) {n : Nat} (hn : n < 2 ^ 64) (back : Bytes) :
    recvEntry big c (concentratorHead big c e n ++ back) = .accept ⟨e.path, e.type, e.space, back⟩ := by
  generalize hmsg : concentratorHead big c e n ++ back = msg
  obtain ⟨hpathLen, hpath, htypeLen, htype, hspaceLen, h3, hpayloadLen, h4⟩ := head_fields hfits hn hmsg.symm
  have hstr : e.path.takeWhile (fun b => decide (b ≠ 0)) = e.path := takeWhile_of_no_nul hnul
  unfold recvEntry
  rw [hpathLen, Parse.bind_accept, hpath, Parse.bind_accept, htypeLen, Parse.bind_accept,
    htype, Parse.bind_accept, hc.type, Parse.ofOption, Parse.bind_accept, hspaceLen, Parse.bind_accept,
    h3, hc.space, Parse.ofOption, Parse.bind_accept, hpayloadLen, Parse.map_accept, h4, hstr]

theorem recvEntry_head {big : Bool} {c : H5Codec T S} (hc : c.Inverts) {e : ShippedWrite T S} (hnul : 0 ∉ e.path)
    (hfits : HeadFits c e) {n : Nat} (hn : n < 2 ^ 64) (back : Bytes) :
    recvEntry big c (concentratorHead big c e n ++ back) = .accept ⟨e.path, e.type, e.space, back⟩ :=
  recvEntry_of_head (hc.at e.type e.space) hnul hfits hn back

theorem length_concentratorHead (big : Bool) (c : H5Codec T S) (e : ShippedWrite T S) (n : Nat) :
    (concentratorHead big c e n).length
      = 8 + e.path.length + 8 + (c.encodeType e.type).length + 8 + (c.encodeSpace e.space).length + 8 := by
  simp only [concentratorHead, nativeField, List.length_append, length_putNative]
  omega

/-- Every length is read, and every field in front of the payload but the dataspace: what the receiver accepts is cut
off behind the last length, if at all. -/
theorem recvEntry_cut {big : Bool} {c : H5Codec T S} {e : ShippedWrite T S} (hfits : HeadFits c e) {n : Nat}
    (hn : n < 2 ^ 64) {back : Bytes} {k : Nat} {e' : ShippedWrite T S}
    (h : recvEntry big c ((concentratorHead big c e n ++ back).take k) = .accept e') :
    (concentratorHead big c e n).length ≤ k := by
  generalize hmsg : concentratorHead big c e n ++ back = msg at h
  by_cases hk : k ≤ msg.length
  · obtain ⟨hpathLen, -, htypeLen, -, hspaceLen, -, -, -⟩ := head_fields hfits hn hmsg.symm
    have hsame : ∀ {off v w : Nat}, readNative big (msg.take k) off = .accept v → readNative big msg off = .accept w →
        v = w ∧ off + 8 ≤ k := by
      intro off v w hv hw
      obtain ⟨bytes, hbytes, hval⟩ := Parse.bind_eq_accept hv
      obtain ⟨hle, hread⟩ := read_of_take hk hbytes
      refine ⟨?_, hle⟩
      rw [readNative, hread, Parse.map_accept, Parse.accept.injEq] at hw
      rw [Parse.accept.injEq] at hval
      exact hval.symm.trans hw
    unfold recvEntry at h
    obtain ⟨pathLen, hv, h⟩ := Parse.bind_eq_accept h
    obtain ⟨rfl, -⟩ := hsame hv hpathLen
    obtain ⟨path, -, h⟩ := Parse.bind_eq_accept h
    obtain ⟨typeLen, hv, h⟩ := Parse.bind_eq_accept h
    obtain ⟨rfl, -⟩ := hsame hv htypeLen
    obtain ⟨typeEnc, -, h⟩ := Parse.bind_eq_accept h
    obtain ⟨type, -, h⟩ := Parse.bind_eq_accept h
    obtain ⟨spaceLen, hv, h⟩ := Parse.bind_eq_accept h
    obtain ⟨rfl, -⟩ := hsame hv hspaceLen
    obtain ⟨space, -, h⟩ := Parse.bind_eq_accept h
    obtain ⟨payloadLen, hv, -⟩ := Parse.bind_eq_accept h
    obtain ⟨bytes, hbytes, -⟩ := Parse.bind_eq_accept hv
    rw [length_concentratorHead]
    exact (read_of_take hk hbytes).1
  · have := congrArg List.length hmsg
    rw [List.length_append] at this
    omega

/-! ## The count -/

/-- The length of an entry's message. -/
def msgLen (c : H5Codec T S) (e : ShippedWrite T S) : Nat :=
  4 * 8 + e.path.length + (c.encodeType e.type).length + (c.encodeSpace e.space).length + e.payload.length

theorem length_concentratorMsg (big : Bool) (c : H5Codec T S) (e : ShippedWrite T S) :
    (concentratorMsg big c e).length = msgLen c e := by
  simp only [concentratorMsg, concentratorHead, nativeField, List.length_append, length_putNative, msgLen]
  omega

theorem toCInt_eq_iff (n : Nat) : toCInt n = n ↔ n < 2 ^ 31 := by
  unfold toCInt
  constructor
  · intro h
    have hlt := Int.bmod_lt (x := (n : Int)) (m := 2 ^ 32) (by decide)
    omega
  · intro h
    exact Int.bmod_eq_of_le (by omega) (by omega)

theorem toCInt_lt {n : Nat} (h : ¬ n < 2 ^ 31) : toCInt n < n := by
  unfold toCInt
  have hlt := Int.bmod_lt (x := (n : Int)) (m := 2 ^ 32) (by decide)
  omega

/-- The count is the message's length, and the receiver recovers the entry. -/
def Ships (mpi : Mpi) (big : Bool) (c : H5Codec T S) (e : ShippedWrite T S) : Prop :=
  sentCount big c e = (concentratorMsg big c e).length ∧
    ∃ msg, sendWriteEntryToConcentrator mpi big c e = some msg ∧ recvEntry big c msg = .accept e

/-- An entry travels intact exactly when its message is shorter than `2 ^ 31` bytes. -/
theorem ships_iff {c : H5Codec T S} (hc : c.Inverts) (mpi : Mpi) (big : Bool) {e : ShippedWrite T S}
    (hnul : 0 ∉ e.path) : Ships mpi big c e ↔ msgLen c e < 2 ^ 31 := by
  have hlen := length_concentratorMsg big c e
  constructor
  · rintro ⟨hcount, -⟩
    rwa [sentCount, toCInt_eq_iff, hlen] at hcount
  · intro hshort
    have hcount : sentCount big c e = (concentratorMsg big c e).length := by
      rwa [sentCount, toCInt_eq_iff, hlen]
    have harrives : sendWriteEntryToConcentrator mpi big c e = some (concentratorMsg big c e) := by
      rw [sendWriteEntryToConcentrator, hcount, mpi.delivers _ _ (Nat.le_refl _), List.take_length]
    unfold msgLen at hshort
    exact ⟨hcount, concentratorMsg big c e, harrives,
      recvEntry_head hc hnul ⟨by omega, by omega, by omega⟩ (by omega) e.payload⟩

-- a library that does what the standard says
def Mpi.standard : Mpi where
  send msg count := if count < 0 then none else some (msg.take count.toNat)
  refuses _ _ h := if_pos h
  delivers _ _ _ := if_neg (by omega)

-- a write of `n` bytes to `/a`
def writeOf (n : Nat) : ShippedWrite Unit Unit := ⟨[47, 97], (), (), List.replicate n 0⟩

theorem scalarUchar_inverts : scalarUchar.Inverts := ⟨fun _ => rfl, fun _ _ => rfl⟩

theorem writeOf_no_nul (n : Nat) : 0 ∉ (writeOf n).path := by
  show (0 : UInt8) ∉ [47, 97]
  decide

theorem msgLen_writeOf (n : Nat) : msgLen scalarUchar (writeOf n) = 75 + n := by
  simp [msgLen, writeOf, scalarUchar]

theorem length_head_writeOf (n m : Nat) : (concentratorHead false scalarUchar (writeOf n) m).length = 75 := by
  simp [concentratorHead, nativeField, length_putNative, writeOf, scalarUchar]

/-- The first 75 bytes of the message are everything in front of the payload. -/
theorem take_msg_writeOf (n : Nat) :
    (concentratorMsg false scalarUchar (writeOf n)).take 75 = concentratorHead false scalarUchar (writeOf n) n ++ [] := by
  rw [concentratorMsg, List.take_left' (length_head_writeOf n _), List.append_nil, writeOf, List.length_replicate]

theorem oneByte_ships : Ships .standard false scalarUchar (writeOf 1) :=
  (ships_iff scalarUchar_inverts .standard false (writeOf_no_nul 1)).mpr (by rw [msgLen_writeOf]; decide)

/-- A payload of `2 ^ 32` bytes: the count is that of the message without it, so the receiver accepts an
entry whose payload points behind everything that arrived. -/
theorem hugeWrite_truncated :
    sentCount false scalarUchar (writeOf (2 ^ 32)) = 75 ∧
      (∃ msg, sendWriteEntryToConcentrator .standard false scalarUchar (writeOf (2 ^ 32)) = some msg ∧
        recvEntry false scalarUchar msg = .accept ⟨[47, 97], (), (), []⟩) ∧
      ¬ Ships .standard false scalarUchar (writeOf (2 ^ 32)) := by
  generalize hn : 2 ^ 32 = n
  have hcount : sentCount false scalarUchar (writeOf n) = 75 := by
    rw [sentCount, length_concentratorMsg, msgLen_writeOf, ← hn]
    decide
  have harrives : sendWriteEntryToConcentrator .standard false scalarUchar (writeOf n)
      = some (concentratorHead false scalarUchar (writeOf n) n ++ []) := by
    rw [sendWriteEntryToConcentrator, hcount, ← take_msg_writeOf]
    exact Mpi.standard.delivers _ 75 (by rw [length_concentratorMsg, msgLen_writeOf]; omega)
  refine ⟨hcount, ⟨_, harrives, ?_⟩, fun hships => ?_⟩
  · exact recvEntry_head scalarUchar_inverts (writeOf_no_nul n)
      ⟨by simp [writeOf], by simp [scalarUchar], by simp [scalarUchar]⟩ (by omega) []
  · have hcount' := hships.1
    rw [hcount, length_concentratorMsg, msgLen_writeOf] at hcount'
    omega

end VolStream
