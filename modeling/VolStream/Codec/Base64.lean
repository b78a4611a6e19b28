import VolStream.Lib.Bits

/-!
# Base64 in the JSON metadata

The encoded datatypes, dataspaces and property lists ride inside JSON, as base64. The encoder takes three
bytes at a time and pads the last quadruple with `=`; the decoder shifts six bits for every character of the
alphabet into a 32-bit accumulator, passes over every other character, and stops at the first `=`. It never
clears the accumulator, which wraps on the sixth character already.
-/

namespace VolStream

open Bits

/-- `B64`. -/
def b64 : List UInt8 :=
  "ABCDEFGHIJKLMNOPQRSTUVWXYZabcdefghijklmnopqrstuvwxyz0123456789+/".toList.map fun c => UInt8.ofNat c.toNat

-- the character of the six low bits of a word
def b64Char (v : UInt32) : UInt8 := b64.getD (v &&& 0x3f).toNat 0

-- '='
def b64Pad : UInt8 := 61

/-- The quadruple of `have` bytes collected in the 24 low bits of `v`. -/
def b64Quad (v : UInt32) (got : Nat) : List UInt8 :=
  [b64Char (v >>> 18), b64Char (v >>> 12), if 1 < got then b64Char (v >>> 6) else b64Pad,
    if 2 < got then b64Char v else b64Pad]

/-- `b64_encode`. -/
def b64Encode : List UInt8 → List UInt8
  | [] => []
  | [a] => b64Quad (a.toUInt32 <<< 16) 1
  | [a, b] => b64Quad (a.toUInt32 <<< 16 ||| b.toUInt32 <<< 8) 2
  | a :: b :: c :: p => b64Quad (a.toUInt32 <<< 16 ||| b.toUInt32 <<< 8 ||| c.toUInt32) 3 ++ b64Encode p

/-- The table `rev`; the loop writes the entries of the alphabet, all others stay negative (`none`). -/
def b64Rev : UInt8 → Option UInt32 :=
  (List.range 64).foldl (fun rev i c => if c = b64.getD i 0 then some (UInt32.ofNat i) else rev c) fun _ => none

/-- The locals of `b64_decode`. -/
structure B64State where
  acc : UInt32
  bits : Nat
  out : List UInt8

/-- One character of the alphabet, with the value `d`. -/
def B64State.put (s : B64State) (d : UInt32) : B64State :=
  let acc := s.acc <<< 6 ||| d
  let bits := s.bits + 6
  if 8 ≤ bits then ⟨acc, bits - 8, s.out ++ [(acc >>> UInt32.ofNat (bits - 8) &&& 0xff).toUInt8]⟩
  else ⟨acc, bits, s.out⟩

/-- The loop of `b64_decode`. -/
def b64DecodeFrom (s : B64State) : List UInt8 → B64State
  | [] => s
  | c :: cs =>
    if c = b64Pad then s
    else
      match b64Rev c with
      | none => b64DecodeFrom s cs
      | some d => b64DecodeFrom (s.put d) cs

/-- `b64_decode`. -/
def b64Decode (s : List UInt8) : List UInt8 := (b64DecodeFrom ⟨0, 0, []⟩ s).out

/-! ## What the decoder reads -/

/-- The values of the characters of the alphabet in front of the first `=`. -/
def b64Values (s : List UInt8) : List UInt32 := (s.takeWhile (· ≠ b64Pad)).filterMap b64Rev

/-- Their bits, six for each. -/
def b64Bits (s : List UInt8) : List Bool := (b64Values s).flatMap fun d => digits 6 d.toNat

theorem b64DecodeFrom_eq (st : B64State) (s : List UInt8) :
    b64DecodeFrom st s = (b64Values s).foldl B64State.put st := by
  induction s generalizing st with
  | nil => rfl
  | cons c cs ih =>
    by_cases hc : c = b64Pad
    · simp [b64DecodeFrom, b64Values, hc]
    · cases hd : b64Rev c with
      | none => simp [b64DecodeFrom, b64Values, hc, hd, ih]
      | some d => simp [b64DecodeFrom, b64Values, hc, hd, ih]

theorem b64Rev_lt {c : UInt8} {d : UInt32} (h : b64Rev c = some d) : d.toNat < 2 ^ 6 := by
  suffices hall : ∀ c d, b64Rev c = some d → d.toNat < 2 ^ 6 from hall c d h
  refine List.foldlRecOn (motive := fun rev : UInt8 → Option UInt32 => ∀ c d, rev c = some d → d.toNat < 2 ^ 6)
    (List.range 64) _ (fun _ _ h => nomatch h) ?_
  intro rev hrev i hi c d hd
  have hi : i < 64 := List.mem_range.mp hi
  by_cases hc : c = b64.getD i 0
  · rw [if_pos hc, Option.some.injEq] at hd
    rw [← hd, UInt32.toNat_ofNat_of_lt' (by simp [UInt32.size]; omega)]
    exact hi
  · exact hrev c d (by rwa [if_neg hc] at hd)

theorem b64Values_lt {s : List UInt8} {d : UInt32} (h : d ∈ b64Values s) : d.toNat < 2 ^ 6 := by
  obtain ⟨c, -, hc⟩ := List.mem_filterMap.mp h
  exact b64Rev_lt hc

/-! ## The accumulator of 32 bits -/

/-- The locals, as the accumulator of six-bit digits that makes bytes. -/
def B64State.regroup (s : B64State) : Regroup := ⟨s.acc.toNat, s.bits, s.out.map UInt8.toNat⟩

theorem shift_in {acc d : UInt32} (hd : d.toNat < 2 ^ 6) :
    (acc <<< 6 ||| d).toNat = (acc.toNat * 2 ^ 6 + d.toNat) % 2 ^ 32 := by
  have h32 : d.toNat % 2 ^ 32 = d.toNat := Nat.mod_eq_of_lt (by omega)
  have h6 : (6 : UInt32).toNat % 32 = 6 := rfl
  rw [UInt32.toNat_or, UInt32.toNat_shiftLeft, h6, ← Nat.shiftLeft_eq, Nat.shiftLeft_add_eq_or_of_lt hd,
    Nat.or_mod_two_pow, h32]

theorem top_byte {acc : UInt32} {r : Nat} (hr : r < 8) :
    (acc >>> UInt32.ofNat r &&& 0xff).toUInt8.toNat = acc.toNat / 2 ^ r % 2 ^ 8 := by
  have hr32 : (UInt32.ofNat r).toNat % 32 = r := by
    rw [UInt32.toNat_ofNat_of_lt' (by simp [UInt32.size]; omega), Nat.mod_eq_of_lt (by omega)]
  have hff : (0xff : UInt32).toNat = 2 ^ 8 - 1 := rfl
  rw [UInt32.toNat_toUInt8, UInt32.toNat_and, UInt32.toNat_shiftRight, hr32, hff,
    Nat.and_two_pow_sub_one_eq_mod, Nat.mod_mod, Nat.shiftRight_eq_div_pow]

theorem B64State.put_bits {s : B64State} {d : UInt32} (h : s.bits < 8) : (s.put d).bits < 8 := by
  by_cases hfull : 8 ≤ s.bits + 6
  · simp only [B64State.put, if_pos hfull]
    omega
  · simp only [B64State.put, if_neg hfull]
    omega

theorem B64State.regroup_put {s : B64State} {d : UInt32} (h : s.bits < 8) (hd : d.toNat < 2 ^ 6) :
    (s.put d).regroup = s.regroup.put 32 6 8 d.toNat := by
  by_cases hfull : 8 ≤ s.bits + 6
  · simp only [B64State.put, if_pos hfull, B64State.regroup, List.map_append, List.map_cons, List.map_nil,
      shift_in hd, top_byte (show s.bits + 6 - 8 < 8 by omega)]
    rw [Regroup.put, if_pos hfull]
  · simp only [B64State.put, if_neg hfull, B64State.regroup, shift_in hd]
    rw [Regroup.put, if_neg hfull]

theorem B64State.regroup_foldl {ds : List UInt32} {s : B64State} (h : s.bits < 8)
    (hds : ∀ d ∈ ds, d.toNat < 2 ^ 6) :
    (ds.foldl B64State.put s).regroup = (ds.map UInt32.toNat).foldl (Regroup.put 32 6 8) s.regroup := by
  induction ds generalizing s with
  | nil => rfl
  | cons d ds ih =>
    rw [List.foldl_cons, ih (put_bits h) fun e he => hds e (List.mem_cons_of_mem _ he), List.map_cons,
      List.foldl_cons, regroup_put h (hds d List.mem_cons_self)]

/-- The bytes are the whole ones of the bits read. -/
theorem b64Decode_words (s : List UInt8) : (b64Decode s).map UInt8.toNat = words 8 (b64Bits s) := by
  have hrun := B64State.regroup_foldl (s := ⟨0, 0, []⟩) (by decide) fun d hd => b64Values_lt (s := s) hd
  have hwords := regroup_words (m := 32) (w := 6) (k := 8) (by omega) (by omega) (by omega)
    (d := (b64Values s).map UInt32.toNat) fun e he => by
      obtain ⟨d, hd, rfl⟩ := List.mem_map.mp he
      exact b64Values_lt hd
  calc (b64Decode s).map UInt8.toNat
      = ((b64Values s).foldl B64State.put ⟨0, 0, []⟩).regroup.out := by
        rw [b64Decode, b64DecodeFrom_eq]
        rfl
    _ = words 8 (b64Bits s) := by
        rw [hrun, b64Bits, ← List.flatMap_map]
        exact hwords

/-! ## What the encoder writes -/

theorem b64Rev_char (v : UInt32) : b64Rev (b64Char v) = some (v &&& 0x3f) ∧ b64Char v ≠ b64Pad := by
  have hall : ∀ i < 64, b64Rev (b64.getD i 0) = some (UInt32.ofNat i) ∧ b64.getD i 0 ≠ b64Pad := by
    decide +kernel
  have hlt : (v &&& 0x3f).toNat < 64 := by
    rw [UInt32.toNat_and]
    exact Nat.and_lt_two_pow (n := 6) _ (by decide)
  have := hall _ hlt
  rwa [UInt32.ofNat_toNat] at this

theorem b64Bits_char (v : UInt32) (s : List UInt8) :
    b64Bits (b64Char v :: s) = digits 6 v.toNat ++ b64Bits s := by
  obtain ⟨hrev, hpad⟩ := b64Rev_char v
  have hv : digits 6 (v &&& 0x3f).toNat = digits 6 v.toNat := by
    have h3f : (0x3f : UInt32).toNat = 2 ^ 6 - 1 := rfl
    rw [UInt32.toNat_and, h3f, Nat.and_two_pow_sub_one_eq_mod, digits_mod 6 _ (Nat.le_refl 6)]
  have hvalues : b64Values (b64Char v :: s) = (v &&& 0x3f) :: b64Values s := by
    simp [b64Values, hpad, hrev]
  rw [b64Bits, b64Bits, hvalues, List.flatMap_cons, hv]

theorem b64Bits_pad (s : List UInt8) : b64Bits (b64Pad :: s) = [] := by
  simp [b64Bits, b64Values]

theorem b64Bits_shifted (v : UInt32) {r : UInt32} {n : Nat} (hr : r.toNat % 32 = n) (s : List UInt8) :
    b64Bits (b64Char (v >>> r) :: s) = digits 6 (v.toNat / 2 ^ n) ++ b64Bits s := by
  rw [b64Bits_char, UInt32.toNat_shiftRight, hr, Nat.shiftRight_eq_div_pow]

/-- A quadruple of one byte shows twelve bits. -/
theorem b64Bits_one (v : UInt32) : b64Bits (b64Quad v 1) = digits 12 (v.toNat / 2 ^ 12) := by
  have h18 : v.toNat / 2 ^ 12 / 2 ^ 6 = v.toNat / 2 ^ 18 := Nat.div_div_eq_div_mul _ _ _
  have hpad : b64Bits [b64Pad, b64Pad] = [] := b64Bits_pad _
  rw [digits_add 6 6, h18]
  calc b64Bits (b64Quad v 1) = b64Bits [b64Char (v >>> 18), b64Char (v >>> 12), b64Pad, b64Pad] := rfl
    _ = _ := by rw [b64Bits_shifted v (n := 18) rfl, b64Bits_shifted v (n := 12) rfl, hpad, List.append_nil]

/-- A quadruple of two bytes shows eighteen bits. -/
theorem b64Bits_two (v : UInt32) : b64Bits (b64Quad v 2) = digits 18 (v.toNat / 2 ^ 6) := by
  have h12 : v.toNat / 2 ^ 6 / 2 ^ 6 = v.toNat / 2 ^ 12 := Nat.div_div_eq_div_mul _ _ _
  have h18 : v.toNat / 2 ^ 6 / 2 ^ 12 = v.toNat / 2 ^ 18 := Nat.div_div_eq_div_mul _ _ _
  rw [digits_add 6 12, digits_add 6 6, h12, h18]
  calc b64Bits (b64Quad v 2)
      = b64Bits [b64Char (v >>> 18), b64Char (v >>> 12), b64Char (v >>> 6), b64Pad] := rfl
    _ = _ := by
      rw [b64Bits_shifted v (n := 18) rfl, b64Bits_shifted v (n := 12) rfl, b64Bits_shifted v (n := 6) rfl,
        b64Bits_pad, List.append_nil]

/-- A quadruple of three bytes shows twenty-four bits, and the decoder reads on. -/
theorem b64Bits_three (v : UInt32) (s : List UInt8) :
    b64Bits (b64Quad v 3 ++ s) = digits 24 v.toNat ++ b64Bits s := by
  rw [digits_add 6 18, digits_add 6 12, digits_add 6 6]
  calc b64Bits (b64Quad v 3 ++ s)
      = b64Bits (b64Char (v >>> 18) :: b64Char (v >>> 12) :: b64Char (v >>> 6) :: b64Char v :: s) := rfl
    _ = _ := by
      rw [b64Bits_shifted v (n := 18) rfl, b64Bits_shifted v (n := 12) rfl, b64Bits_shifted v (n := 6) rfl,
        b64Bits_char]
      simp only [List.append_assoc]

section group

variable (a b c : UInt8)

theorem group_one : (a.toUInt32 <<< 16).toNat = a.toNat * 2 ^ 16 := by
  have ha := a.toNat_lt
  have h16 : (16 : UInt32).toNat % 32 = 16 := rfl
  rw [UInt32.toNat_shiftLeft, h16, UInt8.toNat_toUInt32, Nat.shiftLeft_eq, Nat.mod_eq_of_lt (by omega)]

theorem group_two : (a.toUInt32 <<< 16 ||| b.toUInt32 <<< 8).toNat = a.toNat * 2 ^ 16 + b.toNat * 2 ^ 8 := by
  have hb := b.toNat_lt
  have h8 : (8 : UInt32).toNat % 32 = 8 := rfl
  rw [UInt32.toNat_or, group_one, UInt32.toNat_shiftLeft, h8, UInt8.toNat_toUInt32, Nat.shiftLeft_eq,
    Nat.mod_eq_of_lt (by omega), ← Nat.shiftLeft_eq, Nat.shiftLeft_add_eq_or_of_lt (by omega)]

theorem group_three : (a.toUInt32 <<< 16 ||| b.toUInt32 <<< 8 ||| c.toUInt32).toNat =
    a.toNat * 2 ^ 16 + b.toNat * 2 ^ 8 + c.toNat := by
  have hc := c.toNat_lt
  have hshift : a.toNat * 2 ^ 16 + b.toNat * 2 ^ 8 = (a.toNat * 2 ^ 8 + b.toNat) <<< 8 := by
    rw [Nat.shiftLeft_eq]
    omega
  rw [UInt32.toNat_or, group_two, UInt8.toNat_toUInt32, hshift, Nat.shiftLeft_add_eq_or_of_lt hc]

theorem digits_byte {n : Nat} (h : n % 2 ^ 8 = a.toNat) : digits 8 n = digits 8 a.toNat := by
  rw [← h, digits_mod 8 n (Nat.le_refl 8)]

end group

/-- The characters spell the bytes, and fewer than eight bits more. -/
theorem b64Bits_encode (p : List UInt8) :
    ∃ tail, tail.length < 8 ∧ b64Bits (b64Encode p) = (p.map UInt8.toNat).flatMap (digits 8) ++ tail := by
  induction p using b64Encode.induct with
  | case1 => exact ⟨[], by decide, rfl⟩
  | case2 a =>
    have h8 : a.toNat * 2 ^ 16 / 2 ^ 12 / 2 ^ 4 = a.toNat := by omega
    refine ⟨digits 4 (a.toNat * 2 ^ 16 / 2 ^ 12), by simp, ?_⟩
    rw [b64Encode, b64Bits_one, group_one, digits_add 8 4, h8]
    simp
  | case3 a b =>
    have ha : (a.toNat * 2 ^ 16 + b.toNat * 2 ^ 8) / 2 ^ 6 / 2 ^ 2 / 2 ^ 8 = a.toNat := by
      have := b.toNat_lt
      omega
    have hb : (a.toNat * 2 ^ 16 + b.toNat * 2 ^ 8) / 2 ^ 6 / 2 ^ 2 % 2 ^ 8 = b.toNat := by
      have := b.toNat_lt
      omega
    refine ⟨digits 2 ((a.toNat * 2 ^ 16 + b.toNat * 2 ^ 8) / 2 ^ 6), by simp, ?_⟩
    rw [b64Encode, b64Bits_two, group_two, digits_add 16 2, digits_add 8 8, ha, digits_byte b hb]
    simp
  | case4 a b c p ih =>
    obtain ⟨tail, htail, hp⟩ := ih
    have hb := b.toNat_lt
    have hc := c.toNat_lt
    have ha : (a.toNat * 2 ^ 16 + b.toNat * 2 ^ 8 + c.toNat) / 2 ^ 8 / 2 ^ 8 = a.toNat := by omega
    have hb' : (a.toNat * 2 ^ 16 + b.toNat * 2 ^ 8 + c.toNat) / 2 ^ 8 % 2 ^ 8 = b.toNat := by omega
    have hc' : (a.toNat * 2 ^ 16 + b.toNat * 2 ^ 8 + c.toNat) % 2 ^ 8 = c.toNat := by omega
    refine ⟨tail, htail, ?_⟩
    rw [b64Encode, b64Bits_three, group_three, hp, digits_add 16 8, digits_add 8 8, ha, digits_byte b hb',
      digits_byte c hc']
    simp

theorem map_ofNat_toNat (p : List UInt8) : (p.map UInt8.toNat).map UInt8.ofNat = p := by
  induction p with
  | nil => rfl
  | cons b p ih => rw [List.map_cons, List.map_cons, ih, UInt8.ofNat_toNat]

/-- What was encoded is decoded again; and any string at all is read as the whole bytes of the six-bit
values of its characters in front of the first `=`. -/
theorem b64_round_trip :
    (∀ p, b64Decode (b64Encode p) = p) ∧
      ∀ s, b64Decode s = (words 8 (b64Bits s)).map UInt8.ofNat := by
  have hdecode : ∀ s, b64Decode s = (words 8 (b64Bits s)).map UInt8.ofNat := by
    intro s
    rw [← b64Decode_words, map_ofNat_toNat]
  refine ⟨fun p => ?_, hdecode⟩
  obtain ⟨tail, htail, hp⟩ := b64Bits_encode p
  have hbytes : ∀ n ∈ p.map UInt8.toNat, n < 2 ^ 8 := by
    intro n hn
    obtain ⟨b, -, rfl⟩ := List.mem_map.mp hn
    exact b.toNat_lt
  rw [hdecode, hp, words_flatMap (by decide) hbytes htail, map_ofNat_toNat]

end VolStream
