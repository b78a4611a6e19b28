import VolStream.Lib.Wire
import VolStream.Manifest

/-!
# Variable-length elements on the wire

A variable-length buffer holds pointers, so a capture follows them and packs what they point to: for each
element a tag of eight bytes and the bytes, where a tag of 0 is a NULL pointer and `n + 1` announces `n`
bytes (`H5VL__stream_vl_serialize`). Two decoders undo it: replay gives every element an allocation of its
own (`H5VL__stream_vl_deserialize`), a subscriber gets one block, sized in a first pass and filled in a
second (`H5VL__stream_vl_flatten`).

`vlFrames` is the framing both decoders follow, on lists of bytes; each of them is shown to return exactly
what it finds, without reading or writing outside its buffers. An array of no elements is serialized to
a NULL buffer, which both refuse.

Allocations are taken to succeed. Lengths are `size_t`, and no C object is larger than `PTRDIFF_MAX`.
-/

namespace VolStream

open Wire

/-! ## Types and elements -/

/-- What the codec asks of a datatype: its kind and the size of its base type. -/
structure VlType where
  kind : VlKind
  base : Nat
deriving DecidableEq, Repr

/-- `PTRDIFF_MAX`. -/
def ptrdiffMax : Nat := 2 ^ 63 - 1

-- subtraction of `size_t`
def sizeSub (a b : Nat) : Nat := (a + 2 ^ 64 - b) % 2 ^ 64

/-- The kinds every routine turns away: not variable-length, or a base type without a size. -/
def VlType.refused (t : VlType) : Bool := t.kind = .none ∨ (t.kind = .sequence ∧ t.base = 0)

-- what follows the bytes of an element in memory: a string ends in a NUL
def VlType.terminator (t : VlType) : Bytes := if t.kind = .string then [0] else []

-- `sizeof(hvl_t)` or `sizeof(char *)`
def VlType.elem (t : VlType) : Nat := if t.kind = .sequence then 16 else 8

/-- The bytes an element shows: `len` values of the base type at its pointer, or a C string. -/
def VlType.view (t : VlType) (len : Nat) (mem : Bytes) : Bytes :=
  if t.kind = .string then mem.takeWhile (· ≠ 0) else mem.take (len * t.base)

/-- The element made of `data`. -/
def VlType.value (t : VlType) (data : Bytes) : Bytes := t.view (data.length / t.base) (data ++ t.terminator)

-- an announced length that is not a whole number of values
def VlType.ragged (t : VlType) (nbytes : Nat) : Bool := t.kind = .sequence ∧ nbytes % t.base ≠ 0

/-! ## The encoder -/

/-- One element in wire form; `none` is a NULL pointer. -/
def vlWire (e : Option Bytes) : Bytes :=
  match e with
  | none => putLe 8 0
  | some data => putLe 8 (data.length + 1) ++ data

/-- `H5VL__stream_vl_serialize`: the buffer it returns, which is NULL as long as nothing was appended. -/
def vlSerialize (t : VlType) (arr : List (Option Bytes)) : Option (Option Bytes) :=
  if t.refused then none
  else some (arr.foldl (fun acc e => some (acc.getD [] ++ vlWire e)) none)

/-! ## The decoder of replay -/

def vlDeserializeLoop (t : VlType) (src : Bytes) : Nat → Nat → Parse (List (Option Bytes))
  | 0, _ => .accept []
  | n + 1, p =>
      if sizeSub src.length p < 8 then .reject
      else (word src p 8).bind fun tag =>
        if tag = 0 then (vlDeserializeLoop t src n (p + 8)).map (none :: ·)
        else if sizeSub src.length (p + 8) < tag - 1 then .reject
        else if t.ragged (tag - 1) then .reject
        else (read src (p + 8) (tag - 1)).bind fun data =>
          (vlDeserializeLoop t src n (p + 8 + (tag - 1))).map (some (t.value data) :: ·)

/-- `H5VL__stream_vl_deserialize`. -/
def vlDeserialize (t : VlType) (src : Option Bytes) (count : Nat) : Parse (List (Option Bytes)) :=
  match src with
  | none => .reject
  | some src => if t.refused then .reject else vlDeserializeLoop t src count 0

/-! ## The decoder of a subscriber -/

/-- Pass 1 of `H5VL__stream_vl_flatten`: validate, and add up the bytes behind the pointers. -/
def vlFlattenSize (t : VlType) (src : Bytes) : Nat → Nat → Nat → Parse Nat
  | 0, _, total => .accept total
  | n + 1, off, total =>
      if sizeSub src.length off < 8 then .reject
      else (word src off 8).bind fun tag =>
        if tag = 0 then vlFlattenSize t src n (off + 8) total
        else if tag - 1 > sizeSub src.length (off + 8) ∨ t.ragged (tag - 1) then .reject
        else vlFlattenSize t src n (off + 8 + (tag - 1))
          ((total + (tag - 1 + t.terminator.length)) % 2 ^ 64)

/-- The block being filled: the pointers, each an offset behind the pointer array with an `hvl_t`'s length,
and the bytes behind the array. -/
structure VlBlock where
  ptrs : List (Option (Nat × Nat))
  data : Bytes
deriving DecidableEq, Repr

/-- Pass 2: fill the pointer array and the bytes after it. A write outside the block of `size` bytes is a
fault like a read outside the payload. -/
def vlFlattenFill (t : VlType) (src : Bytes) (count size : Nat) : Nat → Nat → VlBlock → Parse VlBlock
  | 0, _, blk => .accept blk
  | n + 1, off, blk =>
      (word src off 8).bind fun tag =>
        if size < (blk.ptrs.length + 1) * t.elem then .fault
        else if tag = 0 then vlFlattenFill t src count size n (off + 8) ⟨blk.ptrs ++ [none], blk.data⟩
        else (read src (off + 8) (tag - 1)).bind fun data =>
          if size < count * t.elem + (blk.data ++ (data ++ t.terminator)).length then .fault
          else vlFlattenFill t src count size n (off + 8 + (tag - 1))
            ⟨blk.ptrs ++ [some (blk.data.length, (tag - 1) / t.base)], blk.data ++ (data ++ t.terminator)⟩

/-- The elements the filled block shows. -/
def VlBlock.elems (t : VlType) (blk : VlBlock) : List (Option Bytes) :=
  blk.ptrs.map (Option.map fun ptr => t.view ptr.2 (blk.data.drop ptr.1))

/-- `H5VL__stream_vl_flatten`. -/
def vlFlatten (t : VlType) (src : Option Bytes) (count : Nat) : Parse (List (Option Bytes)) :=
  match src with
  | none => .reject
  | some src =>
      if t.refused then .reject
      else (vlFlattenSize t src count 0 0).bind fun total =>
        (vlFlattenFill t src count ((count * t.elem + total + 1) % 2 ^ 64) count 0 ⟨[], []⟩).map
          (VlBlock.elems t)

/-! ## The framing -/

/-- `n` elements off the front of the bytes, as they are announced. -/
def vlFrames (t : VlType) : Nat → Bytes → Option (List (Option Bytes))
  | 0, _ => some []
  | n + 1, bs =>
      if bs.length < 8 then none
      else if getLe (bs.take 8) = 0 then (vlFrames t n (bs.drop 8)).map (none :: ·)
      else if (bs.drop 8).length < getLe (bs.take 8) - 1 ∨ t.ragged (getLe (bs.take 8) - 1) then none
      else (vlFrames t n ((bs.drop 8).drop (getLe (bs.take 8) - 1))).map
        (some ((bs.drop 8).take (getLe (bs.take 8) - 1)) :: ·)

theorem sizeSub_of_le {a b : Nat} (hb : b ≤ a) (ha : a ≤ ptrdiffMax) : sizeSub a b = a - b := by
  unfold sizeSub
  unfold ptrdiffMax at ha
  omega

/-- One round of the framing at an offset, in the decoders' terms. -/
theorem vlFrames_succ (t : VlType) (src : Bytes) (n off : Nat) :
    vlFrames t (n + 1) (src.drop off)
      = if src.length - off < 8 then none
        else if getLe ((src.drop off).take 8) = 0 then (vlFrames t n (src.drop (off + 8))).map (none :: ·)
        else if src.length - (off + 8) < getLe ((src.drop off).take 8) - 1
            ∨ t.ragged (getLe ((src.drop off).take 8) - 1) then none
        else (vlFrames t n (src.drop (off + 8 + (getLe ((src.drop off).take 8) - 1)))).map
          (some ((src.drop (off + 8)).take (getLe ((src.drop off).take 8) - 1)) :: ·) := by
  rw [vlFrames]
  simp only [List.drop_drop, List.length_drop]

/-! ## Replay's decoder follows the framing -/

theorem vlDeserializeLoop_eq (t : VlType) {src : Bytes} (hsrc : src.length ≤ ptrdiffMax) (n : Nat) {off : Nat}
    (hoff : off ≤ src.length) :
    vlDeserializeLoop t src n off
      = (Parse.ofOption (vlFrames t n (src.drop off))).map (List.map (Option.map t.value)) := by
  induction n generalizing off with
  | zero => rfl
  | succ n ih =>
    rw [vlFrames_succ, vlDeserializeLoop, sizeSub_of_le hoff hsrc]
    by_cases hshort : src.length - off < 8
    · rw [if_pos hshort, if_pos hshort]
      rfl
    rw [if_neg hshort, if_neg hshort, word_of_le (by omega), Parse.bind_accept]
    by_cases htag : getLe ((src.drop off).take 8) = 0
    · rw [if_pos htag, if_pos htag, ih (by omega)]
      cases vlFrames t n (src.drop (off + 8)) with
      | none => rfl
      | some l => rfl
    rw [if_neg htag, if_neg htag, sizeSub_of_le (by omega) hsrc]
    by_cases hlong : src.length - (off + 8) < getLe ((src.drop off).take 8) - 1
    · rw [if_pos hlong, if_pos (.inl hlong)]
      rfl
    rw [if_neg hlong]
    by_cases hragged : t.ragged (getLe ((src.drop off).take 8) - 1)
    · rw [if_pos hragged, if_pos (.inr hragged)]
      rfl
    rw [if_neg hragged, if_neg (by tauto), read_of_le (by omega), Parse.bind_accept, ih (by omega)]
    cases vlFrames t n (src.drop (off + 8 + (getLe ((src.drop off).take 8) - 1))) with
    | none => rfl
    | some l => rfl

/-! ## A subscriber's decoder follows the framing -/

/-- The bytes behind the pointer array of a block that shows the elements. -/
def vlBytes (t : VlType) (l : List (Option Bytes)) : Bytes :=
  l.flatMap fun e => match e with
    | none => []
    | some data => data ++ t.terminator

/-- The pointers of a block that shows the elements, from offset `start` on. -/
def vlPtrs (t : VlType) : Nat → List (Option Bytes) → List (Option (Nat × Nat))
  | _, [] => []
  | start, none :: l => none :: vlPtrs t start l
  | start, some data :: l =>
      some (start, data.length / t.base) :: vlPtrs t (start + (data ++ t.terminator).length) l

theorem VlType.length_terminator (t : VlType) : t.terminator.length ≤ 1 := by
  unfold VlType.terminator
  split
  · exact Nat.le_refl _
  · exact Nat.zero_le _

@[simp] theorem vlBytes_none (t : VlType) (l : List (Option Bytes)) : vlBytes t (none :: l) = vlBytes t l := by
  rw [vlBytes, List.flatMap_cons, List.nil_append, vlBytes]

@[simp] theorem vlBytes_some (t : VlType) (data : Bytes) (l : List (Option Bytes)) :
    vlBytes t (some data :: l) = data ++ t.terminator ++ vlBytes t l := by
  rw [vlBytes, List.flatMap_cons, vlBytes]

/-- The block of framed elements is at most twice as long as their wire form. -/
theorem vlFrames_block {t : VlType} {n : Nat} {bs : Bytes} {l : List (Option Bytes)} (h : vlFrames t n bs = some l) :
    n * t.elem + (vlBytes t l).length ≤ 2 * bs.length := by
  have helem : t.elem + t.terminator.length ≤ 16 := by
    unfold VlType.elem VlType.terminator
    cases t.kind <;> decide
  induction n generalizing bs l with
  | zero =>
    cases h
    simp [vlBytes]
  | succ n ih =>
    rw [vlFrames] at h
    split at h
    · cases h
    · rename_i hshort
      split at h
      · obtain ⟨l', hl', rfl⟩ := Option.map_eq_some_iff.mp h
        have hrest := ih hl'
        rw [List.length_drop] at hrest
        rw [vlBytes_none, Nat.succ_mul]
        omega
      · split at h
        · cases h
        · rename_i hfits
          obtain ⟨l', hl', rfl⟩ := Option.map_eq_some_iff.mp h
          have hrest := ih hl'
          rw [not_or, List.length_drop] at hfits
          rw [List.drop_drop, List.length_drop] at hrest
          rw [vlBytes_some, Nat.succ_mul, List.length_append, List.length_append, List.length_take,
            List.length_drop]
          omega

/-- Pass 1 adds up what the block needs; the sum stays below the bytes walked, so it does not wrap. -/
theorem vlFlattenSize_eq (t : VlType) {src : Bytes} (hsrc : src.length ≤ ptrdiffMax) (n : Nat) {off total : Nat}
    (hoff : off ≤ src.length) (htotal : total ≤ off) :
    vlFlattenSize t src n off total
      = (Parse.ofOption (vlFrames t n (src.drop off))).map fun l => total + (vlBytes t l).length := by
  have hterm := t.length_terminator
  induction n generalizing off total with
  | zero => rfl
  | succ n ih =>
    rw [vlFrames_succ, vlFlattenSize, sizeSub_of_le hoff hsrc]
    by_cases hshort : src.length - off < 8
    · rw [if_pos hshort, if_pos hshort]
      rfl
    rw [if_neg hshort, if_neg hshort, word_of_le (by omega), Parse.bind_accept]
    by_cases htag : getLe ((src.drop off).take 8) = 0
    · rw [if_pos htag, if_pos htag, ih (by omega) (by omega)]
      cases vlFrames t n (src.drop (off + 8)) with
      | none => rfl
      | some l => simp [Parse.ofOption]
    rw [if_neg htag, if_neg htag, sizeSub_of_le (by omega) hsrc]
    by_cases hbad : src.length - (off + 8) < getLe ((src.drop off).take 8) - 1
        ∨ t.ragged (getLe ((src.drop off).take 8) - 1)
    · rw [if_pos hbad, if_pos hbad]
      rfl
    have hfits : ¬ src.length - (off + 8) < getLe ((src.drop off).take 8) - 1 := fun hlt => hbad (.inl hlt)
    have hsum : total + (getLe ((src.drop off).take 8) - 1 + t.terminator.length)
        ≤ off + 8 + (getLe ((src.drop off).take 8) - 1) := by omega
    rw [if_neg hbad, if_neg hbad, Nat.mod_eq_of_lt (by unfold ptrdiffMax at hsrc; omega),
      ih (by omega) hsum]
    cases vlFrames t n (src.drop (off + 8 + (getLe ((src.drop off).take 8) - 1))) with
    | none => rfl
    | some l =>
      have hlen : ((src.drop (off + 8)).take (getLe ((src.drop off).take 8) - 1)).length
          = getLe ((src.drop off).take 8) - 1 := by
        rw [List.length_take, List.length_drop]
        omega
      simp only [Parse.ofOption, Parse.map_accept, Option.map_some, vlBytes_some, List.length_append, hlen]
      congr 1
      omega

/-- Pass 2 fills the block with the framed elements and stays inside it when it is large enough. -/
theorem vlFlattenFill_eq {t : VlType} {src : Bytes} {count size n off : Nat} {blk : VlBlock}
    {l : List (Option Bytes)} (hframes : vlFrames t n (src.drop off) = some l) (hoff : off ≤ src.length)
    (hcount : blk.ptrs.length + n = count)
    (hsize : count * t.elem + (blk.data ++ vlBytes t l).length ≤ size) :
    vlFlattenFill t src count size n off blk
      = .accept ⟨blk.ptrs ++ vlPtrs t blk.data.length l, blk.data ++ vlBytes t l⟩ := by
  induction n generalizing off blk l with
  | zero =>
    cases hframes
    simp [vlFlattenFill, vlPtrs, vlBytes]
  | succ n ih =>
    have hptr : ¬ size < (blk.ptrs.length + 1) * t.elem := by
      have hmul : (blk.ptrs.length + 1) * t.elem ≤ count * t.elem := Nat.mul_le_mul_right _ (by omega)
      omega
    rw [vlFrames_succ] at hframes
    split at hframes
    · cases hframes
    · rename_i hshort
      rw [vlFlattenFill, word_of_le (by omega), Parse.bind_accept, if_neg hptr]
      split at hframes
      · rename_i htag
        obtain ⟨l', hl', rfl⟩ := Option.map_eq_some_iff.mp hframes
        rw [vlBytes_none] at hsize ⊢
        have hptrs : (blk.ptrs ++ [none]).length + n = count := by
          rw [List.length_append, List.length_singleton]
          omega
        have hfill := @ih _ ⟨blk.ptrs ++ [none], blk.data⟩ _ hl' (by omega) hptrs hsize
        rw [if_pos htag, hfill, List.append_assoc]
        rfl
      · rename_i htag
        split at hframes
        · cases hframes
        · rename_i hfits
          obtain ⟨l', hl', rfl⟩ := Option.map_eq_some_iff.mp hframes
          rw [not_or] at hfits
          have hlen : ((src.drop (off + 8)).take (getLe ((src.drop off).take 8) - 1)).length
              = getLe ((src.drop off).take 8) - 1 := by
            rw [List.length_take, List.length_drop]
            omega
          rw [vlBytes_some, ← List.append_assoc] at hsize
          rw [if_neg htag, read_of_le (by omega), Parse.bind_accept,
            if_neg (by rw [List.length_append] at hsize; omega),
            ih hl' (by omega) (by rw [List.length_append, List.length_singleton]; omega) hsize]
          simp only [vlPtrs, vlBytes_some, hlen, List.append_assoc, List.length_append, List.singleton_append]

/-- What an element shows does not depend on what follows it in memory. -/
theorem VlType.view_append (t : VlType) (data rest : Bytes) :
    t.view (data.length / t.base) (data ++ t.terminator ++ rest) = t.value data := by
  unfold VlType.value VlType.view VlType.terminator
  by_cases hstr : t.kind = .string
  · rw [if_pos hstr, if_pos hstr, if_pos hstr, List.append_assoc, List.singleton_append, List.takeWhile_append,
      List.takeWhile_append]
    split
    · rw [List.takeWhile_cons_of_neg (by simp), List.takeWhile_cons_of_neg (by simp)]
    · rfl
  · have hmul : data.length / t.base * t.base ≤ data.length := Nat.div_mul_le_self _ _
    rw [if_neg hstr, if_neg hstr, if_neg hstr, List.append_nil, List.take_append_of_le_length hmul]

/-- The pointers of the elements, followed into the bytes behind the array, show the elements. -/
theorem vlPtrs_view (t : VlType) (l : List (Option Bytes)) (front : Bytes) :
    (vlPtrs t front.length l).map (Option.map fun ptr => t.view ptr.2 ((front ++ vlBytes t l).drop ptr.1))
      = l.map (Option.map t.value) := by
  induction l generalizing front with
  | nil => rfl
  | cons e l ih =>
    cases e with
    | none =>
      rw [vlPtrs, vlBytes_none, List.map_cons, List.map_cons, ih]
      rfl
    | some data =>
      have hih := ih (front ++ (data ++ t.terminator))
      rw [List.length_append, List.append_assoc] at hih
      rw [vlPtrs, vlBytes_some, List.map_cons, List.map_cons, hih, Option.map_some, Option.map_some,
        List.drop_left, t.view_append]

/-! ## Both decoders -/

/-- What either decoder returns for a payload it was handed. -/
def vlDecoded (t : VlType) (src : Option Bytes) (count : Nat) : Option (List (Option Bytes)) :=
  if t.refused then none else src.bind fun src => (vlFrames t count src).map (List.map (Option.map t.value))

theorem vlDeserialize_eq (t : VlType) (src : Option Bytes) (count : Nat)
    (hsrc : ∀ b ∈ src, b.length ≤ ptrdiffMax) :
    vlDeserialize t src count = .ofOption (vlDecoded t src count) := by
  unfold vlDeserialize vlDecoded
  cases src with
  | none => cases t.refused <;> rfl
  | some src =>
    cases t.refused with
    | true => rfl
    | false =>
      have hloop := vlDeserializeLoop_eq t (hsrc src rfl) count (Nat.zero_le _)
      rw [List.drop_zero] at hloop
      simp only [Bool.false_eq_true, if_false, Option.bind_some]
      rw [hloop]
      cases vlFrames t count src with
      | none => rfl
      | some l => rfl

theorem vlFlatten_eq (t : VlType) (src : Option Bytes) (count : Nat) (hsrc : ∀ b ∈ src, b.length ≤ ptrdiffMax) :
    vlFlatten t src count = .ofOption (vlDecoded t src count) := by
  unfold vlFlatten vlDecoded
  cases src with
  | none => cases t.refused <;> rfl
  | some src =>
    cases t.refused with
    | true => rfl
    | false =>
      have hsize := vlFlattenSize_eq t (hsrc src rfl) count (Nat.zero_le _) (Nat.le_refl 0)
      rw [List.drop_zero] at hsize
      simp only [Bool.false_eq_true, if_false, Option.bind_some]
      rw [hsize]
      cases hframes : vlFrames t count src with
      | none => rfl
      | some l =>
        have hblock := vlFrames_block hframes
        have hfits := hsrc src rfl
        unfold ptrdiffMax at hfits
        have hstart : vlFrames t count (src.drop 0) = some l := by rwa [List.drop_zero]
        have hroom : count * t.elem + (([] : Bytes) ++ vlBytes t l).length ≤
            (count * t.elem + (0 + (vlBytes t l).length) + 1) % 2 ^ 64 := by
          rw [List.nil_append, Nat.mod_eq_of_lt (by omega)]
          omega
        have hfill := @vlFlattenFill_eq _ _ _ _ _ _ ⟨[], []⟩ _ hstart (Nat.zero_le _) (Nat.zero_add count) hroom
        simp only [Parse.ofOption, Parse.map_accept, Parse.bind_accept, hfill, VlBlock.elems, List.nil_append]
        have hview := vlPtrs_view t l []
        rw [List.nil_append] at hview
        exact congrArg Parse.accept hview

/-! ## The round trip -/

/-- An array an application can write: whole values or C strings behind its pointers, and a wire form that
is an object. -/
structure VlArray (t : VlType) where
  elems : List (Option Bytes)
  whole : ∀ data, some data ∈ elems → (t.kind = .sequence → t.base ∣ data.length) ∧ (t.kind = .string → 0 ∉ data)
  fits : (elems.flatMap vlWire).length ≤ ptrdiffMax

theorem vlFrames_wire (t : VlType) {arr : List (Option Bytes)}
    (hwhole : ∀ data, some data ∈ arr → t.kind = .sequence → t.base ∣ data.length)
    (hfits : (arr.flatMap vlWire).length ≤ ptrdiffMax) :
    vlFrames t arr.length (arr.flatMap vlWire) = some arr := by
  unfold ptrdiffMax at hfits
  induction arr with
  | nil => rfl
  | cons e arr ih =>
    rw [List.flatMap_cons, List.length_append] at hfits
    have htail := ih (fun data hdata => hwhole data (List.mem_cons_of_mem _ hdata)) (by omega)
    rw [List.flatMap_cons, List.length_cons, vlFrames]
    cases e with
    | none =>
      have htake : (putLe 8 0 ++ arr.flatMap vlWire).take 8 = putLe 8 0 := List.take_left' (length_putLe 8 0)
      have hdrop : (putLe 8 0 ++ arr.flatMap vlWire).drop 8 = arr.flatMap vlWire := List.drop_left' (length_putLe 8 0)
      rw [show vlWire none = putLe 8 0 from rfl, htake, hdrop, getLe_putLe (by decide),
        if_neg (by rw [List.length_append, length_putLe]; omega), if_pos rfl, htail]
      rfl
    | some data =>
      have hlen : data.length + 1 < 256 ^ 8 := by
        simp only [vlWire, List.length_append, length_putLe] at hfits
        omega
      have hragged : t.ragged data.length = false := by
        unfold VlType.ragged
        rw [decide_eq_false_iff_not]
        rintro ⟨hseq, hmod⟩
        exact hmod (Nat.mod_eq_zero_of_dvd (hwhole data List.mem_cons_self hseq))
      have htake : (putLe 8 (data.length + 1) ++ (data ++ arr.flatMap vlWire)).take 8 = putLe 8 (data.length + 1) :=
        List.take_left' (length_putLe 8 _)
      have hdrop : (putLe 8 (data.length + 1) ++ (data ++ arr.flatMap vlWire)).drop 8 = data ++ arr.flatMap vlWire :=
        List.drop_left' (length_putLe 8 _)
      rw [show vlWire (some data) = putLe 8 (data.length + 1) ++ data from rfl, List.append_assoc, htake, hdrop,
        getLe_putLe hlen, Nat.add_sub_cancel, hragged,
        if_neg (by rw [List.length_append, length_putLe]; omega), if_neg (by omega),
        if_neg (by rw [List.length_append]; simp), List.drop_left, List.take_left, htail]
      rfl

/-- What was written is what an element shows. -/
theorem VlType.value_eq {t : VlType} {data : Bytes} (ht : t.refused = false)
    (hwhole : (t.kind = .sequence → t.base ∣ data.length) ∧ (t.kind = .string → 0 ∉ data)) : t.value data = data := by
  unfold VlType.value VlType.view VlType.terminator
  cases hkind : t.kind with
  | none => simp [VlType.refused, hkind] at ht
  | sequence =>
    rw [if_neg (by decide), if_neg (by decide), List.append_nil, Nat.div_mul_cancel (hwhole.1 hkind), List.take_length]
  | string =>
    have hall : ∀ b ∈ data, decide (b ≠ 0) = true := fun b hb => by
      simpa using fun h0 : b = 0 => hwhole.2 hkind (h0 ▸ hb)
    rw [if_pos rfl, if_pos rfl, List.takeWhile_append_of_pos hall, List.takeWhile_cons_of_neg (by simp), List.append_nil]

theorem vlSerialize_eq {t : VlType} (ht : t.refused = false) (arr : List (Option Bytes)) :
    vlSerialize t arr = some (if arr = [] then none else some (arr.flatMap vlWire)) := by
  have hfold : ∀ (l : List (Option Bytes)) (acc : Bytes),
      l.foldl (fun acc e => some (acc.getD [] ++ vlWire e)) (some acc) = some (acc ++ l.flatMap vlWire) := by
    intro l
    induction l with
    | nil => exact fun acc => by rw [List.flatMap_nil, List.append_nil]; rfl
    | cons e l ih =>
      intro acc
      rw [List.foldl_cons, Option.getD_some, ih, List.flatMap_cons, List.append_assoc]
  rw [vlSerialize, ht, if_neg Bool.false_ne_true]
  cases arr with
  | nil => rfl
  | cons e arr =>
    rw [List.foldl_cons, Option.getD_none, List.nil_append, hfold, if_neg (List.cons_ne_nil _ _), List.flatMap_cons]

/-- Both decoders recover the array from what the encoder made of it. -/
def VlArray.RoundTrips {t : VlType} (arr : VlArray t) : Prop :=
  ∃ out, vlSerialize t arr.elems = some out ∧ vlDeserialize t out arr.elems.length = .accept arr.elems ∧
    vlFlatten t out arr.elems.length = .accept arr.elems

/-- Neither decoder leaves its buffers, and they return the same. -/
def VlAgree (t : VlType) (src : Option Bytes) (count : Nat) : Prop :=
  (vlDeserialize t src count).Safe ∧ (vlFlatten t src count).Safe ∧
    vlDeserialize t src count = vlFlatten t src count

theorem vlAgree (t : VlType) {src : Option Bytes} (count : Nat) (hsrc : ∀ b ∈ src, b.length ≤ ptrdiffMax) :
    VlAgree t src count := by
  unfold VlAgree
  rw [vlDeserialize_eq t src count hsrc, vlFlatten_eq t src count hsrc]
  exact ⟨Parse.safe_ofOption _, Parse.safe_ofOption _, rfl⟩

/-- The codec is exact on every array that has an element, and its decoders agree on every payload. -/
theorem vlCodec_exact_iff {t : VlType} (ht : t.refused = false) :
    (∀ arr : VlArray t, arr.RoundTrips ↔ arr.elems ≠ []) ∧
      ∀ (src : Option Bytes) (count : Nat), (∀ b ∈ src, b.length ≤ ptrdiffMax) → VlAgree t src count := by
  refine ⟨fun arr => ⟨?_, fun hne => ?_⟩, fun src count hsrc => vlAgree t count hsrc⟩
  · rintro ⟨out, hout, hdecode, -⟩ hnil
    rw [vlSerialize_eq ht, hnil, if_pos rfl] at hout
    cases hout
    cases hdecode
  · have hmem : ∀ b ∈ some (arr.elems.flatMap vlWire), b.length ≤ ptrdiffMax := by
      rintro b hb
      cases hb
      exact arr.fits
    have hvalues : arr.elems.map (Option.map t.value) = arr.elems := by
      rw [List.map_congr_left (g := id), List.map_id]
      intro e he
      cases e with
      | none => rfl
      | some data => exact congrArg some (VlType.value_eq ht (arr.whole data he))
    have hdecoded : vlDecoded t (some (arr.elems.flatMap vlWire)) arr.elems.length = some arr.elems := by
      rw [vlDecoded, ht, if_neg Bool.false_ne_true, Option.bind_some,
        vlFrames_wire t (fun data hdata => (arr.whole data hdata).1) arr.fits, Option.map_some, hvalues]
    refine ⟨some (arr.elems.flatMap vlWire), ?_, ?_, ?_⟩
    · rw [vlSerialize_eq ht, if_neg hne]
    · rw [vlDeserialize_eq t _ _ hmem, hdecoded]
      rfl
    · rw [vlFlatten_eq t _ _ hmem, hdecoded]
      rfl

-- `H5T_C_S1` of variable length, and a sequence of `int`
def vlString : VlType := ⟨.string, 1⟩
def vlInts : VlType := ⟨.sequence, 4⟩

/-- The three values the bias of the tag keeps apart: a string, the empty one, and NULL. -/
def threeStrings : VlArray vlString where
  elems := [some [104, 105], some [], none]
  whole := by
    rintro data hdata
    refine ⟨nofun, fun _ => ?_⟩
    simp only [List.mem_cons, Option.some.injEq, reduceCtorEq, List.not_mem_nil, or_false] at hdata
    rcases hdata with rfl | rfl
    · decide
    · decide
  fits := by decide

theorem threeStrings_roundTrips :
    threeStrings.RoundTrips ∧ VlAgree vlString (some [1, 0, 0]) 2 :=
  ⟨((vlCodec_exact_iff (t := vlString) (by decide)).1 threeStrings).mpr (by decide),
    (vlCodec_exact_iff (t := vlString) (by decide)).2 (some [1, 0, 0]) 2 (by simp [ptrdiffMax])⟩

/-- No elements: the encoder succeeds with a NULL buffer, and both decoders refuse it. -/
theorem noInts_refused :
    ∃ arr : VlArray vlInts, arr.elems = [] ∧ vlSerialize vlInts arr.elems = some none ∧
      vlDeserialize vlInts none 0 = .reject ∧ vlFlatten vlInts none 0 = .reject ∧ ¬ arr.RoundTrips := by
  refine ⟨⟨[], nofun, by decide⟩, rfl, rfl, rfl, rfl, ?_⟩
  rintro ⟨out, hout, hdecode, -⟩
  cases hout
  cases hdecode

end VolStream
