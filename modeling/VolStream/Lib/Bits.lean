import Mathlib.Algebra.Group.Nat.Defs
import Mathlib.Algebra.Order.Ring.Nat
import Mathlib.Data.List.Basic
import Mathlib.Data.List.Induction
import Mathlib.Tactic.Ring

/-!
# Regrouping a stream of bits

A codec that turns digits of `w` bits into words of `k` bits keeps the bits it has not used yet in an
accumulator: a digit is shifted in from below, and as soon as `k` bits are there the topmost of them leave
as a word. The accumulator is a machine word of `m` bits and is never cleared, so on a long input what was
used long ago is shifted out at its top.

`regroup_words` says that this is harmless whenever the accumulator has room for the bits that are still
pending and one more digit: the words are those of the concatenated digits (`words`), most significant bit
first, and what is left over at the end is dropped.
-/

namespace Bits

/-- The `w` low bits of `n`, most significant first. -/
def digits : Nat → Nat → List Bool
  | 0, _ => []
  | w + 1, n => n.testBit w :: digits w n

/-- The number a list of bits spells, most significant first. -/
def value : List Bool → Nat
  | [] => 0
  | b :: bs => b.toNat * 2 ^ bs.length + value bs

/-- The whole words of `k` bits at the front of `bs`. -/
def words (k : Nat) (bs : List Bool) : List Nat :=
  (List.range (bs.length / k)).map fun i => value ((bs.drop (k * i)).take k)

/-- The bits behind the last whole word. -/
def rest (k : Nat) (bs : List Bool) : List Bool := bs.drop (k * (bs.length / k))

@[simp] theorem length_digits (w n : Nat) : (digits w n).length = w := by
  induction w with
  | zero => rfl
  | succ w ih => simp [digits, ih]

/-! ## Digits and their values -/

theorem value_append (as bs : List Bool) : value (as ++ bs) = value as * 2 ^ bs.length + value bs := by
  induction as with
  | nil => simp [value]
  | cons a as ih =>
    simp only [List.cons_append, value, ih, List.length_append, Nat.pow_add]
    ring

theorem value_lt (bs : List Bool) : value bs < 2 ^ bs.length := by
  induction bs with
  | nil => simp [value]
  | cons b bs ih =>
    have hb := b.toNat_le
    have : b.toNat * 2 ^ bs.length ≤ 1 * 2 ^ bs.length := Nat.mul_le_mul_right _ hb
    simp only [value, List.length_cons, Nat.pow_succ]
    omega

theorem value_digits (w n : Nat) : value (digits w n) = n % 2 ^ w := by
  induction w with
  | zero => simp [digits, value, Nat.mod_one]
  | succ w ih =>
    rw [digits, value, ih, length_digits, Nat.mod_pow_succ, Nat.toNat_testBit, Nat.mul_comm, Nat.add_comm]

theorem value_digits_of_lt {w n : Nat} (h : n < 2 ^ w) : value (digits w n) = n := by
  rw [value_digits, Nat.mod_eq_of_lt h]

theorem digits_add (a b n : Nat) : digits (a + b) n = digits a (n / 2 ^ b) ++ digits b n := by
  induction a with
  | zero => simp [digits]
  | succ a ih =>
    rw [Nat.succ_add, digits, digits, ih, Nat.testBit_div_two_pow, List.cons_append]

theorem digits_mod (w n : Nat) {v : Nat} (h : w ≤ v) : digits w (n % 2 ^ v) = digits w n := by
  induction w with
  | zero => rfl
  | succ w ih =>
    have hw : w < v := h
    rw [digits, digits, ih (Nat.le_of_lt hw), Nat.testBit_mod_two_pow, decide_eq_true hw, Bool.true_and]

theorem value_take_drop (k : Nat) (bs : List Bool) :
    value bs = value (bs.take k) * 2 ^ (bs.length - k) + value (bs.drop k) := by
  have := value_append (bs.take k) (bs.drop k)
  rwa [List.take_append_drop, List.length_drop] at this

/-! ## Words -/

section words

variable {k : Nat} (hk : 0 < k)

theorem length_rest (bs : List Bool) : (rest k bs).length = bs.length % k := by
  have := Nat.div_add_mod bs.length k
  rw [rest, List.length_drop]
  omega

include hk

theorem length_rest_lt (bs : List Bool) : (rest k bs).length < k := by
  rw [length_rest]
  exact Nat.mod_lt _ hk

omit hk in
/-- A word inside `as` does not see what is appended. -/
theorem word_append {as bs : List Bool} {i : Nat} (hi : i < as.length / k) :
    value (((as ++ bs).drop (k * i)).take k) = value ((as.drop (k * i)).take k) := by
  have hle : k * i + k ≤ as.length := by
    calc k * i + k = k * (i + 1) := by ring
      _ ≤ k * (as.length / k) := Nat.mul_le_mul_left k hi
      _ ≤ as.length := Nat.mul_div_le as.length k
  rw [List.drop_append_of_le_length (by omega), List.take_append_of_le_length]
  rw [List.length_drop]
  omega

/-- Fewer bits than complete the pending word leave the words as they are. -/
theorem words_append_short {u v : List Bool} (h : (rest k u).length + v.length < k) :
    words k (u ++ v) = words k u ∧ rest k (u ++ v) = rest k u ++ v := by
  rw [length_rest] at h
  have hq : (u ++ v).length / k = u.length / k := by
    rw [List.length_append]
    conv_lhs => rw [← Nat.div_add_mod u.length k, Nat.add_assoc]
    rw [Nat.mul_add_div hk, Nat.div_eq_of_lt h, Nat.add_zero]
  constructor
  · rw [words, words, hq]
    exact List.map_congr_left fun i hi => word_append (List.mem_range.mp hi)
  · rw [rest, rest, hq, List.drop_append_of_le_length (Nat.mul_div_le _ _)]

/-- Bits that complete the pending word, and no second one, add that word. -/
theorem words_append_full {u v : List Bool} (h : k ≤ (rest k u).length + v.length)
    (h₂ : (rest k u).length + v.length < 2 * k) :
    words k (u ++ v) = words k u ++ [value ((rest k u ++ v).take k)] ∧
      rest k (u ++ v) = (rest k u ++ v).drop k := by
  rw [length_rest] at h h₂
  have hq : (u ++ v).length / k = u.length / k + 1 := by
    rw [List.length_append]
    conv_lhs => rw [← Nat.div_add_mod u.length k, Nat.add_assoc]
    have hone : (u.length % k + v.length) / k = 1 := Nat.div_eq_of_lt_le (by omega) (by omega)
    rw [Nat.mul_add_div hk, hone]
  have hdrop : (u ++ v).drop (k * (u.length / k)) = rest k u ++ v :=
    List.drop_append_of_le_length (Nat.mul_div_le _ _)
  constructor
  · rw [words, words, hq, List.range_succ, List.map_append, List.map_singleton, hdrop]
    congr 1
    exact List.map_congr_left fun i hi => word_append (List.mem_range.mp hi)
  · rw [rest, hq, Nat.mul_add, Nat.mul_one, ← List.drop_drop, hdrop]

/-- The words of numbers written out are these numbers, whatever short tail follows. -/
theorem words_flatMap {ns : List Nat} {tail : List Bool} (hns : ∀ n ∈ ns, n < 2 ^ k)
    (ht : tail.length < k) : words k (ns.flatMap (digits k) ++ tail) = ns := by
  suffices h : words k (ns.flatMap (digits k)) = ns ∧ rest k (ns.flatMap (digits k)) = [] by
    rw [(words_append_short hk (by simpa [h.2] using ht)).1, h.1]
  induction ns using List.reverseRecOn with
  | nil => simp [words, rest]
  | append_singleton ns n ih =>
    obtain ⟨hw, hr⟩ := ih fun m hm => hns m (List.mem_append_left _ hm)
    have hlast := words_append_full hk (u := ns.flatMap (digits k)) (v := digits k n)
      (by simp [hr]) (by simp [hr, hk])
    rw [hr, List.nil_append, List.take_of_length_le (by simp), value_digits_of_lt (hns n (by simp)),
      List.drop_of_length_le (by simp)] at hlast
    rw [List.flatMap_append, List.flatMap_singleton, hlast.1, hlast.2, hw]
    exact ⟨rfl, rfl⟩

end words

/-! ## The accumulator -/

/-- The accumulator, the number of its low bits that are pending, and the words already made. -/
structure Regroup where
  acc : Nat
  bits : Nat
  out : List Nat

section accumulator

variable (m w k : Nat)

/-- Shift one digit in; let a word out when there is one. -/
def Regroup.put (s : Regroup) (d : Nat) : Regroup :=
  let acc := (s.acc * 2 ^ w + d) % 2 ^ m
  let bits := s.bits + w
  if k ≤ bits then ⟨acc, bits - k, s.out ++ [acc / 2 ^ (bits - k) % 2 ^ k]⟩ else ⟨acc, bits, s.out⟩

/-- The state stands for the bits read so far. -/
structure Regroup.Reads (s : Regroup) (bs : List Bool) : Prop where
  out : s.out = words k bs
  bits : s.bits = (rest k bs).length
  acc : s.acc % 2 ^ s.bits = value (rest k bs)

theorem Regroup.reads_start : Regroup.Reads k ⟨0, 0, []⟩ [] := by
  constructor <;> simp [words, rest, value]

variable {m w k}

/-- The pending bits and a new digit, read off the wrapped accumulator. -/
theorem Regroup.Reads.shifted {s : Regroup} {bs : List Bool} {d : Nat} (h : Regroup.Reads k s bs)
    (hd : d < 2 ^ w) (hm : s.bits + w ≤ m) :
    (s.acc * 2 ^ w + d) % 2 ^ m % 2 ^ (s.bits + w) = value (rest k bs ++ digits w d) := by
  have hlow : (s.acc * 2 ^ w + d) % 2 ^ w = d := by
    rw [Nat.mul_comm, Nat.mul_add_mod, Nat.mod_eq_of_lt hd]
  have hhigh : (s.acc * 2 ^ w + d) / 2 ^ w = s.acc := by
    rw [Nat.mul_comm, Nat.mul_add_div (Nat.two_pow_pos w), Nat.div_eq_of_lt hd, Nat.add_zero]
  calc (s.acc * 2 ^ w + d) % 2 ^ m % 2 ^ (s.bits + w)
      = (s.acc * 2 ^ w + d) % (2 ^ w * 2 ^ s.bits) := by
        rw [Nat.mod_mod_of_dvd _ (Nat.pow_dvd_pow 2 hm), Nat.pow_add, Nat.mul_comm (2 ^ s.bits)]
    _ = d + 2 ^ w * (s.acc % 2 ^ s.bits) := by rw [Nat.mod_mul, hlow, hhigh]
    _ = value (rest k bs ++ digits w d) := by
        rw [value_append, value_digits_of_lt hd, length_digits, ← h.acc, Nat.mul_comm, Nat.add_comm]

/-- A digit no wider than a word keeps the state in step with the bits, if the accumulator holds a word
and a digit less one bit. -/
theorem Regroup.Reads.put {s : Regroup} {bs : List Bool} {d : Nat} (h : Regroup.Reads k s bs)
    (hk : 0 < k) (hwk : w ≤ k) (hm : k + w ≤ m + 1) (hd : d < 2 ^ w) :
    Regroup.Reads k (s.put m w k d) (bs ++ digits w d) := by
  have hlt := length_rest_lt hk bs
  have hbits := h.bits
  have hV := h.shifted (m := m) hd (by omega)
  by_cases hfull : k ≤ s.bits + w
  · -- a word is complete: what stands above the pending bits of the accumulator
    obtain ⟨hw, hr⟩ := words_append_full hk (u := bs) (v := digits w d)
      (by rw [length_digits]; omega) (by rw [length_digits]; omega)
    have hlen : (rest k bs ++ digits w d).length = s.bits + w := by
      rw [List.length_append, length_digits, hbits]
    have hsplit := value_take_drop k (rest k bs ++ digits w d)
    have hlow := value_lt ((rest k bs ++ digits w d).drop k)
    rw [List.length_drop, hlen] at hlow
    rw [hlen, ← hV] at hsplit
    have hpow : 2 ^ (s.bits + w) = 2 ^ (s.bits + w - k) * 2 ^ k := by
      rw [← Nat.pow_add, Nat.sub_add_cancel hfull]
    simp only [Regroup.put, if_pos hfull]
    constructor
    · have htop := Nat.mod_mul_right_div_self ((s.acc * 2 ^ w + d) % 2 ^ m) (2 ^ (s.bits + w - k)) (2 ^ k)
      rw [← hpow, hsplit, Nat.mul_comm, Nat.mul_add_div (Nat.two_pow_pos _), Nat.div_eq_of_lt hlow] at htop
      rw [hw, h.out, ← htop, Nat.add_zero]
    · rw [hr, List.length_drop, hlen]
    · have hmod := Nat.mod_mul_right_mod ((s.acc * 2 ^ w + d) % 2 ^ m) (2 ^ (s.bits + w - k)) (2 ^ k)
      rw [← hpow, hsplit, Nat.mul_comm, Nat.mul_add_mod, Nat.mod_eq_of_lt hlow] at hmod
      rw [hr, ← hmod]
  · obtain ⟨hw, hr⟩ := words_append_short hk (u := bs) (v := digits w d)
      (by rw [length_digits]; omega)
    simp only [Regroup.put, if_neg hfull]
    constructor
    · rw [hw, h.out]
    · rw [hr, List.length_append, length_digits, hbits]
    · rw [hr, hV]

/-- A run over any digits makes the words of their bits. -/
theorem regroup_words (hk : 0 < k) (hwk : w ≤ k) (hm : k + w ≤ m + 1) {d : List Nat}
    (hd : ∀ e ∈ d, e < 2 ^ w) :
    (d.foldl (Regroup.put m w k) ⟨0, 0, []⟩).out = words k (d.flatMap (digits w)) := by
  suffices h : Regroup.Reads k (d.foldl (Regroup.put m w k) ⟨0, 0, []⟩) (d.flatMap (digits w)) from h.out
  induction d using List.reverseRecOn with
  | nil => exact Regroup.reads_start k
  | append_singleton d e ih =>
    have hlast := (ih fun f hf => hd f (List.mem_append_left _ hf)).put hk hwk hm (hd e (by simp))
    simpa using hlast

end accumulator

end Bits
