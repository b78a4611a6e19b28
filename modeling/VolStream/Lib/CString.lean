import Mathlib.Algebra.Group.Nat.Defs
import Mathlib.Data.Nat.Notation

/-!
# C strings

A C string is the list of its characters before the terminating NUL. `strtoull` is the C
library's conversion, restricted to what a caller that insists on consuming the whole string
can observe; `decimal` is the `%llu` conversion of `printf`, and `strtoull_decimal` says the
two are inverse on 64-bit values.
-/

namespace CString

/-- `ULLONG_MAX`. -/
def ullongMax : Nat := 2 ^ 64 - 1

/-- `isspace` in the C locale. -/
def isspace (c : Char) : Bool :=
  c = ' ' || c = '\t' || c = '\n' || c = '\x0b' || c = '\x0c' || c = '\r'

-- `%llu`
def decimal (n : Nat) : List Char := Nat.toDigits 10 n

-- the sign `strtoull` accepts, and the rest
def splitSign : List Char → Bool × List Char
  | '-' :: cs => (true, cs)
  | '+' :: cs => (false, cs)
  | cs => (false, cs)

/-- `strtoull(s, &end, 10)` with `end` at the terminating NUL; `none` when no digits were
converted or something follows them. Out-of-range values saturate, a minus sign negates modulo
`2 ^ 64`. -/
def strtoull (s : List Char) : Option Nat :=
  let (neg, digits) := splitSign (s.dropWhile isspace)
  if digits.isEmpty || !digits.all Char.isDigit then none
  else
    let v := Nat.ofDigitChars 10 digits 0
    if v > ullongMax then some ullongMax
    else if neg then some ((2 ^ 64 - v) % 2 ^ 64)
    else some v

theorem splitSign_of_isDigit {c : Char} {cs : List Char} (h : c.isDigit = true) :
    splitSign (c :: cs) = (false, c :: cs) := by
  unfold splitSign
  split
  · rename_i heq
    cases heq
    exact absurd h (by decide)
  · rename_i heq
    cases heq
    exact absurd h (by decide)
  · rfl

theorem not_isspace_of_isDigit {c : Char} (h : c.isDigit = true) : isspace c = false := by
  rw [Bool.eq_false_iff]
  intro hs
  simp only [isspace, Bool.or_eq_true, decide_eq_true_eq] at hs
  rcases hs with ((((rfl | rfl) | rfl) | rfl) | rfl) | rfl <;> exact absurd h (by decide)

theorem strtoull_decimal {n : Nat} (h : n ≤ ullongMax) : strtoull (decimal n) = some n := by
  have hdigits : ∀ c ∈ decimal n, c.isDigit = true := fun c hc =>
    Nat.isDigit_of_mem_toDigits (by omega) (by omega) hc
  obtain ⟨c, cs, hcs⟩ : ∃ c cs, decimal n = c :: cs :=
    List.exists_cons_of_ne_nil Nat.toDigits_ne_nil
  have hc := hdigits c (by rw [hcs]; exact List.mem_cons_self)
  have hdrop : (decimal n).dropWhile isspace = decimal n := by
    rw [hcs, List.dropWhile_cons, not_isspace_of_isDigit hc]
    rfl
  have hsplit : splitSign (decimal n) = (false, decimal n) := by
    rw [hcs]
    exact splitSign_of_isDigit hc
  have hall : (decimal n).all Char.isDigit = true := List.all_eq_true.mpr hdigits
  have hval : Nat.ofDigitChars 10 (decimal n) 0 = n := Nat.ofDigitChars_ten_toDigits
  have hne : (decimal n).isEmpty = false := by rw [hcs]; rfl
  simp only [strtoull, hdrop, hsplit, hall, hne, hval]
  rw [if_neg (by decide), if_neg (by omega), if_neg (by decide)]

theorem decimal_injective {m n : Nat} (h : decimal m = decimal n) : m = n := by
  rw [← Nat.ofDigitChars_ten_toDigits (n := m), ← Nat.ofDigitChars_ten_toDigits (n := n)]
  exact congrArg (Nat.ofDigitChars 10 · 0) h

end CString
