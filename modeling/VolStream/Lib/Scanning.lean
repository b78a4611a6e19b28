import Mathlib.Data.List.Basic
import VolStream.Lib.CString

/-!
# Scanning C strings

What a hand-written parser uses of `<string.h>` and `<stdlib.h>`: the searches `strchr` and
`strrchr`, the tokens of `strtok`, and the number conversions that read what they can and ignore
what follows.
-/

namespace CString

/-! ## Searching for a character -/

def strchr (c : Char) (s : List Char) : Option Nat := s.findIdx? (· == c)

def strrchr (c : Char) (s : List Char) : Option Nat := (strchr c s.reverse).map (s.length - 1 - ·)

theorem strchr_append_cons {c : Char} {a : List Char} (h : c ∉ a) (b : List Char) :
    strchr c (a ++ c :: b) = some a.length := by
  rw [strchr, List.findIdx?_append, List.findIdx?_eq_none_iff.mpr]
  · simp [List.findIdx?_cons]
  · intro x hx
    simpa using ne_of_mem_of_not_mem hx h

theorem strrchr_append_cons {c : Char} {b : List Char} (h : c ∉ b) (a : List Char) :
    strrchr c (a ++ c :: b) = some a.length := by
  have hreverse : (a ++ c :: b).reverse = b.reverse ++ c :: a.reverse := by simp
  rw [strrchr, hreverse, strchr_append_cons (by simpa using h)]
  simp only [Option.map_some, List.length_append, List.length_cons, List.length_reverse, Option.some.injEq]
  omega

/-- A string is cut at its first `c` or has none. -/
theorem eq_append_cons_of_strchr {c : Char} {s : List Char} {i : Nat} (h : strchr c s = some i) :
    ∃ a b, s = a ++ c :: b ∧ c ∉ a ∧ a.length = i := by
  obtain ⟨hlt, hat, hbefore⟩ := List.findIdx?_eq_some_iff_getElem.mp h
  have hc : s[i] = c := by simpa using hat
  refine ⟨s.take i, s.drop (i + 1), ?_, ?_, by simp; omega⟩
  · rw [← hc, List.getElem_cons_drop, List.take_append_drop]
  · intro hmem
    obtain ⟨j, hj, hget⟩ := List.mem_take_iff_getElem.mp hmem
    have hne := hbefore j (by omega)
    simp [hget] at hne

theorem eq_append_cons_of_strrchr {c : Char} {s : List Char} {i : Nat} (h : strrchr c s = some i) :
    ∃ a b, s = a ++ c :: b ∧ c ∉ b ∧ a.length = i := by
  obtain ⟨j, hj, hi⟩ := Option.map_eq_some_iff.mp h
  obtain ⟨a, b, hs, ha, hlen⟩ := eq_append_cons_of_strchr hj
  have hs' : s = b.reverse ++ c :: a.reverse := by
    have := congrArg List.reverse hs
    simpa using this
  refine ⟨b.reverse, a.reverse, hs', by simpa using ha, ?_⟩
  have hlength := congrArg List.length hs'
  simp only [List.length_append, List.length_cons, List.length_reverse] at hlength ⊢
  omega

/-! ## Tokens -/

/-- The tokens `strtok` returns one after another: the runs between separators, empty ones
skipped. -/
def strtok (sep : Char) (s : List Char) : List (List Char) := (s.splitOn sep).filter (!·.isEmpty)

@[simp] theorem strtok_nil (sep : Char) : strtok sep [] = [] := by simp [strtok]

theorem strtok_append_sep (sep : Char) (a b : List Char) :
    strtok sep (a ++ sep :: b) = strtok sep a ++ strtok sep b := by
  rw [strtok, List.splitOn_append_cons_self, List.filter_append]
  rfl

theorem strtok_sep (sep : Char) (s : List Char) : strtok sep (sep :: s) = strtok sep s := by
  have h := strtok_append_sep sep [] s
  rwa [List.nil_append, strtok_nil, List.nil_append] at h

theorem strtok_token {sep : Char} {t : List Char} (hne : t ≠ []) (h : sep ∉ t) : strtok sep t = [t] := by
  rw [strtok, List.splitOn_eq_singleton h]
  simp [hne]

theorem not_mem_of_mem_splitOn {sep : Char} {s t : List Char} (h : t ∈ s.splitOn sep) :
    sep ∉ t ∧ ∀ c ∈ t, c ∈ s := by
  induction s generalizing t with
  | nil =>
    rw [List.splitOn_nil, List.mem_singleton] at h
    simp [h]
  | cons x s ih =>
    rw [List.splitOn_cons_eq_if_modifyHead] at h
    split at h
    · rcases List.mem_cons.mp h with rfl | h
      · simp
      · obtain ⟨hsep, hmem⟩ := ih h
        exact ⟨hsep, fun c hc => List.mem_cons_of_mem x (hmem c hc)⟩
    · rename_i hx
      obtain ⟨u, us, hus⟩ := List.exists_cons_of_ne_nil (List.splitOn_ne_nil sep s)
      rw [hus, List.modifyHead_cons, List.mem_cons] at h
      rcases h with rfl | h
      · obtain ⟨hsep, hmem⟩ := ih (t := u) (by simp [hus])
        have hne : sep ≠ x := fun heq => hx (by simp [heq])
        exact ⟨by simp [hne, hsep], fun c hc => List.mem_cons.mpr ((List.mem_cons.mp hc).imp_right (hmem c))⟩
      · obtain ⟨hsep, hmem⟩ := ih (t := t) (by simp [hus, h])
        exact ⟨hsep, fun c hc => List.mem_cons_of_mem x (hmem c hc)⟩

theorem sep_not_mem_token {sep : Char} {s t : List Char} (h : t ∈ strtok sep s) : sep ∉ t :=
  (not_mem_of_mem_splitOn (List.mem_filter.mp h).1).1

theorem mem_of_mem_token {sep : Char} {s t : List Char} (h : t ∈ strtok sep s) {c : Char} (hc : c ∈ t) : c ∈ s :=
  (not_mem_of_mem_splitOn (List.mem_filter.mp h).1).2 c hc

/-- Tokens each written after a separator are read back as they are. -/
theorem strtok_flatMap {sep : Char} {ts : List (List Char)} (h : ∀ t ∈ ts, t ≠ [] ∧ sep ∉ t) :
    strtok sep (ts.flatMap (sep :: ·)) = ts := by
  induction ts with
  | nil => rfl
  | cons t ts ih =>
    have ht := h t List.mem_cons_self
    have hts := ih fun u hu => h u (List.mem_cons_of_mem t hu)
    rw [List.flatMap_cons, List.cons_append, strtok_sep]
    cases ts with
    | nil => simpa using strtok_token ht.1 ht.2
    | cons u us =>
      rw [List.flatMap_cons, List.cons_append, strtok_append_sep, strtok_token ht.1 ht.2]
      rw [List.flatMap_cons, List.cons_append, strtok_sep] at hts
      rw [hts, List.singleton_append]

/-! ## Numbers -/

/-- The sign and the digits a conversion takes; what follows them is not looked at. -/
def subject (s : List Char) : Bool × List Char :=
  let (neg, rest) := splitSign (s.dropWhile isspace)
  (neg, rest.takeWhile Char.isDigit)

def magnitude (s : List Char) : Nat := Nat.ofDigitChars 10 (subject s).2 0

/-- `strtoul(s, NULL, 10)` and `strtoull(s, NULL, 10)`: 0 when there are no digits. -/
def strtoul (s : List Char) : Nat :=
  if magnitude s > ullongMax then ullongMax
  else if (subject s).1 then (2 ^ 64 - magnitude s) % 2 ^ 64
  else magnitude s

/-- `LONG_MAX` and `LLONG_MAX`. -/
def longMax : Nat := 2 ^ 63 - 1

/-- `strtol(s, NULL, 10)` and `strtoll(s, NULL, 10)`. -/
def strtol (s : List Char) : Int :=
  if (subject s).1 then
    if magnitude s > longMax then -(longMax : Int) - 1 else -(magnitude s : Int)
  else if magnitude s > longMax then longMax
  else magnitude s

/-- `atoi`: `strtol`, cut to an `int`. -/
def atoi (s : List Char) : Int32 := Int32.ofInt (strtol s)

-- `%d` and `%lld`
def signed (n : Int) : List Char := if n < 0 then '-' :: decimal n.natAbs else decimal n.natAbs

theorem isDigit_of_mem_decimal {n : Nat} {c : Char} (h : c ∈ decimal n) : c.isDigit = true :=
  Nat.isDigit_of_mem_toDigits (by omega) (by omega) h

theorem length_decimal_le {n k : Nat} (hk : 0 < k) (h : n < 10 ^ k) : (decimal n).length ≤ k :=
  (Nat.length_toDigits_le_iff (by omega) hk).mpr h

theorem length_signed_le {n : Int} {k : Nat} (h0 : 0 ≤ n) (hk : 0 < k) (h : n.natAbs < 10 ^ k) :
    (signed n).length ≤ k := by
  rw [signed, if_neg (by omega)]
  exact length_decimal_le hk h

-- `%u` and `%d` of 32 bits take no more than ten digits
theorem length_decimal_uint32 (n : UInt32) : (decimal n.toNat).length ≤ 10 := by
  have hlt := n.toNat_lt
  exact length_decimal_le (by omega) (by omega)

theorem length_signed_int32 {n : Int32} (h0 : 0 ≤ n.toInt) : (signed n.toInt).length ≤ 10 := by
  have hlt := n.toInt_lt
  exact length_signed_le h0 (by omega) (by omega)

theorem subject_decimal (n : Nat) {rest : List Char} (h : ∀ c ∈ rest.head?, c.isDigit = false) :
    subject (decimal n ++ rest) = (false, decimal n) := by
  obtain ⟨d, ds, hds⟩ : ∃ d ds, decimal n = d :: ds := List.exists_cons_of_ne_nil Nat.toDigits_ne_nil
  have hd : d.isDigit = true := isDigit_of_mem_decimal (hds ▸ List.mem_cons_self)
  have hrest : rest.takeWhile Char.isDigit = [] := by
    cases rest with
    | nil => rfl
    | cons c cs => rw [List.takeWhile_cons_of_neg (by simp [h c rfl])]
  have htake : (decimal n ++ rest).takeWhile Char.isDigit = decimal n := by
    rw [List.takeWhile_append_of_pos fun c hc => isDigit_of_mem_decimal hc, hrest, List.append_nil]
  have hdrop : (decimal n ++ rest).dropWhile isspace = decimal n ++ rest := by
    rw [hds, List.cons_append, List.dropWhile_cons, not_isspace_of_isDigit hd]
    rfl
  have hsign : splitSign (decimal n ++ rest) = (false, decimal n ++ rest) := by
    rw [hds]
    exact splitSign_of_isDigit hd
  simp only [subject, hdrop, hsign, htake]

theorem strtoul_decimal {n : Nat} (hn : n ≤ ullongMax) {rest : List Char} (h : ∀ c ∈ rest.head?, c.isDigit = false) :
    strtoul (decimal n ++ rest) = n := by
  have hval : magnitude (decimal n ++ rest) = n := by
    rw [magnitude, subject_decimal n h]
    exact Nat.ofDigitChars_ten_toDigits
  rw [strtoul, hval, subject_decimal n h, if_neg (by omega), if_neg Bool.false_ne_true]

/-- A number that is the whole string. -/
theorem strtoul_decimal_eq {n : Nat} (hn : n ≤ ullongMax) : strtoul (decimal n) = n := by
  have h := @strtoul_decimal n hn [] (by simp)
  rwa [List.append_nil] at h

theorem uint32_le_ullongMax (n : UInt32) : n.toNat ≤ ullongMax := by
  have hlt := n.toNat_lt
  rw [ullongMax]
  omega

theorem uint64_le_ullongMax (n : UInt64) : n.toNat ≤ ullongMax := by
  have hlt := n.toNat_lt
  rw [ullongMax]
  omega

theorem strtol_signed {n : Int} (h0 : 0 ≤ n) (hn : n ≤ longMax) : strtol (signed n) = n := by
  have hsubject : subject (signed n) = (false, decimal n.natAbs) := by
    rw [signed, if_neg (by omega)]
    simpa using @subject_decimal n.natAbs [] (by simp)
  have hval : magnitude (signed n) = n.natAbs := by
    rw [magnitude, hsubject]
    exact Nat.ofDigitChars_ten_toDigits
  rw [strtol, hval, hsubject, if_neg Bool.false_ne_true, if_neg (by omega)]
  omega

theorem atoi_signed {n : Int32} (h0 : 0 ≤ n.toInt) : atoi (signed n.toInt) = n := by
  have hlt := n.toInt_lt
  rw [atoi, strtol_signed h0 (by rw [longMax]; omega)]
  exact Int32.ofInt_toInt n

theorem not_mem_decimal {c : Char} (hdigit : c.isDigit = false) (n : Nat) : c ∉ decimal n := fun hc => by
  simp [isDigit_of_mem_decimal hc] at hdigit

-- neither the digits nor the sign of a printed number is a separator
theorem not_mem_signed {c : Char} (hdigit : c.isDigit = false) (hminus : c ≠ '-') (n : Int) : c ∉ signed n := by
  rw [signed]
  split
  · simp [hminus, not_mem_decimal hdigit]
  · exact not_mem_decimal hdigit _

end CString
