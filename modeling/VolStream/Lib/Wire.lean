import Mathlib.Algebra.Group.Nat.Defs
import Mathlib.Data.List.Basic

/-!
# Walking bytes by offset

A C routine that parses a buffer keeps an offset and reads behind it. `Parse` is the result of such a
routine: it read outside the buffer (`fault`), refused it (`reject`), or returned a value. A reader that
checks every length before it reads never faults, and `Parse.safe_bind` composes that fact along the
routine.

A word is `w` bytes, least significant first (`putLe`, `getLe`). `read_of_drop` and `word_of_drop` say
that what was packed at an offset is what is read there; `read_take` says that cutting the buffer off
behind a read does not change it.
-/

/-- What a routine makes of the bytes it was handed. -/
inductive Parse (α : Type) where
  | fault
  | reject
  | accept (a : α)
deriving DecidableEq, Repr

namespace Parse

variable {α β : Type}

def bind (p : Parse α) (f : α → Parse β) : Parse β :=
  match p with
  | fault => fault
  | reject => reject
  | accept a => f a

def map (f : α → β) (p : Parse α) : Parse β := p.bind fun a => accept (f a)

/-- Nothing outside the buffer was read. -/
def Safe (p : Parse α) : Prop := p ≠ fault

-- refuse without a reason, or go on with the value
def ofOption : Option α → Parse α
  | none => reject
  | some a => accept a

@[simp] theorem bind_reject (f : α → Parse β) : (reject : Parse α).bind f = reject := rfl
@[simp] theorem bind_accept (a : α) (f : α → Parse β) : (accept a).bind f = f a := rfl
@[simp] theorem map_reject (f : α → β) : (reject : Parse α).map f = reject := rfl
@[simp] theorem map_accept (f : α → β) (a : α) : (accept a).map f = accept (f a) := rfl

theorem safe_reject : (reject : Parse α).Safe := nofun

theorem safe_accept (a : α) : (accept a).Safe := nofun

theorem safe_ofOption (o : Option α) : (ofOption o).Safe := by
  cases o with
  | none => exact safe_reject
  | some a => exact safe_accept a

theorem safe_bind {p : Parse α} {f : α → Parse β} (hp : p.Safe) (hf : ∀ a, p = accept a → (f a).Safe) :
    (p.bind f).Safe := by
  cases p with
  | fault => exact absurd rfl hp
  | reject => exact safe_reject
  | accept a => exact hf a rfl

/-- A loop that goes on while its rounds return a value. -/
def fold (f : α → β → Parse α) : α → List β → Parse α
  | a, [] => accept a
  | a, b :: l => (f a b).bind fun a' => fold f a' l

theorem fold_append (f : α → β → Parse α) (a : α) (l l' : List β) :
    fold f a (l ++ l') = (fold f a l).bind fun a' => fold f a' l' := by
  induction l generalizing a with
  | nil => rfl
  | cons b l ih =>
    rw [List.cons_append, fold, fold]
    cases f a b with
    | fault => rfl
    | reject => rfl
    | accept a' => exact ih a'

/-- A loop in a loop runs over the inner lists one behind the other. -/
theorem fold_flatMap {γ : Type} (f : α → β → Parse α) (g : γ → List β) (a : α) (l : List γ) :
    fold (fun a c => fold f a (g c)) a l = fold f a (l.flatMap g) := by
  induction l generalizing a with
  | nil => rfl
  | cons c l ih =>
    rw [List.flatMap_cons, fold_append, fold]
    cases fold f a (g c) with
    | fault => rfl
    | reject => rfl
    | accept a' => exact ih a'

/-- A loop that returns a value for every element. -/
def mapAll (f : α → Parse β) : List α → Parse (List β)
  | [] => accept []
  | a :: l => (f a).bind fun b => (mapAll f l).map fun bs => b :: bs

theorem mapAll_of_accept {f : α → Parse β} {g : α → β} {l : List α} (h : ∀ a ∈ l, f a = accept (g a)) :
    mapAll f l = accept (l.map g) := by
  induction l with
  | nil => rfl
  | cons a l ih =>
    rw [mapAll, h a List.mem_cons_self, bind_accept, ih fun a' ha' => h a' (List.mem_cons_of_mem a ha')]
    rfl

theorem mapAll_append (f : α → Parse β) (l l' : List α) :
    mapAll f (l ++ l') = (mapAll f l).bind fun bs => (mapAll f l').map fun bs' => bs ++ bs' := by
  induction l with
  | nil =>
    rw [List.nil_append, mapAll, bind_accept]
    cases mapAll f l' <;> rfl
  | cons a l ih =>
    rw [List.cons_append, mapAll, mapAll, ih]
    cases f a with
    | fault => rfl
    | reject => rfl
    | accept b => cases mapAll f l <;> cases mapAll f l' <;> rfl

/-- Every value comes from an element, and every element has one. -/
theorem mapAll_eq_accept {f : α → Parse β} {l : List α} {bs : List β} (h : mapAll f l = accept bs) :
    bs.length = l.length ∧ (∀ a ∈ l, ∃ b ∈ bs, f a = accept b) ∧ ∀ b ∈ bs, ∃ a ∈ l, f a = accept b := by
  induction l generalizing bs with
  | nil =>
    cases h
    exact ⟨rfl, List.forall_mem_nil _, List.forall_mem_nil _⟩
  | cons a l ih =>
    rw [mapAll] at h
    cases ha : f a with
    | fault => rw [ha] at h; cases h
    | reject => rw [ha] at h; cases h
    | accept b =>
      rw [ha, bind_accept] at h
      cases hl : mapAll f l with
      | fault => rw [hl] at h; cases h
      | reject => rw [hl] at h; cases h
      | accept bs' =>
        rw [hl] at h
        cases h
        obtain ⟨hlen, hleft, hright⟩ := ih hl
        refine ⟨congrArg (· + 1) hlen, List.forall_mem_cons.mpr ⟨⟨b, List.mem_cons_self, ha⟩, fun a' ha' => ?_⟩,
          List.forall_mem_cons.mpr ⟨⟨a, List.mem_cons_self, ha⟩, fun b' hb' => ?_⟩⟩
        · obtain ⟨b', hb', hval⟩ := hleft a' ha'
          exact ⟨b', List.mem_cons_of_mem b hb', hval⟩
        · obtain ⟨a', ha', hval⟩ := hright b' hb'
          exact ⟨a', List.mem_cons_of_mem a ha', hval⟩

/-- Every round of a loop that ends returned a value. -/
theorem fold_eq_accept {f : α → β → Parse α} {a a' : α} {l : List β} (h : fold f a l = accept a') {b : β}
    (hb : b ∈ l) : ∃ s s', f s b = accept s' := by
  induction l generalizing a with
  | nil => cases hb
  | cons c l ih =>
    rw [fold] at h
    cases hc : f a c with
    | fault => rw [hc] at h; cases h
    | reject => rw [hc] at h; cases h
    | accept a₁ =>
      rw [hc, bind_accept] at h
      rcases List.mem_cons.mp hb with rfl | hb
      · exact ⟨a, a₁, hc⟩
      · exact ih h hb

theorem bind_eq_accept {p : Parse α} {f : α → Parse β} {b : β} (h : p.bind f = accept b) :
    ∃ a, p = accept a ∧ f a = accept b := by
  cases p with
  | fault => cases h
  | reject => cases h
  | accept a => exact ⟨a, rfl, h⟩

end Parse

namespace Wire

/-! ## Words -/

/-- The low `w` bytes of a number, least significant first. -/
def putLe : Nat → Nat → List UInt8
  | 0, _ => []
  | w + 1, v => UInt8.ofNat v :: putLe w (v / 256)

def getLe : List UInt8 → Nat
  | [] => 0
  | b :: bs => b.toNat + 256 * getLe bs

@[simp] theorem length_putLe (w v : Nat) : (putLe w v).length = w := by
  induction w generalizing v with
  | zero => rfl
  | succ w ih => rw [putLe, List.length_cons, ih]

theorem getLe_putLe {w v : Nat} (h : v < 256 ^ w) : getLe (putLe w v) = v := by
  induction w generalizing v with
  | zero =>
    have hv : v = 0 := by simpa using h
    rw [hv]
    rfl
  | succ w ih =>
    have hdiv : v / 256 < 256 ^ w := by
      rw [Nat.div_lt_iff_lt_mul (by omega)]
      rwa [Nat.pow_succ] at h
    rw [putLe, getLe, ih hdiv, UInt8.toNat_ofNat']
    omega

/-! ## Reads at an offset -/

/-- The `n` bytes at an offset. -/
def read (buf : List UInt8) (off n : Nat) : Parse (List UInt8) :=
  if off + n ≤ buf.length then .accept ((buf.drop off).take n) else .fault

/-- The word of `w` bytes at an offset. -/
def word (buf : List UInt8) (off w : Nat) : Parse Nat := (read buf off w).map getLe

/-- The bytes behind an offset, a subtraction of unsigned sizes: an offset past the end would wrap, which
counts as a fault. -/
def remaining (buf : List UInt8) (off : Nat) : Parse Nat :=
  if off ≤ buf.length then .accept (buf.length - off) else .fault

theorem remaining_of_le {buf : List UInt8} {off : Nat} (h : off ≤ buf.length) :
    remaining buf off = .accept (buf.length - off) := if_pos h

theorem read_of_le {buf : List UInt8} {off n : Nat} (h : off + n ≤ buf.length) :
    read buf off n = .accept ((buf.drop off).take n) := if_pos h

theorem word_of_le {buf : List UInt8} {off w : Nat} (h : off + w ≤ buf.length) :
    word buf off w = .accept (getLe ((buf.drop off).take w)) := by
  rw [word, read_of_le h, Parse.map_accept]

theorem drop_of_drop {buf data back : List UInt8} {off : Nat} (h : buf.drop off = data ++ back) :
    buf.drop (off + data.length) = back := by
  rw [← List.drop_drop, h, List.drop_left]

theorem le_of_drop {buf data back : List UInt8} {off : Nat} (hoff : off ≤ buf.length)
    (h : buf.drop off = data ++ back) : off + data.length ≤ buf.length := by
  have hlen := congrArg List.length h
  rw [List.length_drop, List.length_append] at hlen
  omega

/-- What stands at an offset is what is read there. -/
theorem read_of_drop {buf data back : List UInt8} {off : Nat} (hoff : off ≤ buf.length)
    (h : buf.drop off = data ++ back) : read buf off data.length = .accept data := by
  rw [read_of_le (le_of_drop hoff h), h, List.take_left]

theorem word_of_drop {buf back : List UInt8} {off w v : Nat} (hoff : off ≤ buf.length) (hv : v < 256 ^ w)
    (h : buf.drop off = putLe w v ++ back) : word buf off w = .accept v := by
  have hread := read_of_drop hoff h
  rw [length_putLe] at hread
  rw [word, hread, Parse.map_accept, getLe_putLe hv]

/-- A read in front of the cut sees the same bytes. -/
theorem read_take {buf : List UInt8} {off n k : Nat} (h : off + n ≤ k) (hk : k ≤ buf.length) :
    read (buf.take k) off n = read buf off n := by
  rw [read_of_le (by rw [List.length_take]; omega), read_of_le (by omega), List.drop_take, List.take_take,
    Nat.min_eq_left (by omega)]

/-- A read that succeeds in what was cut off lies in front of the cut. -/
theorem read_of_take {buf data : List UInt8} {off n k : Nat} (hk : k ≤ buf.length)
    (h : read (buf.take k) off n = .accept data) : off + n ≤ k ∧ read buf off n = .accept data := by
  have hle : off + n ≤ k := by
    unfold read at h
    split at h
    · rename_i hin
      rw [List.length_take] at hin
      omega
    · cases h
  rw [read_take hle hk] at h
  exact ⟨hle, h⟩

theorem word_take {buf : List UInt8} {off w k : Nat} (h : off + w ≤ k) (hk : k ≤ buf.length) :
    word (buf.take k) off w = word buf off w := by
  rw [word, read_take h hk, word]

end Wire
