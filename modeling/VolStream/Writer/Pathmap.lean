import VolStream.Lib.Probing

/-!
# The path map

The writer finds a path's place in its index, in the type caches and in the schema through one hash table: keys
are copied strings, values indices into an array, collisions are resolved by linear probing. The capacity is a
power of two, so that a mask takes the place of a remainder, and doubles before the load reaches 70%.

`Pathmap.run` makes any sequence of `set` calls, with any outcome of their allocations. Whatever the strings and
however they collide, every probe ends, and `find` returns the index of the last call for its key that succeeded.
-/

namespace VolStream

open Probing LastWins

/-- What a C string shows: the bytes in front of its NUL. -/
structure CStr where
  bytes : List UInt8
  ended : 0 ∉ bytes
deriving DecidableEq

/-- `H5VL__stream_pathmap_hash`: FNV-1a. -/
def pathmapHash (s : CStr) : UInt64 :=
  s.bytes.foldl (fun h c => (h ^^^ c.toUInt64) * 1099511628211) 1469598103934665603

/-- `H5VL_stream_pathmap_t`; a slot holds `keys[i]` and `vals[i]`, and no value is read where the key is NULL. -/
structure Pathmap where
  slots : Cells CStr Nat
  n : Nat
deriving DecidableEq

namespace Pathmap

def empty : Pathmap := ⟨[], 0⟩

def cap (m : Pathmap) : Nat := m.slots.length

/-- The loop of `H5VL__stream_pathmap_slot`. -/
def slotFrom (m : Pathmap) (key : CStr) : Nat → Nat → Option Nat
  | 0, _ => none
  | fuel + 1, i =>
    match cell m.slots i with
    | none => some i
    | some e => if e.1 = key then some i else m.slotFrom key fuel ((i + 1) &&& (m.cap - 1))

/-- `H5VL__stream_pathmap_slot`; `none` if the loop comes back to where it began. -/
def slot (m : Pathmap) (key : CStr) : Option Nat :=
  m.slotFrom key m.cap ((pathmapHash key).toNat &&& (m.cap - 1))

/-- What the allocator answers to one call of `set`. -/
structure Allocs where
  keys : Bool
  vals : Bool
  dup : Bool
deriving DecidableEq

def Allocs.granted (a : Allocs) : Bool := a.keys && a.vals && a.dup

-- `calloc` refuses a size that does not fit a `size_t`
def callocOk (count size : Nat) (granted : Bool) : Bool := granted && count * size < 2 ^ 64

/-- The rehashing loop of `H5VL__stream_pathmap_grow`. -/
def rehash (bigger : Pathmap) : Cells CStr Nat → Option Pathmap
  | [] => some bigger
  | none :: slots => bigger.rehash slots
  | some e :: slots =>
    match bigger.slot e.1 with
    | none => none
    | some j => rehash ⟨put bigger.slots j e.1 e.2, bigger.n + 1⟩ slots

/-- `H5VL__stream_pathmap_grow`. -/
def grow (m : Pathmap) (a : Allocs) : Option (Bool × Pathmap) :=
  let cap := if m.cap = 0 then 16 else m.cap * 2 % 2 ^ 64
  if callocOk cap 8 a.keys && callocOk cap 8 a.vals then
    (rehash ⟨List.replicate cap none, 0⟩ m.slots).map fun bigger => (true, bigger)
  else some (false, m)

/-- `H5VL__stream_pathmap_find`; the outer `none` is a probe without an end. -/
def find (m : Pathmap) (key : CStr) : Option (Option Nat) :=
  if m.cap = 0 then some none
  else
    match m.slot key with
    | none => none
    | some i => some ((cell m.slots i).map (·.2))

-- keep load under 70%
def crowded (m : Pathmap) : Bool := m.cap = 0 ∨ m.cap * 7 % 2 ^ 64 ≤ (m.n + 1) % 2 ^ 64 * 10 % 2 ^ 64

/-- `H5VL__stream_pathmap_set` behind the growth. -/
def place (m : Pathmap) (key : CStr) (index : Nat) (a : Allocs) : Option (Bool × Pathmap) :=
  match m.slot key with
  | none => none
  | some i =>
    match cell m.slots i with
    | none => some (if a.dup then (true, ⟨put m.slots i key index, m.n + 1⟩) else (false, m))
    | some e => some (true, ⟨put m.slots i e.1 index, m.n⟩)

/-- `H5VL__stream_pathmap_set`: whether it returned 0, and the map it left. -/
def set (m : Pathmap) (key : CStr) (index : Nat) (a : Allocs) : Option (Bool × Pathmap) :=
  if m.crowded then
    match m.grow a with
    | none => none
    | some (false, m') => some (false, m')
    | some (true, m') => m'.place key index a
  else m.place key index a

/-- One call of `set`. -/
structure SetCall where
  key : CStr
  index : Nat
  allocs : Allocs

/-- The calls one after another: what they returned, and the map. -/
def run (m : Pathmap) : List SetCall → Option (List Bool × Pathmap)
  | [] => some ([], m)
  | c :: calls =>
    match m.set c.key c.index c.allocs with
    | none => none
    | some (ret, m') => (run m' calls).map fun r => (ret :: r.1, r.2)

/-- The assignments of the calls that returned 0. -/
def succeeded (calls : List SetCall) (rets : List Bool) : List (CStr × Nat) :=
  ((calls.zip rets).filter (·.2)).map fun p => (p.1.key, p.1.index)

/-! ## The map as a table with linear probing -/

-- the hash as the library sees it
def hashNat (s : CStr) : Nat := (pathmapHash s).toNat

/-- What every map the calls leave behind satisfies. -/
structure Ok (m : Pathmap) : Prop where
  cap : m.cap = 0 ∨ ∃ p ≤ 60, m.cap = 2 ^ p
  placed : Placed hashNat m.slots
  used : used m.slots ≤ m.n
  load : if m.cap = 0 then m.n = 0 else m.n * 10 < m.cap * 7

theorem Ok.empty : Ok empty where
  cap := .inl rfl
  placed := by
    intro i e he
    cases he
  used := Nat.le_refl 0
  load := rfl

section probes

variable {m : Pathmap} {p : Nat} (hcap : m.cap = 2 ^ p)

include hcap

theorem and_mask (x : Nat) : x &&& (m.cap - 1) = x % m.slots.length := by
  have hlen : m.slots.length = 2 ^ p := hcap
  rw [hcap, hlen, Nat.and_two_pow_sub_one_eq_mod]

/-- The masked probe is the probe around the end. -/
theorem slotFrom_eq (key : CStr) (fuel i : Nat) : m.slotFrom key fuel i = probe m.slots key fuel i := by
  induction fuel generalizing i with
  | zero => rfl
  | succ fuel ih =>
    rw [slotFrom, probe, passes]
    cases hc : cell m.slots i with
    | none => rfl
    | some e =>
      by_cases he : e.1 = key
      · simp [he]
      · simp [he, ih, and_mask hcap]

theorem slot_eq (key : CStr) : m.slot key = Probing.slot hashNat m.slots key := by
  rw [slot, slotFrom_eq hcap, and_mask hcap]
  rfl

theorem find_eq (key : CStr) : m.find key = lookup hashNat m.slots key := by
  have hpos : m.cap ≠ 0 := by
    rw [hcap]
    exact Nat.ne_of_gt (Nat.two_pow_pos p)
  rw [find, if_neg hpos, slot_eq hcap, lookup]
  cases Probing.slot hashNat m.slots key <;> rfl

end probes

theorem rehash_eq {bigger : Pathmap} {p : Nat} (hcap : bigger.cap = 2 ^ p) (slots : Cells CStr Nat) :
    bigger.rehash slots =
      (insertAll hashNat bigger.slots (entries slots)).map fun t => ⟨t, bigger.n + (entries slots).length⟩ := by
  induction slots generalizing bigger with
  | nil => rfl
  | cons c slots ih =>
    cases c with
    | none => exact ih hcap
    | some e =>
      have hentries : entries (some e :: slots) = e :: entries slots := List.reduceOption_cons_of_some e slots
      rw [rehash, slot_eq hcap, hentries, insertAll, Probing.insert]
      cases Probing.slot hashNat bigger.slots e.1 with
      | none => rfl
      | some j =>
        have hput : (Pathmap.mk (put bigger.slots j e.1 e.2) (bigger.n + 1)).cap = 2 ^ p := by
          rw [← hcap]
          exact length_put ..
        simp only [ih hput, Option.map_some, Option.bind_some, List.length_cons]
        congr 1
        funext t
        rw [Nat.add_assoc, Nat.add_comm 1]

/-! ## What the calls keep -/

theorem Ok.cap_pow {m : Pathmap} (h : m.Ok) (hm : m.cap ≠ 0) : ∃ p ≤ 60, m.cap = 2 ^ p :=
  h.cap.resolve_left hm

theorem Ok.used_lt {m : Pathmap} (h : m.Ok) (hm : m.cap ≠ 0) : Probing.used m.slots < m.slots.length := by
  have hload := h.load
  rw [if_neg hm] at hload
  have := h.used
  have hcap : m.slots.length = m.cap := rfl
  omega

/-- A map with slots has an empty one. -/
theorem Ok.room {m : Pathmap} (h : m.Ok) (hm : m.cap ≠ 0) : Room m.slots := room_of_used (h.used_lt hm)

/-- The probe ends for every key. -/
theorem Ok.slot_isSome {m : Pathmap} (h : m.Ok) (hm : m.cap ≠ 0) (key : CStr) : ∃ i < m.cap, m.slot key = some i := by
  obtain ⟨p, -, hp⟩ := h.cap_pow hm
  rw [slot_eq hp]
  exact (h.room hm).slot_isSome hashNat key

/-- `find` reads the entries. -/
theorem Ok.find_entries {m : Pathmap} (h : m.Ok) (key : CStr) :
    m.find key = some (lookupLast (entries m.slots) key) := by
  by_cases hm : m.cap = 0
  · have hnil : m.slots = [] := List.length_eq_zero_iff.mp hm
    rw [find, if_pos hm, hnil]
    rfl
  · obtain ⟨p, -, hp⟩ := h.cap_pow hm
    rw [find_eq hp, lookup_entries h.placed (h.room hm)]

/-- The load test does not wrap. -/
theorem Ok.not_crowded {m : Pathmap} (h : m.Ok) : m.crowded = false ↔ m.cap ≠ 0 ∧ (m.n + 1) * 10 < m.cap * 7 := by
  by_cases hm : m.cap = 0
  · simp [crowded, hm]
  · obtain ⟨p, hp, hcap⟩ := h.cap_pow hm
    have hle : 2 ^ p ≤ 2 ^ 60 := Nat.pow_le_pow_right (by decide) hp
    have hload := h.load
    rw [if_neg hm] at hload
    have h1 : m.cap * 7 % 2 ^ 64 = m.cap * 7 := Nat.mod_eq_of_lt (by omega)
    have h2 : (m.n + 1) % 2 ^ 64 = m.n + 1 := Nat.mod_eq_of_lt (by omega)
    have h3 : (m.n + 1) * 10 % 2 ^ 64 = (m.n + 1) * 10 := Nat.mod_eq_of_lt (by omega)
    rw [crowded, h1, h2, h3, decide_eq_false_iff_not, not_or, Nat.not_le]

/-- The capacity growth asks for: a power of two, twice what there is, and never wrapped. -/
theorem Ok.grown_cap {m : Pathmap} (h : m.Ok) :
    ∃ p, (if m.cap = 0 then 16 else m.cap * 2 % 2 ^ 64) = 2 ^ p ∧ m.cap * 2 ≤ 2 ^ p ∧ (m.n + 1) * 10 < 2 ^ p * 7 := by
  have hload := h.load
  by_cases hm : m.cap = 0
  · rw [if_pos hm] at hload ⊢
    exact ⟨4, rfl, by omega, by omega⟩
  · obtain ⟨p, hp, hcap⟩ := h.cap_pow hm
    have hle : 2 ^ p ≤ 2 ^ 60 := Nat.pow_le_pow_right (by decide) hp
    have hsucc : 2 ^ (p + 1) = 2 ^ p * 2 := Nat.pow_succ 2 p
    rw [if_neg hm] at hload ⊢
    refine ⟨p + 1, ?_, ?_, ?_⟩
    · rw [Nat.mod_eq_of_lt (by omega), hcap, hsucc]
    · omega
    · have hpos := Nat.two_pow_pos p
      have hfew : m.n = 0 ∨ 2 ≤ 2 ^ p := by omega
      omega

/-- Growth fails and changes nothing, or makes room for one more key and shows the same. -/
theorem Ok.grow {m : Pathmap} (h : m.Ok) (a : Allocs) :
    (m.grow a = some (false, m) ∧ (a.granted = true → 2 ^ 60 ≤ m.cap)) ∨
      ∃ m', m.grow a = some (true, m') ∧ m'.Ok ∧ m'.crowded = false ∧ m'.n ≤ m.n ∧ ∀ k, m'.find k = m.find k := by
  obtain ⟨p, hp, hdouble, hload⟩ := h.grown_cap
  rw [Pathmap.grow, hp]
  by_cases hok : (callocOk (2 ^ p) 8 a.keys && callocOk (2 ^ p) 8 a.vals) = true
  · right
    have hp60 : p ≤ 60 := by
      have hsize : 2 ^ p * 8 < 2 ^ 64 := by
        simp only [callocOk, Bool.and_eq_true, decide_eq_true_eq] at hok
        exact hok.1.2
      by_contra hbig
      have : 2 ^ 61 ≤ 2 ^ p := Nat.pow_le_pow_right (by decide) (by omega)
      omega
    have hused : Probing.used m.slots < 2 ^ p := by
      have := h.used
      omega
    obtain ⟨t, hins, hlen, hplaced, hu, hlook⟩ := rehash_spec hashNat m.slots hused
    have hcap : (Pathmap.mk t (Probing.used m.slots)).cap = 2 ^ p := hlen
    have hpos : (Pathmap.mk t (Probing.used m.slots)).cap ≠ 0 := by
      rw [hcap]
      exact Nat.ne_of_gt (Nat.two_pow_pos p)
    have hroom : (Probing.used m.slots + 1) * 10 < 2 ^ p * 7 := by
      have := h.used
      omega
    have hok' : (Pathmap.mk t (Probing.used m.slots)).Ok := by
      refine ⟨.inr ⟨p, hp60, hcap⟩, hplaced, hu, ?_⟩
      rw [if_neg hpos, hcap]
      show Probing.used m.slots * 10 < 2 ^ p * 7
      omega
    refine ⟨⟨t, Probing.used m.slots⟩, ?_, hok', ?_, h.used, fun k => ?_⟩
    · rw [if_pos hok, rehash_eq (p := p) (by exact List.length_replicate), hins, length_entries, Option.map_some,
        Option.map_some, Nat.zero_add]
    · rw [hok'.not_crowded]
      exact ⟨hpos, by rw [hcap]; exact hroom⟩
    · rw [find_eq hcap, hlook, h.find_entries]
  · left
    rw [if_neg hok]
    refine ⟨rfl, fun hgranted => ?_⟩
    simp only [Allocs.granted, Bool.and_eq_true] at hgranted
    simp only [callocOk, hgranted, Bool.true_and, Bool.and_self, decide_eq_true_eq, Nat.not_lt] at hok
    by_cases hm : m.cap = 0
    · rw [if_pos hm] at hp
      omega
    · rw [if_neg hm] at hp
      have := Nat.mod_le (m.cap * 2) (2 ^ 64)
      omega

/-- A map with room for one more key takes it, unless the copy of a new key cannot be made. -/
theorem Ok.place {m : Pathmap} (h : m.Ok) (hroom : m.crowded = false) (key : CStr) (index : Nat) (a : Allocs) :
    ∃ ret m', m.place key index a = some (ret, m') ∧ m'.Ok ∧ m'.n ≤ m.n + 1 ∧
      (∀ k, m'.find k = if ret = true ∧ k = key then some (some index) else m.find k) ∧ (a.dup = true → ret = true) := by
  obtain ⟨hm, hload⟩ := h.not_crowded.mp hroom
  obtain ⟨p, hp, hcap⟩ := h.cap_pow hm
  obtain ⟨i, hi, hslot⟩ := h.slot_isSome hm key
  have hslot' : Probing.slot hashNat m.slots key = some i := by rw [← slot_eq hcap, hslot]
  have hplaced := h.placed.put hi hslot' index
  have hused := used_put hi key index
  have hcap' : ∀ n, (Pathmap.mk (put m.slots i key index) n).cap = m.cap := fun n => length_put ..
  have hkeep := h.used
  -- either way the cell shows the key and its index afterwards
  have hdone : ∀ n, n ≤ m.n + 1 → Probing.used (put m.slots i key index) ≤ n →
      (Pathmap.mk (put m.slots i key index) n).Ok ∧
        ∀ k, (Pathmap.mk (put m.slots i key index) n).find k = if k = key then some (some index) else m.find k := by
    intro n hn hu
    have hok' : (Pathmap.mk (put m.slots i key index) n).Ok := by
      refine ⟨.inr ⟨p, hp, by rw [hcap', hcap]⟩, hplaced, hu, ?_⟩
      rw [if_neg (by rw [hcap']; exact hm), hcap']
      show n * 10 < m.cap * 7
      omega
    refine ⟨hok', fun k => ?_⟩
    rw [find_eq ((hcap' n).trans hcap), lookup_put h.placed (h.room hm) hi hslot' index (hok'.room (by rw [hcap']; exact hm)),
      find_eq hcap]
  rw [Pathmap.place]
  simp only [hslot]
  cases hc : cell m.slots i with
  | none =>
    rw [if_pos hc] at hused
    cases ha : a.dup with
    | true =>
      obtain ⟨hok', hfind⟩ := hdone (m.n + 1) (Nat.le_refl _) (by omega)
      exact ⟨true, _, rfl, hok', Nat.le_refl _, fun k => by simp [hfind], fun _ => rfl⟩
    | false => exact ⟨false, m, rfl, h, Nat.le_succ _, fun k => by simp, nofun⟩
  | some e =>
    have he : e.1 = key := slot_cell hashNat hslot' hc
    rw [if_neg (by rw [hc]; nofun)] at hused
    obtain ⟨hok', hfind⟩ := hdone m.n (by omega) (by omega)
    exact ⟨true, _, by rw [← he], hok', Nat.le_succ _, fun k => by simp [hfind], fun _ => rfl⟩

/-- One call of `set`: it ends, keeps the map in order, and either returned 0 and set its key, or changed nothing
that shows. -/
theorem Ok.set {m : Pathmap} (h : m.Ok) (key : CStr) (index : Nat) (a : Allocs) :
    ∃ ret m', m.set key index a = some (ret, m') ∧ m'.Ok ∧ m'.n ≤ m.n + 1 ∧
      (∀ k, m'.find k = if ret = true ∧ k = key then some (some index) else m.find k) ∧
      (a.granted = true → m.n < 2 ^ 58 → ret = true) := by
  rw [Pathmap.set]
  have hdup : a.granted = true → a.dup = true := by
    intro hgranted
    simp only [Allocs.granted, Bool.and_eq_true] at hgranted
    exact hgranted.2
  cases hc : m.crowded with
  | false =>
    obtain ⟨ret, m', hplace, hok, hn, hfind, hret⟩ := h.place hc key index a
    exact ⟨ret, m', by simp [hplace], hok, hn, hfind, fun hg _ => hret (hdup hg)⟩
  | true =>
    cases h.grow a with
    | inl hfail =>
      refine ⟨false, m, by simp [hfail.1], h, Nat.le_succ _, fun k => by simp, fun hg hn => ?_⟩
      -- a map that large holds more keys than that
      have hcap := hfail.2 hg
      have hcalm : m.crowded = false := h.not_crowded.mpr ⟨by omega, by omega⟩
      rw [hc] at hcalm
      cases hcalm
    | inr hgrow =>
      obtain ⟨m₁, hgrow, hok₁, hroom, hn₁, hsame⟩ := hgrow
      obtain ⟨ret, m', hplace, hok, hn, hfind, hret⟩ := hok₁.place hroom key index a
      exact ⟨ret, m', by simp [hgrow, hplace], hok, by omega, fun k => by rw [hfind, hsame], fun hg _ => hret (hdup hg)⟩

/-- Any sequence of calls. -/
theorem Ok.run {m : Pathmap} (h : m.Ok) (calls : List SetCall) :
    ∃ rets m', m.run calls = some (rets, m') ∧ rets.length = calls.length ∧ m'.Ok ∧
      (∀ k, m'.find k = (m.find k).map fun r => (lookupLast (succeeded calls rets) k).or r) ∧
      ((∀ c ∈ calls, c.allocs.granted = true) → m.n + calls.length ≤ 2 ^ 58 → ∀ ret ∈ rets, ret = true) := by
  induction calls generalizing m with
  | nil => exact ⟨[], m, rfl, rfl, h, fun k => by rw [h.find_entries]; rfl, fun _ _ _ hret => nomatch hret⟩
  | cons c calls ih =>
    obtain ⟨ret, m₁, hset, hok₁, hn₁, hfind₁, hret₁⟩ := h.set c.key c.index c.allocs
    obtain ⟨rets, m', hrun, hlen, hok, hfind, hrets⟩ := ih hok₁
    refine ⟨ret :: rets, m', by simp [Pathmap.run, hset, hrun], by simp [hlen], hok, fun k => ?_, fun hall hn => ?_⟩
    · have hcons : succeeded (c :: calls) (ret :: rets) =
          (if ret then [(c.key, c.index)] else []) ++ succeeded calls rets := by
        cases ret <;> simp [succeeded]
      rw [hfind, hfind₁, h.find_entries, hcons, lookupLast_append]
      cases ret with
      | false => simp
      | true =>
        by_cases hk : k = c.key
        · simp [hk, lookupLast]
        · simp [hk, Ne.symm hk, lookupLast]
    · rw [List.length_cons] at hn
      intro r hr
      cases hr with
      | head => exact hret₁ (hall c List.mem_cons_self) (by omega)
      | tail _ hr => exact hrets (fun c' hc' => hall c' (List.mem_cons_of_mem _ hc')) (by omega) r hr

/-- The map refines a finite map. The calls all end; a key is found if and only if a call that returned 0 set it,
and then with the index of the last such call; and a map with slots has a power of two of them and an empty one
among them, at which the probe for any key, present or absent, ends at the latest. Only the map no call has
succeeded on has no slots, and calls whose allocations are granted succeed. -/
theorem pathmap_refines (calls : List SetCall) :
    ∃ rets m, Pathmap.empty.run calls = some (rets, m) ∧ rets.length = calls.length ∧
      (∀ k, m.find k = some (lookupLast (succeeded calls rets) k)) ∧
      (m.cap = 0 → succeeded calls rets = []) ∧
      (m.cap ≠ 0 → (∃ p, m.cap = 2 ^ p) ∧ (∃ i < m.cap, cell m.slots i = none) ∧
        ∀ k, ∃ i < m.cap, m.slot k = some i) ∧
      ((∀ c ∈ calls, c.allocs.granted = true) → calls.length ≤ 2 ^ 58 → ∀ ret ∈ rets, ret = true) := by
  obtain ⟨rets, m, hrun, hlen, hok, hfind, hrets⟩ := Ok.empty.run calls
  have hfound : ∀ k, m.find k = some (lookupLast (succeeded calls rets) k) := by
    intro k
    rw [hfind, Ok.empty.find_entries]
    exact congrArg some Option.or_none
  refine ⟨rets, m, hrun, hlen, hfound, fun hcap => ?_, fun hcap => ?_, fun hall hn => hrets hall ?_⟩
  · cases hs : succeeded calls rets with
    | nil => rfl
    | cons e l =>
      have hnone := hfound e.1
      rw [find, if_pos hcap, Option.some.injEq] at hnone
      exact absurd rfl (lookupLast_eq_none.mp hnone.symm e (by rw [hs]; exact List.mem_cons_self))
  · obtain ⟨p, -, hp⟩ := hok.cap_pow hcap
    exact ⟨⟨p, hp⟩, hok.room hcap, hok.slot_isSome hcap⟩
  · have hzero : Pathmap.empty.n = 0 := rfl
    omega

end Pathmap

end VolStream
