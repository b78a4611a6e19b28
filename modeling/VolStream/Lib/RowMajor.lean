import Mathlib.Data.List.Sort
import Mathlib.Data.List.Range
import Mathlib.Algebra.BigOperators.Group.List.Basic
import Mathlib.Tactic.Linarith
import Mathlib.Tactic.Ring

/-!
# Row-major boxes: flat indices, coordinates, and the odometer

An `n`-dimensional array of extent `dims` is stored row by row: the last coordinate varies
fastest, and the flat index of a coordinate vector is its dot product with the row-major
`strides`. This file is the arithmetic of *boxes* (inclusive corners) in that layout:

* `unflat` is the inverse of the flat index, so "the elements of a box" can be read off the
  flat range of the whole array (`mem_boxFlat`);
* `boxFlat` lists the flat indices of a box in row-major order, which is the ascending order
  (`boxFlat_pairwise`), from the index of one corner to the index of the other;
* `odometer` advances a coordinate vector to the start of the next row of a box, the way a
  C loop does with a carry, and `iterRows_eq_rows` says that the walk it drives visits the
  rows of the box once each, in order.
-/

namespace RowMajor

/-! ## Flat indices -/

/-- Row-major strides: the stride of a dimension is the element count of the dimensions after it. -/
def strides : List Nat → List Nat
  | [] => []
  | _ :: ds => ds.prod :: strides ds

/-- The flat index of the coordinates `cs` under the strides `ss`. -/
def flat (ss cs : List Nat) : Nat := (List.zipWith (fun c s => c * s) cs ss).sum

/-- The coordinates of the element at flat index `k`. -/
def unflat : List Nat → Nat → List Nat
  | [], _ => []
  | _ :: ds, k => k / ds.prod :: unflat ds (k % ds.prod)

@[simp] theorem flat_cons (s c : Nat) (ss cs : List Nat) :
    flat (s :: ss) (c :: cs) = c * s + flat ss cs := by
  simp [flat]

/-! ## Boxes -/

/-- `cs` lies in the box with inclusive corners `bs` and `es`. -/
def inBox : List Nat → List Nat → List Nat → Bool
  | [], [], [] => true
  | b :: bs, e :: es, c :: cs => decide (b ≤ c ∧ c ≤ e) && inBox bs es cs
  | _, _, _ => false

/-- The box with inclusive corners `bs` and `es` is non-empty and lies inside the extent. -/
inductive BoxIn : List Nat → List Nat → List Nat → Prop where
  | nil : BoxIn [] [] []
  | cons {d b e : Nat} {ds bs es : List Nat} (hbe : b ≤ e) (hed : e < d) (hbox : BoxIn ds bs es) :
      BoxIn (d :: ds) (b :: bs) (e :: es)

/-- The flat indices of a box in row-major order. -/
def boxFlat : List Nat → List Nat → List Nat → List Nat
  | [], [], [] => [0]
  | _ :: ds, b :: bs, e :: es =>
      (List.range' b (e + 1 - b)).flatMap fun x => (boxFlat ds bs es).map (x * ds.prod + ·)
  | _, _, _ => []

@[simp] theorem boxIn_cons {d b e : Nat} {ds bs es : List Nat} :
    BoxIn (d :: ds) (b :: bs) (e :: es) ↔ b ≤ e ∧ e < d ∧ BoxIn ds bs es :=
  ⟨fun | .cons hbe hed hbox => ⟨hbe, hed, hbox⟩, fun ⟨hbe, hed, hbox⟩ => .cons hbe hed hbox⟩

instance instDecidableBoxIn : (ds bs es : List Nat) → Decidable (BoxIn ds bs es)
  | [], [], [] => isTrue .nil
  | _ :: ds, _ :: bs, _ :: es =>
      have := instDecidableBoxIn ds bs es
      decidable_of_iff _ boxIn_cons.symm
  | [], [], _ :: _ => isFalse (by nofun)
  | [], _ :: _, _ => isFalse (by nofun)
  | _ :: _, [], _ => isFalse (by nofun)
  | _ :: _, _ :: _, [] => isFalse (by nofun)

/-- An extent that holds a box has elements. -/
theorem BoxIn.prod_pos {ds bs es : List Nat} (h : BoxIn ds bs es) : 0 < ds.prod := by
  induction h with
  | nil => simp
  | @cons d b e ds bs es hbe hed hbox ih =>
    rw [List.prod_cons]
    exact Nat.mul_pos (by omega) ih

/-- Every flat index of a box is an index of the array. -/
theorem lt_prod_of_mem_boxFlat {ds bs es : List Nat} (h : BoxIn ds bs es) :
    ∀ k ∈ boxFlat ds bs es, k < ds.prod := by
  induction h with
  | nil => simp [boxFlat]
  | @cons d b e ds bs es hbe hed hbox ih =>
    intro k hk
    simp only [boxFlat, List.mem_flatMap, List.mem_range'_1, List.mem_map] at hk
    obtain ⟨x, ⟨_, hx⟩, k', hk', rfl⟩ := hk
    have hlt := ih k' hk'
    -- row `x` ends before row `x + 1` starts, and `x + 1 ≤ d`
    have hrow : (x + 1) * ds.prod ≤ d * ds.prod := Nat.mul_le_mul_right _ (by omega)
    rw [List.prod_cons]
    calc x * ds.prod + k' < x * ds.prod + ds.prod := by omega
      _ = (x + 1) * ds.prod := by ring
      _ ≤ d * ds.prod := hrow

/-- `boxFlat` is exactly the part of the flat range whose coordinates lie in the box. -/
theorem mem_boxFlat {ds bs es : List Nat} (h : BoxIn ds bs es) (k : Nat) :
    k ∈ boxFlat ds bs es ↔ k < ds.prod ∧ inBox bs es (unflat ds k) = true := by
  induction h generalizing k with
  | nil => simp [boxFlat, inBox, unflat]
  | @cons d b e ds bs es hbe hed hbox ih =>
    have hpos := hbox.prod_pos
    simp only [boxFlat, List.mem_flatMap, List.mem_range'_1, List.mem_map, unflat, inBox,
      Bool.and_eq_true, decide_eq_true_eq]
    constructor
    · rintro ⟨x, ⟨hbx, hx⟩, k', hk', rfl⟩
      have hlt := lt_prod_of_mem_boxFlat hbox k' hk'
      have hdiv : (x * ds.prod + k') / ds.prod = x := by
        rw [Nat.mul_comm, Nat.mul_add_div hpos, Nat.div_eq_of_lt hlt, Nat.add_zero]
      have hmod : (x * ds.prod + k') % ds.prod = k' := by
        rw [Nat.mul_comm, Nat.mul_add_mod, Nat.mod_eq_of_lt hlt]
      refine ⟨?_, ?_⟩
      · have hrow : (x + 1) * ds.prod ≤ d * ds.prod := Nat.mul_le_mul_right _ (by omega)
        rw [List.prod_cons]
        linarith [Nat.add_mul x 1 ds.prod]
      · rw [hdiv, hmod]
        exact ⟨⟨hbx, by omega⟩, ((ih k').mp hk').2⟩
    · rintro ⟨_, ⟨hbx, hxe⟩, hin⟩
      refine ⟨k / ds.prod, ⟨hbx, by omega⟩, k % ds.prod, ?_, ?_⟩
      · exact (ih _).mpr ⟨Nat.mod_lt _ hpos, hin⟩
      · rw [Nat.mul_comm]
        exact Nat.div_add_mod k ds.prod

/-- Row-major order is ascending flat order. -/
theorem boxFlat_pairwise {ds bs es : List Nat} (h : BoxIn ds bs es) :
    (boxFlat ds bs es).Pairwise (· < ·) := by
  induction h with
  | nil => simp [boxFlat]
  | @cons d b e ds bs es _ _ hbox ih =>
    rw [boxFlat, List.pairwise_flatMap]
    constructor
    · intro x _
      rw [List.pairwise_map]
      exact ih.imp (fun hab => by omega)
    · refine (List.pairwise_lt_range' (s := b)).imp ?_
      intro x y hxy k hk l hl
      simp only [List.mem_map] at hk hl
      obtain ⟨k', hk', rfl⟩ := hk
      obtain ⟨l', _, rfl⟩ := hl
      have hlt := lt_prod_of_mem_boxFlat hbox k' hk'
      have hrow : (x + 1) * ds.prod ≤ y * ds.prod := Nat.mul_le_mul_right _ (by omega)
      calc x * ds.prod + k' < (x + 1) * ds.prod := by rw [Nat.add_mul]; omega
        _ ≤ y * ds.prod := hrow
        _ ≤ y * ds.prod + l' := Nat.le_add_right _ _

/-- Both corners are elements of the box, and bound its flat indices. -/
theorem boxFlat_corners {ds bs es : List Nat} (h : BoxIn ds bs es) :
    flat (strides ds) bs ∈ boxFlat ds bs es ∧ flat (strides ds) es ∈ boxFlat ds bs es ∧
      ∀ k ∈ boxFlat ds bs es, flat (strides ds) bs ≤ k ∧ k ≤ flat (strides ds) es := by
  induction h with
  | nil => simp [boxFlat, flat]
  | @cons d b e ds bs es hbe _ _ ih =>
    obtain ⟨hlo, hhi, hbound⟩ := ih
    simp only [strides, flat_cons, boxFlat, List.mem_flatMap, List.mem_range'_1, List.mem_map]
    refine ⟨⟨b, by omega, _, hlo, rfl⟩, ⟨e, by omega, _, hhi, rfl⟩, ?_⟩
    rintro k ⟨x, ⟨hbx, hx⟩, k', hk', rfl⟩
    have := hbound k' hk'
    have hlow : b * ds.prod ≤ x * ds.prod := Nat.mul_le_mul_right _ hbx
    have hhigh : x * ds.prod ≤ e * ds.prod := Nat.mul_le_mul_right _ (by omega)
    omega

/-- Consecutive full rows of length `p` form one range. -/
theorem flatMap_range'_mul (p : Nat) (b n : Nat) :
    ((List.range' b n).flatMap fun x => List.range' (x * p) p) = List.range' (b * p) (n * p) := by
  induction n generalizing b with
  | zero => simp
  | succ n ih =>
    rw [List.range'_succ, List.flatMap_cons, ih, Nat.add_mul b 1 p, Nat.one_mul, List.range'_append_1,
      show (n + 1) * p = p + n * p from by ring]

/-- A box spanning the whole extent is the whole flat range. -/
theorem boxFlat_whole (ds : List Nat) (hpos : ∀ d ∈ ds, 0 < d) :
    boxFlat ds (ds.map fun _ => 0) (ds.map (· - 1)) = List.range' 0 ds.prod := by
  induction ds with
  | nil => rfl
  | cons d ds ih =>
    have hd : d - 1 + 1 - 0 = d := by have := hpos d (by simp); omega
    rw [List.map_cons, List.map_cons, boxFlat, ih (fun x hx => hpos x (List.mem_cons_of_mem _ hx)), hd]
    simp only [List.map_add_range', Nat.add_zero]
    rw [flatMap_range'_mul, Nat.zero_mul, List.prod_cons]

/-! ## Rows and the odometer

A *row* of a box is the run of elements along its last dimension; it is named by the
coordinates of its first element. -/

/-- The rows of a box, each by its first element's coordinates, in row-major order. -/
def rows : List Nat → List Nat → List (List Nat)
  | [b], [_] => [[b]]
  | b :: bs, e :: es => (List.range' b (e + 1 - b)).flatMap fun x => (rows bs es).map (x :: ·)
  | _, _ => []

/-- Advance to the next row: add one to the last of the leading coordinates and carry.
The last coordinate is the row's own and stays. The flag is the carry out of the first
coordinate: the box is exhausted. -/
def odometer : List Nat → List Nat → List Nat → List Nat × Bool
  | _, _, [c] => ([c], true)
  | b :: bs, e :: es, c :: cs =>
      let (cs', carry) := odometer bs es cs
      if carry then
        if c < e then ((c + 1) :: cs', false) else (b :: cs', true)
      else (c :: cs', false)
  | _, _, cs => (cs, true)

/-- The rows the odometer visits from `cur` on, `fuel` of them at most. -/
def iterRows (bs es : List Nat) : Nat → List Nat → List (List Nat)
  | 0, _ => []
  | fuel + 1, cur =>
      cur :: match odometer bs es cur with
        | (_, true) => []
        | (next, false) => iterRows bs es fuel next

/-- `l` is a walk of `next` that leads to `last`, `carry` being the flag of its final step. -/
def WalksTo {α : Type} (next : α → α × Bool) (last : α × Bool) : List α → Prop
  | [] => False
  | [a] => next a = last
  | a :: a' :: l => next a = (a', false) ∧ WalksTo next last (a' :: l)

/-- Two walks join where the first leads to the head of the second. -/
theorem WalksTo.append {α : Type} {next : α → α × Bool} {last : α × Bool} {a : α} {l' : List α}
    (h' : WalksTo next last (a :: l')) :
    ∀ {l : List α}, WalksTo next (a, false) l → WalksTo next last (l ++ a :: l')
  | [_], h => ⟨h, h'⟩
  | _ :: _ :: _, h => ⟨h.1, WalksTo.append h' h.2⟩

/-- A walk in the trailing coordinates is a walk with the leading one in front, up to its
last step, where the leading coordinate takes the carry. -/
theorem WalksTo.map_cons {b e x : Nat} {bs es z : List Nat} :
    ∀ {l : List (List Nat)}, (∀ r ∈ l, r ≠ []) → WalksTo (odometer bs es) (z, true) l →
      WalksTo (odometer (b :: bs) (e :: es))
        (if x < e then ((x + 1) :: z, false) else (b :: z, true)) (l.map (x :: ·))
  | [r], hne, h => by
      obtain ⟨c, cs, rfl⟩ := List.exists_cons_of_ne_nil (hne r (by simp))
      simp only [WalksTo] at h
      simp only [List.map_cons, List.map_nil, WalksTo, odometer, h, if_true]
  | r :: r' :: l, hne, h => by
      obtain ⟨c, cs, rfl⟩ := List.exists_cons_of_ne_nil (hne r (by simp))
      refine ⟨?_, WalksTo.map_cons (fun q hq => hne q (List.mem_cons_of_mem _ hq)) h.2⟩
      simp [odometer, h.1]

/-- No row is the empty coordinate vector. -/
theorem ne_nil_of_mem_rows {bs es r : List Nat} (h : r ∈ rows bs es) : r ≠ [] := by
  unfold rows at h
  split at h
  · simp at h; simp [h]
  · simp only [List.mem_flatMap, List.mem_map] at h
    obtain ⟨_, _, _, _, rfl⟩ := h
    simp
  · simp at h

/-- The walk of the trailing coordinates, repeated for the leading coordinates `x, x + 1, …, e`. -/
theorem walksTo_leading {b e : Nat} {bs es : List Nat} {l : List (List Nat)} (hl : rows bs es = bs :: l)
    (hwalk : WalksTo (odometer bs es) (bs, true) (rows bs es)) :
    ∀ n x, x + n = e → WalksTo (odometer (b :: bs) (e :: es)) (b :: bs, true)
      ((List.range' x (n + 1)).flatMap fun x => (rows bs es).map (x :: ·)) := by
  intro n
  induction n with
  | zero =>
    intro x hx
    have := WalksTo.map_cons (b := b) (e := e) (x := x)
      (fun r hr => ne_nil_of_mem_rows hr) hwalk
    rw [if_neg (by omega)] at this
    simpa using this
  | succ n ihn =>
    intro x hx
    have hfirst := WalksTo.map_cons (b := b) (e := e) (x := x)
      (fun r hr => ne_nil_of_mem_rows hr) hwalk
    rw [if_pos (by omega)] at hfirst
    have hrest := ihn (x + 1) (by omega)
    rw [List.range'_succ, List.flatMap_cons]
    -- the rest starts where the carry of row group `x` leads
    obtain ⟨l', hl'⟩ : ∃ l', ((List.range' (x + 1) (n + 1)).flatMap fun x =>
        (rows bs es).map (x :: ·)) = ((x + 1) :: bs) :: l' := by
      rw [List.range'_succ, List.flatMap_cons, hl]
      exact ⟨_, rfl⟩
    rw [hl'] at hrest ⊢
    exact WalksTo.append hrest hfirst

theorem rows_cons {b e : Nat} {bs es : List Nat} (hne : bs ≠ []) :
    rows (b :: bs) (e :: es) = (List.range' b (e + 1 - b)).flatMap fun x => (rows bs es).map (x :: ·) := by
  cases bs with
  | nil => exact absurd rfl hne
  | cons => rfl

/-- The odometer walks the rows of a box: it starts at the low corner, visits every row, and
carries out of the first coordinate after the last one. -/
theorem walksTo_rows {ds bs es : List Nat} (h : BoxIn ds bs es) (hne : bs ≠ []) :
    (∃ l, rows bs es = bs :: l) ∧ WalksTo (odometer bs es) (bs, true) (rows bs es) := by
  induction h with
  | nil => exact absurd rfl hne
  | @cons d b e ds bs es hbe _ hbox ih =>
    cases hbox with
    | nil => simp [rows, WalksTo, odometer]
    | @cons d' b' e' ds bs es hbe' hed' hbox' =>
      obtain ⟨⟨l, hl⟩, hwalk⟩ := ih (by simp)
      rw [rows_cons (by simp), show e + 1 - b = (e - b) + 1 from by omega]
      refine ⟨?_, walksTo_leading hl hwalk (e - b) b (by omega)⟩
      rw [List.range'_succ, List.flatMap_cons, hl]
      exact ⟨_, rfl⟩

/-- Iterating a walk from its head gives the walk back. -/
theorem iterRows_of_walksTo {bs es z : List Nat} :
    ∀ {fuel : Nat} {cur : List Nat} {l : List (List Nat)}, l.length < fuel →
      WalksTo (odometer bs es) (z, true) (cur :: l) → iterRows bs es fuel cur = cur :: l
  | fuel + 1, cur, [], _, h => by simp only [WalksTo] at h; simp [iterRows, h]
  | fuel + 1, cur, r :: l, hlen, h => by
      have hrest : iterRows bs es fuel r = r :: l :=
        iterRows_of_walksTo (by simpa using hlen) h.2
      simp [iterRows, h.1, hrest]

/-- The odometer's walk from the low corner visits the rows of the box, once each and in order. -/
theorem iterRows_eq_rows {ds bs es : List Nat} (h : BoxIn ds bs es) (hne : bs ≠ []) {fuel : Nat}
    (hfuel : (rows bs es).length ≤ fuel) : iterRows bs es fuel bs = rows bs es := by
  obtain ⟨⟨l, hl⟩, hwalk⟩ := walksTo_rows h hne
  rw [hl] at hwalk hfuel ⊢
  rw [List.length_cons] at hfuel
  exact iterRows_of_walksTo (by omega) hwalk

/-- Started at a later leading coordinate, the odometer visits the rows from there on. -/
theorem iterRows_from {d b e x : Nat} {ds bs es : List Nat} (h : BoxIn (d :: ds) (b :: bs) (e :: es))
    (hne : bs ≠ []) (hbx : b ≤ x) (hxe : x ≤ e) {fuel : Nat}
    (hfuel : (rows (b :: bs) (e :: es)).length ≤ fuel) :
    iterRows (b :: bs) (e :: es) fuel (x :: bs) = rows (x :: bs) (e :: es) := by
  obtain ⟨hbe, hed, hbox⟩ := boxIn_cons.mp h
  obtain ⟨⟨l, hl⟩, hwalk⟩ := walksTo_rows hbox hne
  have hfrom : WalksTo (odometer (b :: bs) (e :: es)) (b :: bs, true) (rows (x :: bs) (e :: es)) := by
    rw [rows_cons hne, show e + 1 - x = (e - x) + 1 from by omega]
    exact walksTo_leading hl hwalk (e - x) x (by omega)
  have hshort : (rows (x :: bs) (e :: es)).length ≤ (rows (b :: bs) (e :: es)).length := by
    rw [rows_cons hne, rows_cons hne,
      show List.range' b (e + 1 - b) = List.range' b (x - b) ++ List.range' x (e + 1 - x) from by
        rw [show List.range' x (e + 1 - x) = List.range' (b + (x - b)) (e + 1 - x) from by congr 1; omega,
          List.range'_append_1]
        congr 1
        omega,
      List.flatMap_append, List.length_append]
    omega
  obtain ⟨⟨l', hl'⟩, -⟩ := walksTo_rows (BoxIn.cons hxe hed hbox) (List.cons_ne_nil x bs)
  rw [hl'] at hfrom hshort ⊢
  rw [List.length_cons] at hshort
  exact iterRows_of_walksTo (by omega) hfrom

/-- The rows of a box, each spelled out along the last dimension, are the box's elements. -/
theorem rows_flatMap_eq_boxFlat {ds bs es : List Nat} (h : BoxIn ds bs es) (hne : bs ≠ []) :
    (rows bs es).flatMap
        (fun r => List.range' (flat (strides ds) r) (es.getLastD 0 + 1 - bs.getLastD 0))
      = boxFlat ds bs es := by
  induction h with
  | nil => exact absurd rfl hne
  | @cons d b e ds bs es hbe hed hbox ih =>
    cases hbox with
    | nil => simp [rows, boxFlat, strides, flat, List.flatMap_singleton']
    | @cons d' b' e' ds bs es hbe' hed' hbox' =>
      have ih := ih (by simp)
      rw [boxFlat, ← ih]
      simp only [rows, List.flatMap_assoc, List.flatMap_map, List.map_flatMap, strides, flat_cons,
        List.map_add_range']
      rfl

end RowMajor
