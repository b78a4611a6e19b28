import Mathlib.Algebra.BigOperators.Group.List.Lemmas
import VolStream.Space.Bounds
import VolStream.Lib.LastWins

/-!
# `_Subscription.assemble`

The Python reader puts the pushes of a step together in one array: each value goes to the coordinates of
its flat index, in strides fixed when it subscribed, if they lie in the box it subscribed to, or from its
first row on when the subscription follows growth. What was put last stays; a mask tells what was put at
all, less what a predicate the writer left to the reader does not hold of. One push that is the whole box
is handed over as it is.

Arrays are functions of their local coordinates, to be read inside their shape.
-/

namespace VolStream

open RowMajor LastWins

variable {α : Type}

/-- `_Subscription`. -/
structure PySubscription (α : Type) where
  dims : List Nat
  start : List Nat
  count : List Nat
  grow : Bool
  tail : Bool
  pred : Option (α → Bool)

/-- A `Push` of the subscribed path; `unapplied` is `delivery & _DELIVERY_PREDICATE`. -/
structure PyPush (α : Type) where
  start : Nat
  data : List α
  unapplied : Bool

/-- What `assemble` returns: the array with what of it is not masked, and the dataset row its first row is. -/
structure StepArray (α : Type) where
  shape : List Nat
  data : List Nat → α
  got : List Nat → Bool
  firstRow : Option Nat

namespace PySubscription

def stride0 (sub : PySubscription α) : Nat := (strides sub.dims).headD 0

def nelem (sub : PySubscription α) : Nat := sub.count.prod

def flatFirst (sub : PySubscription α) : Nat := flat (strides sub.dims) sub.start

def flatLast (sub : PySubscription α) : Nat :=
  flat (strides sub.dims) (List.zipWith (fun s c => s + c - 1) sub.start sub.count)

def contiguous (sub : PySubscription α) : Bool :=
  decide (0 < sub.nelem ∧ sub.flatLast - sub.flatFirst + 1 = sub.nelem)

/-- `_matches`, for one value. -/
def holds (sub : PySubscription α) (v : α) : Bool :=
  match sub.pred with
  | none => true
  | some test => test v

-- the coordinates after the first
def pyCoords (k : Nat) : List Nat → List Nat
  | [] => []
  | d :: ds => k / ds.prod % d :: pyCoords k ds

/-- The coordinates of a flat index, by the dimensions at subscribe time. -/
def coords (sub : PySubscription α) (k : Nat) : List Nat :=
  match sub.dims with
  | [] => []
  | _ :: ds => k / ds.prod :: pyCoords k ds

end PySubscription

/-- `x` lies in the box of `count` elements from `start` on. -/
def inSlab : List Nat → List Nat → List Nat → Bool
  | [], [], [] => true
  | s :: ss, c :: cs, x :: xs => decide (s ≤ x ∧ x < s + c) && inSlab ss cs xs
  | _, _, _ => false

/-- One value of a push: its flat index, and whether the mask lets it through. -/
structure Cell (α : Type) where
  index : Nat
  value : α
  got : Bool

/-- What one push puts in the array, in order. -/
def PyPush.cells (sub : PySubscription α) (p : PyPush α) : List (Cell α) :=
  (p.data.zipIdx p.start).map fun vk => ⟨vk.2, vk.1, if p.unapplied then sub.holds vk.1 else true⟩

namespace PySubscription

/-- Where the array starts and how far it goes. -/
structure Frame where
  firstRow : Option Nat
  origin : List Nat
  count : List Nat

/-- One past the last row the pushes reach. -/
def endRow (sub : PySubscription α) (pushes : List (PyPush α)) : Nat :=
  match (pushes.map fun p => p.start + p.data.length).foldl max 0 with
  | 0 => 0
  | m + 1 => m / sub.stride0 + 1

/-- The rows past the extent seen at subscribe time count too when the subscription grows, and with `tail` only
those the step sent. -/
def frame (sub : PySubscription α) (pushes : List (PyPush α)) : Frame :=
  if sub.grow then
    if sub.tail then
      let first := max (sub.start.headD 0) (((pushes.map PyPush.start).min?.getD 0) / sub.stride0)
      ⟨some first, first :: sub.start.tail, (sub.endRow pushes - first) :: sub.count.tail⟩
    else
      ⟨some (sub.start.headD 0), sub.start,
        max (sub.count.headD 0) (sub.endRow pushes - sub.start.headD 0) :: sub.count.tail⟩
  else ⟨none, sub.start, sub.count⟩

/-- The place of a flat index in the array, if it is in it. -/
def localIndex (sub : PySubscription α) (origin count : List Nat) (k : Nat) : Option (List Nat) :=
  if inSlab origin count (sub.coords k) then some (List.zipWith (· - ·) (sub.coords k) origin) else none

variable [Zero α]

/-- The loop over the pushes. -/
def general (sub : PySubscription α) (pushes : List (PyPush α)) : StepArray α :=
  let f := sub.frame pushes
  let cells := pushes.flatMap (PyPush.cells sub)
  let place := sub.localIndex f.origin f.count
  ⟨f.count, assign place (cells.map fun cell => (cell.index, cell.value)) fun _ => 0,
    assign place (cells.map fun cell => (cell.index, cell.got)) fun _ => false, f.firstRow⟩

/-- Whether the one push is the box. -/
def isBox (sub : PySubscription α) (p : PyPush α) : Bool :=
  decide (p.unapplied = false ∧ sub.contiguous = true ∧ p.start = sub.flatFirst ∧ p.data.length = sub.nelem)

/-- The push as it is, in the box's shape. -/
def reshaped (sub : PySubscription α) (p : PyPush α) : StepArray α :=
  ⟨sub.count, fun c => (p.data[flat (strides sub.count) c]?).getD 0, fun _ => true,
    if sub.grow then some (sub.start.headD 0) else none⟩

/-- `_Subscription.assemble`. -/
def assemble (sub : PySubscription α) (pushes : List (PyPush α)) : StepArray α :=
  if sub.dims = [] then ⟨[], fun _ => (pushes.getLast?.bind (·.data.head?)).getD 0, fun _ => true, none⟩
  else match pushes with
    | [p] => if sub.isBox p then sub.reshaped p else sub.general pushes
    | _ => sub.general pushes

end PySubscription

/-! ## Coordinates -/

theorem pyCoords_eq (k : Nat) (ds : List Nat) : PySubscription.pyCoords k ds = unflat ds (k % ds.prod) := by
  induction ds with
  | nil => rfl
  | cons d ds ih =>
    rw [PySubscription.pyCoords, unflat, ih, List.prod_cons, Nat.mod_mul_left_div_self, Nat.mod_mul_left_mod]

/-- The reader's coordinates are those of the flat index. -/
theorem PySubscription.coords_eq (sub : PySubscription α) (k : Nat) : sub.coords k = unflat sub.dims k := by
  unfold PySubscription.coords
  split
  · rename_i hdims
    rw [hdims]
    rfl
  · rename_i d ds hdims
    rw [hdims, unflat, pyCoords_eq]

/-- A flat index is that of its coordinates, however many rows there are. -/
theorem flat_unflat_rows {dims : List Nat} (hne : dims ≠ []) (hpos : 0 < dims.tail.prod) (k : Nat) :
    flat (strides dims) (unflat dims k) = k := by
  obtain ⟨d, ds, rfl⟩ := List.exists_cons_of_ne_nil hne
  have hpos' : 0 < ds.prod := hpos
  rw [strides, unflat, flat_cons, flat_unflat (Nat.mod_lt k hpos'), Nat.mul_comm]
  exact Nat.div_add_mod k ds.prod

theorem unflat_flat {dims c : List Nat} (h : inExtent dims c = true) : unflat dims (flat (strides dims) c) = c := by
  induction dims generalizing c with
  | nil =>
    cases c with
    | nil => rfl
    | cons => cases h
  | cons d ds ih =>
    cases c with
    | nil => cases h
    | cons x xs =>
      have htail : inExtent ds xs = true := by
        rw [inExtent, Bool.and_eq_true] at h
        exact h.2
      have hlt := flat_lt_of_inExtent htail
      have hdiv : (x * ds.prod + flat (strides ds) xs) / ds.prod = x := by
        rw [Nat.mul_comm, Nat.mul_add_div (by omega), Nat.div_eq_of_lt hlt, Nat.add_zero]
      have hmod : (x * ds.prod + flat (strides ds) xs) % ds.prod = flat (strides ds) xs := by
        rw [Nat.mul_comm, Nat.mul_add_mod, Nat.mod_eq_of_lt hlt]
      rw [strides, flat_cons, unflat, hdiv, hmod, ih htail]

/-- The same with any number of rows. -/
theorem unflat_flat_rows {d x : Nat} {ds xs : List Nat} (h : inExtent ds xs = true) :
    unflat (d :: ds) (flat (strides (d :: ds)) (x :: xs)) = x :: xs := by
  have hin : inExtent ((x + 1) :: ds) (x :: xs) = true := by
    rw [inExtent, Bool.and_eq_true, decide_eq_true_eq]
    exact ⟨Nat.lt_succ_self x, h⟩
  -- neither the strides nor the coordinates depend on the first dimension
  show unflat ((x + 1) :: ds) (flat (strides ((x + 1) :: ds)) (x :: xs)) = x :: xs
  exact unflat_flat hin

/-! ## Boxes by their origin -/

theorem inSlab_cons {s c x : Nat} {ss cs xs : List Nat} :
    inSlab (s :: ss) (c :: cs) (x :: xs) = true ↔ (s ≤ x ∧ x < s + c) ∧ inSlab ss cs xs = true := by
  rw [inSlab, Bool.and_eq_true, decide_eq_true_eq]

/-- A point of a box is its origin and a point of its shape. -/
theorem inSlab_sub {ss cs xs : List Nat} (h : inSlab ss cs xs = true) :
    inExtent cs (List.zipWith (· - ·) xs ss) = true ∧
      List.zipWith (· + ·) ss (List.zipWith (· - ·) xs ss) = xs := by
  induction ss generalizing cs xs with
  | nil =>
    match cs, xs, h with
    | [], [], _ => exact ⟨rfl, rfl⟩
  | cons s ss ih =>
    match cs, xs, h with
    | c :: cs, x :: xs, h =>
      obtain ⟨⟨hs, hx⟩, hrest⟩ := inSlab_cons.mp h
      obtain ⟨hin, hadd⟩ := ih hrest
      refine ⟨?_, ?_⟩
      · rw [List.zipWith_cons_cons, inExtent, Bool.and_eq_true, decide_eq_true_eq]
        exact ⟨by omega, hin⟩
      · rw [List.zipWith_cons_cons, List.zipWith_cons_cons, hadd]
        congr 1
        omega

theorem inSlab_add {ss cs c : List Nat} (hlen : cs.length = ss.length) (h : inExtent cs c = true) :
    inSlab ss cs (List.zipWith (· + ·) ss c) = true ∧
      List.zipWith (· - ·) (List.zipWith (· + ·) ss c) ss = c := by
  induction ss generalizing cs c with
  | nil =>
    match cs, c, h with
    | [], [], _ => exact ⟨rfl, rfl⟩
  | cons s ss ih =>
    match cs, c, h with
    | d :: cs, x :: c, h =>
      rw [inExtent, Bool.and_eq_true, decide_eq_true_eq] at h
      obtain ⟨hin, hsub⟩ := ih (Nat.succ.inj hlen) h.2
      refine ⟨?_, ?_⟩
      · rw [List.zipWith_cons_cons, inSlab_cons]
        exact ⟨⟨by omega, by omega⟩, hin⟩
      · rw [List.zipWith_cons_cons, List.zipWith_cons_cons, hsub]
        congr 1
        omega

/-! ## What the loop leaves -/

/-- The cells as assignments. -/
def cellPairs (cells : List (Cell α)) : List (Nat × α × Bool) := cells.map fun cell => (cell.index, cell.value, cell.got)

/-- Where an array's first element is in the dataset. -/
def StepArray.origin (a : StepArray α) (sub : PySubscription α) : List Nat :=
  match a.firstRow with
  | none => sub.start
  | some r => r :: sub.start.tail

/-- The array holds `v`, not masked, for the element at the dataset coordinates `x`. -/
def StepArray.Unmasked (a : StepArray α) (sub : PySubscription α) (x : List Nat) (v : α) : Prop :=
  ∃ c, inExtent a.shape c = true ∧ a.got c = true ∧ a.data c = v ∧ x = List.zipWith (· + ·) (a.origin sub) c

/-- The box has the rank of the dataset, and the trailing dimensions have elements. -/
structure PySubscription.Ranked (sub : PySubscription α) : Prop where
  ne : sub.dims ≠ []
  rows : 0 < sub.dims.tail.prod
  start : sub.start.length = sub.dims.length
  count : sub.count.length = sub.dims.length

theorem PySubscription.localIndex_eq_some {sub : PySubscription α} {origin count c : List Nat} {k : Nat} :
    sub.localIndex origin count k = some c ↔
      inSlab origin count (sub.coords k) = true ∧ List.zipWith (· - ·) (sub.coords k) origin = c := by
  unfold PySubscription.localIndex
  split
  · rename_i hin
    exact ⟨fun h => ⟨hin, Option.some.inj h⟩, fun h => congrArg some h.2⟩
  · rename_i hout
    exact ⟨fun h => (by cases h), fun h => absurd h.1 hout⟩

/-- Two flat indices with the same place are the same. -/
theorem PySubscription.localIndex_inj {sub : PySubscription α} (hranked : sub.Ranked) {origin count c : List Nat}
    {k k' : Nat} (h : sub.localIndex origin count k = some c) (h' : sub.localIndex origin count k' = some c) :
    k' = k := by
  obtain ⟨hin, hsub⟩ := PySubscription.localIndex_eq_some.mp h
  obtain ⟨hin', hsub'⟩ := PySubscription.localIndex_eq_some.mp h'
  have hcoords : sub.coords k' = sub.coords k := by
    rw [← (inSlab_sub hin').2, ← (inSlab_sub hin).2, hsub, hsub']
  rw [sub.coords_eq, sub.coords_eq] at hcoords
  rw [← flat_unflat_rows hranked.ne hranked.rows k', hcoords, flat_unflat_rows hranked.ne hranked.rows k]

section General

variable [Zero α] {sub : PySubscription α}

theorem PySubscription.general_origin (hranked : sub.Ranked) (pushes : List (PyPush α)) :
    (sub.general pushes).origin sub = (sub.frame pushes).origin := by
  show (match (sub.frame pushes).firstRow with | none => sub.start | some r => r :: sub.start.tail) = _
  have hne : sub.start ≠ [] := List.ne_nil_of_length_pos
    (by rw [hranked.start]; exact List.length_pos_of_ne_nil hranked.ne)
  obtain ⟨s, ss, hs⟩ := List.exists_cons_of_ne_nil hne
  unfold PySubscription.frame
  cases sub.grow with
  | false => rfl
  | true =>
    cases sub.tail with
    | true => rfl
    | false =>
      rw [hs]
      rfl

/-- What is not masked is the last value put at its index, if it was let through. -/
theorem PySubscription.general_unmasked (hranked : sub.Ranked) (pushes : List (PyPush α)) (x : List Nat) (v : α) :
    (sub.general pushes).Unmasked sub x v ↔
      ∃ k, x = sub.coords k ∧ inSlab (sub.frame pushes).origin (sub.frame pushes).count x = true ∧
        lookupLast (cellPairs (pushes.flatMap (PyPush.cells sub))) k = some (v, true) := by
  generalize hcells : pushes.flatMap (PyPush.cells sub) = cells
  have hvalue : ∀ k, lookupLast (cells.map fun cell => (cell.index, cell.value)) k
      = (lookupLast (cellPairs cells) k).map Prod.fst := by
    intro k
    rw [← lookupLast_map_value, cellPairs, List.map_map]
    rfl
  have hgot : ∀ k, lookupLast (cells.map fun cell => (cell.index, cell.got)) k
      = (lookupLast (cellPairs cells) k).map Prod.snd := by
    intro k
    rw [← lookupLast_map_value, cellPairs, List.map_map]
    rfl
  -- a place with an index is left with the last cell of that index
  have hleft : ∀ {k c}, sub.localIndex (sub.frame pushes).origin (sub.frame pushes).count k = some c →
      (sub.general pushes).data c = ((lookupLast (cellPairs cells) k).map Prod.fst).getD 0 ∧
        (sub.general pushes).got c = ((lookupLast (cellPairs cells) k).map Prod.snd).getD false := by
    intro k c hk
    rw [← hvalue, ← hgot, ← hcells]
    exact ⟨assign_of_place hk fun p _ hp => PySubscription.localIndex_inj hranked hk hp,
      assign_of_place hk fun p _ hp => PySubscription.localIndex_inj hranked hk hp⟩
  constructor
  · rintro ⟨c, hin, hgotc, hdata, hx⟩
    -- something was put there
    obtain ⟨k, hk⟩ : ∃ k, sub.localIndex (sub.frame pushes).origin (sub.frame pushes).count k = some c := by
      by_contra hnone
      have hno : (sub.general pushes).got c = false :=
        assign_of_none fun p _ hp => hnone ⟨p.1, hp⟩
      rw [hno] at hgotc
      cases hgotc
    obtain ⟨hslab, hsub⟩ := PySubscription.localIndex_eq_some.mp hk
    have hcoords : x = sub.coords k := by
      rw [hx, PySubscription.general_origin hranked, ← hsub]
      exact (inSlab_sub hslab).2
    refine ⟨k, hcoords, hcoords ▸ hslab, ?_⟩
    obtain ⟨hd, hg⟩ := hleft hk
    rw [hd] at hdata
    rw [hg] at hgotc
    cases hlast : lookupLast (cellPairs cells) k with
    | none =>
      rw [hlast] at hgotc
      cases hgotc
    | some p =>
      rw [hlast] at hdata hgotc
      obtain ⟨v', g⟩ := p
      have hv : v' = v := hdata
      have hg' : g = true := hgotc
      rw [hv, hg']
  · rintro ⟨k, hx, hslab, hlast⟩
    rw [hx] at hslab
    have hk : sub.localIndex (sub.frame pushes).origin (sub.frame pushes).count k
        = some (List.zipWith (· - ·) (sub.coords k) (sub.frame pushes).origin) :=
      PySubscription.localIndex_eq_some.mpr ⟨hslab, rfl⟩
    obtain ⟨hd, hg⟩ := hleft hk
    obtain ⟨hin, hadd⟩ := inSlab_sub hslab
    refine ⟨_, hin, ?_, ?_, ?_⟩
    · rw [hg, hlast]
      rfl
    · rw [hd, hlast]
      rfl
    · rw [PySubscription.general_origin hranked, hadd, hx]

end General

/-! ## A contiguous box -/

theorem flat_add {ss a b : List Nat} (hlen : a.length = b.length) :
    flat ss (List.zipWith (· + ·) a b) = flat ss a + flat ss b := by
  induction ss generalizing a b with
  | nil => simp [flat]
  | cons s ss ih =>
    cases a with
    | nil =>
      rw [List.eq_nil_of_length_eq_zero hlen.symm]
      rfl
    | cons x a =>
      cases b with
      | nil => cases hlen
      | cons y b =>
        rw [List.zipWith_cons_cons, flat_cons, flat_cons, flat_cons, ih (Nat.succ.inj hlen)]
        ring

/-- One more dimension of a box whose first and last element are as far apart as it has elements. -/
theorem contiguous_step {c p n t : Nat} (hc : 0 < c) (hnt : n ≤ t + 1) (hnp : n ≤ p)
    (h : (c - 1) * p + t + 1 = c * n) : t + 1 = n ∧ ∀ x, x < c → x * p = x * n := by
  have hmul : (c - 1) * n ≤ (c - 1) * p := Nat.mul_le_mul_left _ hnp
  have hsplit : c * n = (c - 1) * n + n := by
    rw [← Nat.succ_mul, Nat.succ_eq_add_one, Nat.sub_add_cancel hc]
  refine ⟨by omega, fun x hx => ?_⟩
  have heq : (c - 1) * p = (c - 1) * n := by omega
  rcases Nat.eq_zero_or_pos (c - 1) with hzero | hpos
  · have : x = 0 := by omega
    rw [this, Nat.zero_mul, Nat.zero_mul]
  · rw [Nat.eq_of_mul_eq_mul_left hpos heq]

/-- In such a box the elements follow each other in the flat order of the extent. -/
theorem contiguous_tail {ds cs : List Nat} (h : List.Forall₂ (fun c d => 0 < c ∧ c ≤ d) cs ds) :
    cs.prod ≤ flat (strides ds) (cs.map (· - 1)) + 1 ∧ cs.prod ≤ ds.prod ∧
      (flat (strides ds) (cs.map (· - 1)) + 1 = cs.prod →
        ∀ c, inExtent cs c = true → flat (strides ds) c = flat (strides cs) c) := by
  induction h with
  | nil => exact ⟨Nat.le_refl _, Nat.le_refl _, fun _ c hc => by cases c with | nil => rfl | cons => cases hc⟩
  | @cons n d cs ds hcd _ ih =>
    obtain ⟨hlow, hle, hflat⟩ := ih
    have hsplit : n * cs.prod = (n - 1) * cs.prod + cs.prod := by
      rw [← Nat.succ_mul, Nat.succ_eq_add_one, Nat.sub_add_cancel hcd.1]
    have hmul : (n - 1) * cs.prod ≤ (n - 1) * ds.prod := Nat.mul_le_mul_left _ hle
    rw [List.map_cons, strides, flat_cons, List.prod_cons, List.prod_cons]
    refine ⟨by omega, Nat.mul_le_mul hcd.2 hle, fun heq c hc => ?_⟩
    obtain ⟨htail, hrows⟩ := contiguous_step hcd.1 hlow hle heq
    cases c with
    | nil => cases hc
    | cons x c =>
      rw [inExtent, Bool.and_eq_true, decide_eq_true_eq] at hc
      rw [strides, flat_cons, flat_cons, hrows x hc.1, hflat htail c hc.2]

/-- The box lies in the trailing dimensions. -/
def PySubscription.Boxed (sub : PySubscription α) : Prop :=
  List.Forall₂ (fun sc d => sc.1 + sc.2 ≤ d) (sub.start.tail.zip sub.count.tail) sub.dims.tail

theorem inExtent_of_inSlab {ss cs ds xs : List Nat} (hbox : List.Forall₂ (fun sc d => sc.1 + sc.2 ≤ d) (ss.zip cs) ds)
    (h : inSlab ss cs xs = true) : inExtent ds xs = true := by
  induction ss generalizing cs ds xs with
  | nil =>
    match cs, xs, h with
    | [], [], _ =>
      cases hbox
      rfl
  | cons s ss ih =>
    match cs, xs, h with
    | c :: cs, x :: xs, h =>
      obtain ⟨⟨-, hx⟩, hrest⟩ := inSlab_cons.mp h
      rw [List.zip_cons_cons] at hbox
      cases hbox with
      | @cons _ d _ ds hd hbox =>
        rw [inExtent, Bool.and_eq_true, decide_eq_true_eq]
        have hd' : s + c ≤ d := hd
        exact ⟨by omega, ih hbox hrest⟩

section Fast

variable {sub : PySubscription α}

theorem pos_of_prod_pos {cs : List Nat} (h : 0 < cs.prod) : ∀ c ∈ cs, 0 < c := by
  intro c hc
  exact Nat.pos_of_dvd_of_pos (List.dvd_prod hc) h

theorem forall₂_count {ss cs ds : List Nat} (hbox : List.Forall₂ (fun sc d => sc.1 + sc.2 ≤ d) (ss.zip cs) ds)
    (hlen : cs.length = ss.length) (hpos : ∀ c ∈ cs, 0 < c) : List.Forall₂ (fun c d => 0 < c ∧ c ≤ d) cs ds := by
  induction ss generalizing cs ds with
  | nil =>
    rw [List.eq_nil_of_length_eq_zero hlen] at hbox ⊢
    cases hbox
    exact .nil
  | cons s ss ih =>
    cases cs with
    | nil => cases hlen
    | cons c cs =>
      rw [List.zip_cons_cons] at hbox
      cases hbox with
      | @cons _ d _ ds hd hbox =>
        have hd' : s + c ≤ d := hd
        exact .cons ⟨hpos c List.mem_cons_self, by omega⟩
          (ih hbox (Nat.succ.inj hlen) fun c' hc' => hpos c' (List.mem_cons_of_mem _ hc'))

/-- The last element of a box, from its first. -/
theorem zipWith_last {ss cs : List Nat} (hlen : cs.length = ss.length) (hpos : ∀ c ∈ cs, 0 < c) :
    List.zipWith (fun s c => s + c - 1) ss cs = List.zipWith (· + ·) ss (cs.map (· - 1)) := by
  induction ss generalizing cs with
  | nil =>
    rw [List.eq_nil_of_length_eq_zero hlen]
    rfl
  | cons s ss ih =>
    cases cs with
    | nil => cases hlen
    | cons c cs =>
      have hc := hpos c List.mem_cons_self
      rw [List.map_cons, List.zipWith_cons_cons, List.zipWith_cons_cons,
        ih (Nat.succ.inj hlen) fun c' hc' => hpos c' (List.mem_cons_of_mem _ hc')]
      congr 1
      omega

/-- The shape of a subscription, taken apart. -/
theorem PySubscription.Ranked.split (h : sub.Ranked) : ∃ d ds s ss c cs, sub.dims = d :: ds ∧ sub.start = s :: ss ∧
    sub.count = c :: cs ∧ ss.length = ds.length ∧ cs.length = ds.length := by
  obtain ⟨d, ds, hd⟩ := List.exists_cons_of_ne_nil h.ne
  have hstart := h.start
  have hcount := h.count
  rw [hd] at hstart hcount
  obtain ⟨s, ss, hs⟩ := List.exists_cons_of_ne_nil (List.ne_nil_of_length_eq_add_one hstart)
  obtain ⟨c, cs, hc⟩ := List.exists_cons_of_ne_nil (List.ne_nil_of_length_eq_add_one hcount)
  rw [hs] at hstart
  rw [hc] at hcount
  exact ⟨d, ds, s, ss, c, cs, hd, hs, hc, Nat.succ.inj hstart, Nat.succ.inj hcount⟩

/-- The elements of a contiguous box are the flat range from its first on. -/
theorem PySubscription.flat_of_contiguous (hranked : sub.Ranked) (hbox : sub.Boxed) (hcont : sub.contiguous = true) :
    sub.flatLast + 1 = sub.flatFirst + sub.nelem ∧
      ∀ c, inExtent sub.count c = true → flat (strides sub.dims) (List.zipWith (· + ·) sub.start c)
        = sub.flatFirst + flat (strides sub.count) c := by
  obtain ⟨d, ds, s, ss, n, cs, hd, hs, hn, hss, hcs⟩ := hranked.split
  have hcont' : 0 < sub.nelem ∧ sub.flatLast - sub.flatFirst + 1 = sub.nelem := of_decide_eq_true hcont
  obtain ⟨hpos, hlast⟩ := hcont'
  have hcounts := pos_of_prod_pos hpos
  have hlen : sub.count.length = sub.start.length := hranked.count.trans hranked.start.symm
  have hsum : sub.flatLast = sub.flatFirst + flat (strides sub.dims) (sub.count.map (· - 1)) := by
    unfold PySubscription.flatLast PySubscription.flatFirst
    rw [zipWith_last hlen hcounts, flat_add (by rw [List.length_map, hlen])]
  refine ⟨by omega, fun c hc => ?_⟩
  rw [flat_add (by rw [length_of_inExtent hc, hlen])]
  show sub.flatFirst + flat (strides sub.dims) c = _
  congr 1
  unfold PySubscription.Boxed at hbox
  rw [hs, hn, hd, List.tail_cons, List.tail_cons, List.tail_cons] at hbox
  rw [hn] at hcounts
  obtain ⟨hlow, hle, hflat⟩ := contiguous_tail
    (forall₂_count hbox (hcs.trans hss.symm) fun c' hc' => hcounts c' (List.mem_cons_of_mem _ hc'))
  have hspan : (n - 1) * ds.prod + flat (strides ds) (cs.map (· - 1)) + 1 = n * cs.prod := by
    have hnelem : sub.nelem = n * cs.prod := by
      unfold PySubscription.nelem
      rw [hn, List.prod_cons]
    have hspread : flat (strides sub.dims) (sub.count.map (· - 1))
        = (n - 1) * ds.prod + flat (strides ds) (cs.map (· - 1)) := by
      rw [hd, hn, List.map_cons, strides, flat_cons]
    omega
  obtain ⟨htail, hrows⟩ := contiguous_step (hcounts n List.mem_cons_self) hlow hle hspan
  rw [hn] at hc ⊢
  rw [hd]
  cases c with
  | nil => cases hc
  | cons x c =>
    rw [inExtent, Bool.and_eq_true, decide_eq_true_eq] at hc
    rw [strides, strides, flat_cons, flat_cons, hrows x hc.1, hflat htail c hc.2]

/-- The row of an element of the box. -/
theorem row_of_flat {d x : Nat} {ds xs : List Nat} (h : inExtent ds xs = true) :
    flat (strides (d :: ds)) (x :: xs) / ds.prod = x := by
  have hlt := flat_lt_of_inExtent h
  rw [strides, flat_cons, Nat.mul_comm, Nat.mul_add_div (by omega), Nat.div_eq_of_lt hlt, Nat.add_zero]

theorem inExtent_zipWith_tail {ss cs ds c : List Nat}
    (hbox : List.Forall₂ (fun sc d => sc.1 + sc.2 ≤ d) (ss.zip cs) ds) (hlen : cs.length = ss.length)
    (h : inExtent cs c = true) : inExtent ds (List.zipWith (· + ·) ss c) = true :=
  inExtent_of_inSlab hbox (inSlab_add hlen h).1

theorem zipWith_add_zero {ss cs : List Nat} (hlen : cs.length = ss.length) :
    List.zipWith (· + ·) ss (cs.map fun _ => 0) = ss := by
  induction ss generalizing cs with
  | nil => rfl
  | cons s ss ih =>
    cases cs with
    | nil => cases hlen
    | cons c cs => rw [List.map_cons, List.zipWith_cons_cons, ih (Nat.succ.inj hlen), Nat.add_zero]

/-- A point of the shape, placed in the dataset, has the place it came from. -/
theorem PySubscription.localIndex_flat (hranked : sub.Ranked) (hbox : sub.Boxed) {c : List Nat}
    (hc : inExtent sub.count c = true) :
    sub.localIndex sub.start sub.count (flat (strides sub.dims) (List.zipWith (· + ·) sub.start c)) = some c := by
  have hlen : sub.count.length = sub.start.length := hranked.count.trans hranked.start.symm
  obtain ⟨hslab, hsub⟩ := inSlab_add hlen hc
  have hcoords : sub.coords (flat (strides sub.dims) (List.zipWith (· + ·) sub.start c))
      = List.zipWith (· + ·) sub.start c := by
    obtain ⟨d, ds, s, ss, n, cs, hd, hs, hn, hss, hcs⟩ := hranked.split
    unfold PySubscription.Boxed at hbox
    rw [hs, hn, hd, List.tail_cons, List.tail_cons, List.tail_cons] at hbox
    rw [sub.coords_eq, hd, hs]
    rw [hn] at hc
    cases c with
    | nil => cases hc
    | cons x c =>
      rw [inExtent, Bool.and_eq_true] at hc
      rw [List.zipWith_cons_cons]
      exact unflat_flat_rows (inExtent_zipWith_tail hbox (hcs.trans hss.symm) hc.2)
  rw [PySubscription.localIndex_eq_some, hcoords]
  exact ⟨hslab, hsub⟩

/-- One push that is the box leaves the frame as it was subscribed to. -/
theorem PySubscription.frame_of_isBox (hranked : sub.Ranked) (hbox : sub.Boxed) {p : PyPush α}
    (hp : sub.isBox p = true) :
    sub.frame [p] = ⟨if sub.grow then some (sub.start.headD 0) else none, sub.start, sub.count⟩ := by
  obtain ⟨-, hcont, hstart, hlen⟩ : p.unapplied = false ∧ sub.contiguous = true ∧ p.start = sub.flatFirst ∧
    p.data.length = sub.nelem := of_decide_eq_true hp
  obtain ⟨hlast, -⟩ := PySubscription.flat_of_contiguous hranked hbox hcont
  have hpos : 0 < sub.nelem := (of_decide_eq_true hcont : 0 < sub.nelem ∧ _).1
  obtain ⟨d, ds, s, ss, n, cs, hd, hs, hn, hss, hcs⟩ := hranked.split
  have hcounts := pos_of_prod_pos hpos
  rw [hn] at hcounts
  have hn1 := hcounts n List.mem_cons_self
  unfold PySubscription.Boxed at hbox
  rw [hs, hn, hd, List.tail_cons, List.tail_cons, List.tail_cons] at hbox
  have hlencs : cs.length = ss.length := hcs.trans hss.symm
  have hstride : sub.stride0 = ds.prod := by
    unfold PySubscription.stride0
    rw [hd]
    rfl
  -- the first and the last corner lie in the trailing dimensions
  have hzero : inExtent cs (cs.map fun _ => 0) = true := by
    rw [inExtent_iff, List.forall₂_map_left_iff, List.forall₂_same]
    exact fun c hc => hcounts c (List.mem_cons_of_mem _ hc)
  have hend : inExtent cs (cs.map (· - 1)) = true := by
    rw [inExtent_iff, List.forall₂_map_left_iff, List.forall₂_same]
    intro c hc
    have := hcounts c (List.mem_cons_of_mem _ hc)
    omega
  have hss0 := zipWith_add_zero hlencs
  have hfirstRow : sub.flatFirst / sub.stride0 = s := by
    have hin := inExtent_zipWith_tail hbox hlencs hzero
    rw [hss0] at hin
    unfold PySubscription.flatFirst
    rw [hstride, hd, hs]
    exact row_of_flat hin
  have hlastRow : sub.flatLast / sub.stride0 = s + n - 1 := by
    unfold PySubscription.flatLast
    rw [hstride, hd, hs, hn, List.zipWith_cons_cons, zipWith_last hlencs fun c hc => hcounts c (List.mem_cons_of_mem _ hc)]
    exact row_of_flat (inExtent_zipWith_tail hbox hlencs hend)
  have hendRow : sub.endRow [p] = s + n := by
    unfold PySubscription.endRow
    have hmax : ([p].map fun p => p.start + p.data.length).foldl max 0 = sub.flatLast + 1 := by
      show max 0 (p.start + p.data.length) = _
      rw [Nat.zero_max, hstart, hlen, hlast]
    rw [hmax]
    show sub.flatLast / sub.stride0 + 1 = s + n
    rw [hlastRow]
    omega
  have hmin : ([p].map PyPush.start).min?.getD 0 = sub.flatFirst := hstart
  unfold PySubscription.frame
  cases sub.grow with
  | false => rfl
  | true =>
    rw [hs, hn, hendRow, hmin, hfirstRow]
    cases sub.tail with
    | true =>
      simp only [List.headD_cons, List.tail_cons, Nat.max_self, if_true]
      rw [Nat.add_sub_cancel_left]
    | false =>
      simp only [List.headD_cons, List.tail_cons, if_true, Bool.false_eq_true, if_false]
      rw [Nat.add_sub_cancel_left, Nat.max_self]

end Fast

section

variable {sub : PySubscription α}

theorem cellPairs_index (p : PyPush α) : (cellPairs (p.cells sub)).map (·.1) = List.range' p.start p.data.length := by
  rw [cellPairs, PyPush.cells, List.map_map, List.map_map]
  exact List.zipIdx_map_snd p.start p.data

/-- Two arrays of one shape, with the same first row and the same elements. -/
structure SameArray (a b : StepArray α) : Prop where
  shape : a.shape = b.shape
  firstRow : a.firstRow = b.firstRow
  elems : ∀ c, inExtent a.shape c = true → a.data c = b.data c ∧ a.got c = b.got c

theorem SameArray.unmasked {a b : StepArray α} (h : SameArray a b) (x : List Nat) (v : α) :
    a.Unmasked sub x v ↔ b.Unmasked sub x v := by
  have horigin : a.origin sub = b.origin sub := by
    unfold StepArray.origin
    rw [h.firstRow]
  unfold StepArray.Unmasked
  rw [h.shape, horigin]
  refine exists_congr fun c => and_congr_right fun hc => ?_
  obtain ⟨hdata, hgot⟩ := h.elems c (by rw [h.shape]; exact hc)
  rw [hdata, hgot]

/-- The shortcut returns what the loop would. -/
theorem PySubscription.reshaped_eq_general [Zero α] (hranked : sub.Ranked) (hbox : sub.Boxed) {p : PyPush α}
    (hp : sub.isBox p = true) : SameArray (sub.reshaped p) (sub.general [p]) := by
  have hframe := PySubscription.frame_of_isBox hranked hbox hp
  obtain ⟨happlied, hcont, hstart, hlen⟩ : p.unapplied = false ∧ sub.contiguous = true ∧ p.start = sub.flatFirst ∧
    p.data.length = sub.nelem := of_decide_eq_true hp
  refine ⟨?_, ?_, fun c hc => ?_⟩
  · show sub.count = (sub.frame [p]).count
    rw [hframe]
  · show (if sub.grow then some (sub.start.headD 0) else none) = (sub.frame [p]).firstRow
    rw [hframe]
  · have hplace := PySubscription.localIndex_flat hranked hbox hc
    rw [(PySubscription.flat_of_contiguous hranked hbox hcont).2 c hc] at hplace
    have hj : flat (strides sub.count) c < p.data.length := by
      rw [hlen]
      exact flat_lt_of_inExtent hc
    generalize hjdef : flat (strides sub.count) c = j at hplace hj
    have hcell : lookupLast (cellPairs ([p].flatMap (PyPush.cells sub))) (sub.flatFirst + j)
        = some (p.data[j], true) := by
      rw [List.flatMap_singleton]
      refine lookupLast_of_mem ?_ ?_
      · rw [cellPairs_index]
        exact List.nodup_range'
      · rw [cellPairs, PyPush.cells, List.map_map]
        refine List.mem_map.mpr ⟨(p.data[j], sub.flatFirst + j), ?_, ?_⟩
        · rw [List.mem_zipIdx_iff_le_and_getElem?_sub, hstart]
          exact ⟨Nat.le_add_right _ _, by rw [Nat.add_sub_cancel_left]; exact List.getElem?_eq_getElem hj⟩
        · simp [happlied]
    have hvalue := congrArg (Option.map Prod.fst) hcell
    have hgot := congrArg (Option.map Prod.snd) hcell
    rw [← lookupLast_map_value, cellPairs, List.map_map] at hvalue hgot
    have hplace' : sub.localIndex (sub.frame [p]).origin (sub.frame [p]).count (sub.flatFirst + j) = some c := by
      rw [hframe]
      exact hplace
    refine ⟨?_, ?_⟩
    · show (p.data[flat (strides sub.count) c]?).getD 0 = assign _ _ _ c
      rw [hjdef, assign_of_place hplace' fun q _ hq => PySubscription.localIndex_inj hranked hplace' hq]
      rw [List.getElem?_eq_getElem hj]
      exact (congrArg (Option.getD · 0) hvalue).symm
    · show true = assign _ _ _ c
      rw [assign_of_place hplace' fun q _ hq => PySubscription.localIndex_inj hranked hplace' hq]
      exact (congrArg (Option.getD · false) hgot).symm

end

/-! ## What the frame takes -/

/-- Whether the subscription takes the element at the coordinates `x`. -/
def PySubscription.takes (sub : PySubscription α) (x : List Nat) : Bool :=
  if sub.grow then decide (sub.start.headD 0 ≤ x.headD 0) && inSlab sub.start.tail sub.count.tail x.tail
  else inSlab sub.start sub.count x

section Frame

variable {sub : PySubscription α} {pushes : List (PyPush α)}

theorem le_foldl_max_of_mem {l : List Nat} {m : Nat} (h : m ∈ l) (init : Nat) : m ≤ l.foldl max init := by
  induction l generalizing init with
  | nil => cases h
  | cons a l ih =>
    rcases List.mem_cons.mp h with rfl | h
    · have hle : ∀ (l : List Nat) (init : Nat), init ≤ l.foldl max init := by
        intro l
        induction l with
        | nil => exact fun init => Nat.le_refl init
        | cons b l ih => exact fun init => Nat.le_trans (Nat.le_max_left init b) (ih _)
      exact Nat.le_trans (Nat.le_max_right init m) (hle l _)
    · exact ih h _

/-- Every element pushed lies in a row before the end. -/
theorem PySubscription.row_lt_endRow {p : PyPush α} (hp : p ∈ pushes) {k : Nat} (hk : k < p.start + p.data.length) :
    k / sub.stride0 < sub.endRow pushes := by
  have hmem : p.start + p.data.length ∈ pushes.map fun p => p.start + p.data.length := List.mem_map.mpr ⟨p, hp, rfl⟩
  have hmax := le_foldl_max_of_mem hmem 0
  unfold PySubscription.endRow
  split
  · rename_i hzero
    omega
  · rename_i m hm
    have hle : k ≤ m := by omega
    exact Nat.lt_succ_of_le (Nat.div_le_div_right hle)

theorem PySubscription.firstRow_le {p : PyPush α} (hp : p ∈ pushes) {k : Nat} (hk : p.start ≤ k) :
    (pushes.map PyPush.start).min?.getD 0 / sub.stride0 ≤ k / sub.stride0 := by
  refine Nat.div_le_div_right (Nat.le_trans ?_ hk)
  cases hmin : (pushes.map PyPush.start).min? with
  | none => exact Nat.zero_le _
  | some m => exact (List.min?_eq_some_iff.mp hmin).2 _ (List.mem_map.mpr ⟨p, hp, rfl⟩)

/-- Of what is pushed, the frame takes what the subscription takes. -/
theorem PySubscription.frame_takes (hranked : sub.Ranked) {p : PyPush α} (hp : p ∈ pushes) {k : Nat}
    (hlow : p.start ≤ k) (hhigh : k < p.start + p.data.length) :
    inSlab (sub.frame pushes).origin (sub.frame pushes).count (sub.coords k) = sub.takes (sub.coords k) := by
  have hend : k / sub.stride0 < sub.endRow pushes := PySubscription.row_lt_endRow hp hhigh
  have hfirst : (pushes.map PyPush.start).min?.getD 0 / sub.stride0 ≤ k / sub.stride0 :=
    PySubscription.firstRow_le hp hlow
  obtain ⟨d, ds, s, ss, n, cs, hd, hs, hn, -, -⟩ := hranked.split
  have hcoords : sub.coords k = k / sub.stride0 :: unflat ds (k % ds.prod) := by
    rw [sub.coords_eq]
    unfold PySubscription.stride0
    rw [hd]
    rfl
  unfold PySubscription.frame PySubscription.takes
  cases sub.grow with
  | false => rfl
  | true =>
    rw [hcoords, hs, hn]
    generalize k / sub.stride0 = row at hend hfirst
    generalize (pushes.map PyPush.start).min?.getD 0 / sub.stride0 = low at hfirst
    cases sub.tail with
    | true =>
      show inSlab (max s low :: ss) ((sub.endRow pushes - max s low) :: cs) (row :: unflat ds (k % ds.prod))
        = (decide (s ≤ row) && inSlab ss cs (unflat ds (k % ds.prod)))
      rw [Bool.eq_iff_iff, inSlab_cons, Bool.and_eq_true, decide_eq_true_eq]
      exact and_congr_left fun _ => ⟨fun h => by omega, fun h => by omega⟩
    | false =>
      show inSlab (s :: ss) (max n (sub.endRow pushes - s) :: cs) (row :: unflat ds (k % ds.prod))
        = (decide (s ≤ row) && inSlab ss cs (unflat ds (k % ds.prod)))
      rw [Bool.eq_iff_iff, inSlab_cons, Bool.and_eq_true, decide_eq_true_eq]
      exact and_congr_left fun _ => ⟨fun h => by omega, fun h => by omega⟩

theorem PyPush.mem_cells {p : PyPush α} {cell : Cell α} (h : cell ∈ p.cells sub) :
    p.start ≤ cell.index ∧ cell.index < p.start + p.data.length ∧ p.data[cell.index - p.start]? = some cell.value ∧
      cell.got = if p.unapplied then sub.holds cell.value else true := by
  obtain ⟨⟨v, k⟩, hmem, rfl⟩ := List.mem_map.mp h
  obtain ⟨hle, hget⟩ := List.mem_zipIdx_iff_le_and_getElem?_sub.mp hmem
  have hlt := (List.getElem?_eq_some_iff.mp hget).1
  have hle' : p.start ≤ k := hle
  refine ⟨hle, ?_, hget, rfl⟩
  show k < p.start + p.data.length
  omega

end Frame

/-! ## Overlapping writes -/

/-- What a write sends: its own values, marked by whether the predicate holds of them, and every selected one of
which it holds. `pairs` are the elements of the write with their values. -/
structure Sends (sub : PySubscription α) (selected : Nat → Prop) (pairs : List (Nat × α)) (pushes : List (PyPush α)) :
    Prop where
  carries : ∀ p ∈ pushes, ∀ cell ∈ p.cells sub,
    lookupLast pairs cell.index = some cell.value ∧ cell.got = sub.holds cell.value
  complete : ∀ k v, lookupLast pairs k = some v → selected k → sub.holds v = true →
    ∃ p ∈ pushes, ∃ cell ∈ p.cells sub, cell.index = k

/-- If some write's value of element `k` satisfies the predicate, the one it is left with does. -/
def NoneOutlived (sub : PySubscription α) (writes : List (List (Nat × α))) (k : Nat) : Prop :=
  ∀ w ∈ writes, ∀ v, lookupLast w k = some v → sub.holds v = true →
    ∀ v', lookupLast writes.flatten k = some v' → sub.holds v' = true

theorem lookupLast_cellPairs {cells : List (Cell α)} {k : Nat} {q : α × Bool}
    (h : lookupLast (cellPairs cells) k = some q) : ∃ cell ∈ cells, cell.index = k ∧ (cell.value, cell.got) = q := by
  obtain ⟨cell, hmem, heq⟩ := List.mem_map.mp (mem_of_lookupLast h)
  exact ⟨cell, hmem, congrArg Prod.fst heq, congrArg Prod.snd heq⟩

/-- The last cell of a selected element is let through just when the last value written satisfies the predicate, and
is that value. -/
theorem lastCell_iff {sub : PySubscription α} {selected : Nat → Prop}
    {writes : List (List (Nat × α) × List (PyPush α))} (hsends : ∀ w ∈ writes, Sends sub selected w.1 w.2)
    {k : Nat} (hsel : selected k) (hout : NoneOutlived sub (writes.map Prod.fst) k) (v : α) :
    lookupLast (cellPairs ((writes.flatMap Prod.snd).flatMap (PyPush.cells sub))) k = some (v, true) ↔
      lookupLast (writes.map Prod.fst).flatten k = some v ∧ sub.holds v = true := by
  induction writes using List.reverseRecOn with
  | nil =>
    refine ⟨fun h => ?_, fun h => ?_⟩
    · cases h
    · cases h.1
  | append_singleton writes w ih =>
    have hw := hsends w (List.mem_append_right _ List.mem_cons_self)
    have hcells : cellPairs (((writes ++ [w]).flatMap Prod.snd).flatMap (PyPush.cells sub))
        = cellPairs ((writes.flatMap Prod.snd).flatMap (PyPush.cells sub)) ++ cellPairs (w.2.flatMap (PyPush.cells sub)) := by
      rw [List.flatMap_append, List.flatMap_singleton, List.flatMap_append, cellPairs, cellPairs, cellPairs,
        List.map_append]
    have hpairs : ((writes ++ [w]).map Prod.fst).flatten = (writes.map Prod.fst).flatten ++ w.1 := by
      rw [List.map_append, List.flatten_append, List.map_singleton, List.flatten_singleton]
    rw [hcells, hpairs, lookupLast_append, lookupLast_append]
    cases hown : lookupLast (cellPairs (w.2.flatMap (PyPush.cells sub))) k with
    | some q =>
      -- the last write sent it
      obtain ⟨cell, hmem, hindex, hq⟩ := lookupLast_cellPairs hown
      obtain ⟨p, hp, hcell⟩ := List.mem_flatMap.mp hmem
      obtain ⟨hvalue, hgot⟩ := hw.carries p hp cell hcell
      rw [hindex] at hvalue
      rw [hvalue, Option.some_or, Option.some_or, ← hq, hgot, Option.some.injEq, Option.some.injEq, Prod.mk.injEq]
      refine and_congr_right fun heq => ?_
      rw [heq]
    | none =>
      rw [Option.none_or]
      cases hvalue : lookupLast w.1 k with
      | none =>
        -- the last write does not touch it
        rw [Option.none_or]
        refine ih (fun w' hw' => hsends w' (List.mem_append_left _ hw')) fun w' hw' v' hv' hholds v'' hv'' => ?_
        refine hout w' ?_ v' hv' hholds v'' ?_
        · rw [List.map_append]
          exact List.mem_append_left _ hw'
        · rw [hpairs, lookupLast_append, hvalue, Option.none_or]
          exact hv''
      | some v' =>
        have hnot : sub.holds v' ≠ true := by
          intro hholds
          obtain ⟨p, hp, cell, hcell, hindex⟩ := hw.complete k v' hvalue hsel hholds
          exact lookupLast_eq_none.mp hown (cell.index, cell.value, cell.got)
            (List.mem_map.mpr ⟨cell, List.mem_flatMap.mpr ⟨p, hp, hcell⟩, rfl⟩) hindex
        rw [Option.some_or, Option.some.injEq]
        refine ⟨fun h => ?_, fun h => absurd (h.1 ▸ h.2) hnot⟩
        -- an earlier value that was let through would be outlived
        exfalso
        obtain ⟨cell, hmem, hindex, hq⟩ := lookupLast_cellPairs h
        obtain ⟨p, hp, hcell⟩ := List.mem_flatMap.mp hmem
        obtain ⟨w', hw', hp⟩ := List.mem_flatMap.mp hp
        obtain ⟨hval', hgot⟩ := (hsends w' (List.mem_append_left _ hw')).carries p hp cell hcell
        have hg : cell.got = true := congrArg Prod.snd hq
        rw [hg] at hgot
        rw [hindex] at hval'
        refine hnot (hout w'.1 (List.mem_map.mpr ⟨w', List.mem_append_left _ hw', rfl⟩) cell.value hval'
          hgot.symm v' ?_)
        rw [hpairs, lookupLast_append, hvalue]
        rfl

end VolStream
