import VolStream.Space.Clipping

/-!
# The bounding span of a selection

`H5VL__stream_space_1d_bounds` takes the two corners `H5Sget_select_bounds` reports to flat indices.
Every selected element lies between them (`space1dBounds_covers`).
-/

namespace RowMajor

/-- The flat index grows with every coordinate. -/
theorem flat_mono {cs cs' : List Nat} (h : List.Forall₂ (· ≤ ·) cs cs') (ss : List Nat) : flat ss cs ≤ flat ss cs' := by
  induction h generalizing ss with
  | nil => exact Nat.le_refl _
  | @cons c c' cs cs' hle _ ih =>
    cases ss with
    | nil => simp [flat]
    | cons s ss =>
      rw [flat_cons, flat_cons]
      exact Nat.add_le_add (Nat.mul_le_mul_right s hle) (ih ss)

/-- The coordinates of a flat index lead back to it. -/
theorem flat_unflat {dims : List Nat} {k : Nat} (hk : k < dims.prod) : flat (strides dims) (unflat dims k) = k := by
  induction dims generalizing k with
  | nil =>
    have : k = 0 := by simpa using hk
    simp [flat, this, unflat]
  | cons d ds ih =>
    have hpos : 0 < ds.prod := by
      apply Nat.pos_of_ne_zero
      intro hzero
      rw [List.prod_cons, hzero] at hk
      omega
    rw [strides, unflat, flat_cons, ih (Nat.mod_lt _ hpos), Nat.mul_comm]
    exact Nat.div_add_mod k ds.prod

section Bound

variable {R : Nat → Nat → Prop} {f : Nat → Nat → Nat}

theorem forall₂_trans (htrans : ∀ x y z, R x y → R y z → R x z) {a b c : List Nat} (h : List.Forall₂ R a b)
    (h' : List.Forall₂ R b c) : List.Forall₂ R a c := by
  induction h generalizing c with
  | nil => exact h'
  | cons hxy _ ih =>
    cases h' with
    | cons hyz h' => exact .cons (htrans _ _ _ hxy hyz) (ih h')

theorem forall₂_zipWith (hleft : ∀ x y, R (f x y) x) (hright : ∀ x y, R (f x y) y) :
    ∀ {a b : List Nat}, b.length = a.length →
      List.Forall₂ R (List.zipWith f a b) a ∧ List.Forall₂ R (List.zipWith f a b) b
  | [], [], _ => ⟨.nil, .nil⟩
  | x :: _, y :: _, hlen => by
      obtain ⟨ha, hb⟩ := forall₂_zipWith hleft hright (Nat.succ_inj.mp hlen)
      exact ⟨.cons (hleft x y) ha, .cons (hright x y) hb⟩

/-- The coordinatewise bound of a list of vectors bounds each of them; `f` is `min` or `max`. -/
theorem forall₂_foldl (hrefl : ∀ x, R x x) (htrans : ∀ x y z, R x y → R y z → R x z)
    (hleft : ∀ x y, R (f x y) x) (hright : ∀ x y, R (f x y) y) {l : List (List Nat)} {init c : List Nat}
    (hlen : ∀ v ∈ l, v.length = init.length) (hmem : c = init ∨ c ∈ l) :
    List.Forall₂ R (l.foldl (List.zipWith f) init) c := by
  induction l generalizing init c with
  | nil =>
    rcases hmem with rfl | hmem
    · exact List.forall₂_same.mpr fun x _ => hrefl x
    · exact absurd hmem List.not_mem_nil
  | cons v l ih =>
    have hv := hlen v List.mem_cons_self
    obtain ⟨hinit, hvec⟩ := forall₂_zipWith hleft hright hv
    have hrest : ∀ v' ∈ l, v'.length = (List.zipWith f init v).length := by
      intro v' hv'
      rw [List.length_zipWith, hv, Nat.min_self]
      exact hlen v' (List.mem_cons_of_mem _ hv')
    rw [List.foldl_cons]
    rcases hmem with rfl | hmem
    · exact forall₂_trans htrans (ih hrest (.inl rfl)) hinit
    · rcases List.mem_cons.mp hmem with rfl | hmem
      · exact forall₂_trans htrans (ih hrest (.inl rfl)) hvec
      · exact ih hrest (.inr hmem)

end Bound

theorem foldl_min_le {l : List (List Nat)} {init c : List Nat} (hlen : ∀ v ∈ l, v.length = init.length)
    (hmem : c = init ∨ c ∈ l) : List.Forall₂ (· ≤ ·) (l.foldl (List.zipWith min) init) c :=
  forall₂_foldl Nat.le_refl (fun _ _ _ => Nat.le_trans) Nat.min_le_left Nat.min_le_right hlen hmem

theorem le_foldl_max {l : List (List Nat)} {init c : List Nat} (hlen : ∀ v ∈ l, v.length = init.length)
    (hmem : c = init ∨ c ∈ l) : List.Forall₂ (· ≤ ·) c (l.foldl (List.zipWith max) init) := by
  have h := forall₂_foldl (R := fun x y => y ≤ x) Nat.le_refl (fun _ _ _ h h' => Nat.le_trans h' h)
    Nat.le_max_left Nat.le_max_right hlen hmem
  exact h.flip

end RowMajor

namespace VolStream

open RowMajor

/-! ## Coordinates in an extent -/

theorem inExtent_iff {dims c : List Nat} : inExtent dims c = true ↔ List.Forall₂ (fun x d => x < d) c dims := by
  induction dims generalizing c with
  | nil => cases c <;> simp [inExtent]
  | cons d ds ih => cases c <;> simp [inExtent, ih]

theorem inExtent_of_inBox {dims bs es c : List Nat} (hbox : BoxIn dims bs es) (h : inBox bs es c = true) :
    inExtent dims c = true ∧ List.Forall₂ (· ≤ ·) bs c ∧ List.Forall₂ (· ≤ ·) c es := by
  induction hbox generalizing c with
  | nil =>
    cases c with
    | nil => exact ⟨rfl, .nil, .nil⟩
    | cons => cases h
  | @cons d b e ds bs es hbe hed _ ih =>
    cases c with
    | nil => cases h
    | cons x c =>
      simp only [inBox, Bool.and_eq_true, decide_eq_true_eq] at h
      obtain ⟨hext, hlow, hhigh⟩ := ih h.2
      refine ⟨?_, .cons h.1.1 hlow, .cons h.1.2 hhigh⟩
      simp only [inExtent, hext, Bool.and_true, decide_eq_true_eq]
      omega

theorem length_of_inExtent {dims c : List Nat} (h : inExtent dims c = true) : c.length = dims.length :=
  (inExtent_iff.mp h).length_eq

theorem prod_pos_of_inExtent {dims c : List Nat} (h : inExtent dims c = true) : 0 < dims.prod := by
  induction dims generalizing c with
  | nil => simp
  | cons d ds ih =>
    cases c with
    | nil => cases h
    | cons x c =>
      simp only [inExtent, Bool.and_eq_true, decide_eq_true_eq] at h
      rw [List.prod_cons]
      exact Nat.mul_pos (by omega) (ih h.2)

/-- Coordinates in the extent lie at an index of it. -/
theorem flat_lt_of_inExtent {dims c : List Nat} (h : inExtent dims c = true) : flat (strides dims) c < dims.prod := by
  induction dims generalizing c with
  | nil =>
    cases c with
    | nil => simp [flat]
    | cons => cases h
  | cons d ds ih =>
    cases c with
    | nil => cases h
    | cons x c =>
      simp only [inExtent, Bool.and_eq_true, decide_eq_true_eq] at h
      have hrow : (x + 1) * ds.prod ≤ d * ds.prod := Nat.mul_le_mul_right _ (by omega)
      have hrest := ih h.2
      rw [strides, flat_cons, List.prod_cons]
      calc x * ds.prod + flat (strides ds) c < x * ds.prod + ds.prod := by omega
        _ = (x + 1) * ds.prod := by ring
        _ ≤ d * ds.prod := hrow

/-- A selected coordinate lies in the extent. -/
theorem inExtent_of_selectsAt {dims : List Nat} {sel : Selection} (hwf : Dataspace.WellFormed ⟨.simple dims, sel⟩)
    {c : List Nat} (h : Dataspace.selectsAt ⟨.simple dims, sel⟩ c = true) : inExtent dims c = true := by
  cases sel with
  | none => cases h
  | all => exact h
  | points coords => exact hwf.2.2.2.2.1 c (of_decide_eq_true h)
  | hyperslab blocks =>
    obtain ⟨b, hb, hin⟩ := List.any_eq_true.mp h
    exact (inExtent_of_inBox (hwf.2.2.1 b hb) hin).1

theorem lt_prod_of_inExtent {dims : List Nat} {k : Nat} (hne : dims ≠ [])
    (h : inExtent dims (unflat dims k) = true) : k < dims.prod := by
  obtain ⟨d, ds, rfl⟩ := List.exists_cons_of_ne_nil hne
  simp only [unflat, inExtent, Bool.and_eq_true, decide_eq_true_eq] at h
  have hpos := prod_pos_of_inExtent h.2
  rw [List.prod_cons]
  exact (Nat.div_lt_iff_lt_mul hpos).mp h.1

/-- Selected by coordinates and selected by flat index are the same. -/
theorem selectsFlat_of_selectsAt {s : Dataspace} (hwf : s.WellFormed) {k : Nat} (hrank : s.extent.dims = [] → k = 0)
    (h : s.selectsAt (unflat s.extent.dims k) = true) : s.selectsFlat k = true := by
  rw [Dataspace.selectsFlat, h, Bool.and_true, decide_eq_true_eq]
  obtain ⟨extent, sel⟩ := s
  cases extent with
  | null => cases h
  | scalar =>
    rw [hrank rfl]
    exact Nat.one_pos
  | simple dims => exact lt_prod_of_inExtent hwf.1 (inExtent_of_selectsAt hwf h)

/-! ## The span -/

theorem inExtent_zipWith_max {dims : List Nat} : ∀ {a b : List Nat}, inExtent dims a = true → inExtent dims b = true →
    inExtent dims (List.zipWith max a b) = true := by
  induction dims with
  | nil =>
    intro a b ha hb
    cases a <;> cases b <;> first | rfl | cases ha
  | cons d ds ih =>
    intro a b ha hb
    cases a with
    | nil => cases ha
    | cons x a =>
      cases b with
      | nil => cases hb
      | cons y b =>
        simp only [inExtent, Bool.and_eq_true, decide_eq_true_eq, List.zipWith_cons_cons] at ha hb ⊢
        exact ⟨by omega, ih ha.2 hb.2⟩

theorem inExtent_foldl_max {dims : List Nat} {l : List (List Nat)} {init : List Nat} (hinit : inExtent dims init = true)
    (h : ∀ v ∈ l, inExtent dims v = true) : inExtent dims (l.foldl (List.zipWith max) init) = true := by
  induction l generalizing init with
  | nil => exact hinit
  | cons v l ih =>
    exact ih (inExtent_zipWith_max hinit (h v List.mem_cons_self)) fun v' hv' => h v' (List.mem_cons_of_mem _ hv')

theorem boxIn_corners {dims bs es : List Nat} (h : BoxIn dims bs es) :
    inExtent dims bs = true ∧ inExtent dims es = true := by
  induction h with
  | nil => exact ⟨rfl, rfl⟩
  | @cons d b e ds bs es hbe hed _ ih =>
    simp only [inExtent, ih.1, ih.2, Bool.and_true, decide_eq_true_eq]
    omega

/-- The whole of an extent ends one before each dimension. -/
theorem bounds_all {dims c : List Nat} (hfits : ∀ d ∈ dims, d ≤ uint64Max) (h : inExtent dims c = true) :
    List.Forall₂ (· ≤ ·) (dims.map fun _ => 0) c ∧
      List.Forall₂ (· ≤ ·) c (dims.map fun d => (d + uint64Max) % 2 ^ 64) ∧
      inExtent dims (dims.map fun d => (d + uint64Max) % 2 ^ 64) = true := by
  induction dims generalizing c with
  | nil =>
    cases c with
    | nil => exact ⟨.nil, .nil, rfl⟩
    | cons => cases h
  | cons d ds ih =>
    cases c with
    | nil => cases h
    | cons x c =>
      simp only [inExtent, Bool.and_eq_true, decide_eq_true_eq] at h
      have hd := hfits d List.mem_cons_self
      obtain ⟨hlow, hhigh, hin⟩ := ih (fun d' hd' => hfits d' (List.mem_cons_of_mem _ hd')) h.2
      have hlast : (d + uint64Max) % 2 ^ 64 = d - 1 := by
        rw [uint64Max] at hd ⊢
        omega
      simp only [List.map_cons, inExtent, hin, hlast, Bool.and_true, decide_eq_true_eq]
      exact ⟨.cons (Nat.zero_le x) hlow, .cons (by omega) hhigh, by omega⟩

theorem le_prod_of_mem {dims : List Nat} {d : Nat} (hd : d ∈ dims) (hpos : 0 < dims.prod) : d ≤ dims.prod := by
  obtain ⟨before, after, rfl⟩ := List.append_of_mem hd
  apply Nat.le_of_dvd hpos
  rw [List.prod_append, List.prod_cons]
  exact Nat.dvd_mul_left_of_dvd (Nat.dvd_mul_right d after.prod) before.prod

/-- The bounds of a selection enclose every selected coordinate, and lie in the extent. -/
theorem selectBounds_encloses {dims : List Nat} {sel : Selection} (hwf : Dataspace.WellFormed ⟨.simple dims, sel⟩)
    {c : List Nat} (h : Dataspace.selectsAt ⟨.simple dims, sel⟩ c = true) :
    ∃ low high, Dataspace.selectBounds ⟨.simple dims, sel⟩ = some (low, high) ∧
      List.Forall₂ (· ≤ ·) low c ∧ List.Forall₂ (· ≤ ·) c high ∧ inExtent dims high = true := by
  have hin := inExtent_of_selectsAt hwf h
  obtain ⟨hne, hfits, hbox, -, hcoords, -⟩ := hwf
  cases sel with
  | none => cases h
  | all =>
    have hpos := prod_pos_of_inExtent hin
    exact ⟨_, _, rfl, bounds_all (fun d hd => Nat.le_trans (le_prod_of_mem hd hpos) hfits) hin⟩
  | points coords =>
    have hmem : c ∈ coords := of_decide_eq_true h
    cases coords with
    | nil => exact absurd hmem List.not_mem_nil
    | cons c₀ cs =>
      have hlen : ∀ v ∈ cs, v.length = c₀.length := by
        intro v hv
        rw [length_of_inExtent (hcoords v (List.mem_cons_of_mem _ hv)),
          length_of_inExtent (hcoords c₀ List.mem_cons_self)]
      refine ⟨_, _, rfl, foldl_min_le hlen (List.mem_cons.mp hmem), le_foldl_max hlen (List.mem_cons.mp hmem), ?_⟩
      exact inExtent_foldl_max (hcoords c₀ List.mem_cons_self) fun v hv => hcoords v (List.mem_cons_of_mem _ hv)
  | hyperslab blocks =>
    obtain ⟨b, hb, hinb⟩ := List.any_eq_true.mp h
    cases blocks with
    | nil => exact absurd hb List.not_mem_nil
    | cons b₀ bs =>
      obtain ⟨-, hlow, hhigh⟩ := inExtent_of_inBox (hbox b hb) hinb
      have hstart : ∀ b' ∈ b₀ :: bs, inExtent dims b'.start = true := fun b' hb' => (boxIn_corners (hbox b' hb')).1
      have hstop : ∀ b' ∈ b₀ :: bs, inExtent dims b'.stop = true := fun b' hb' => (boxIn_corners (hbox b' hb')).2
      have hmem : b = b₀ ∨ b ∈ bs := List.mem_cons.mp hb
      refine ⟨_, _, rfl, ?_, ?_, ?_⟩
      · rw [← List.foldl_map]
        refine forall₂_trans (R := (· ≤ ·)) (fun _ _ _ => Nat.le_trans) (foldl_min_le ?_ ?_) hlow
        · intro v hv
          obtain ⟨b', hb', rfl⟩ := List.mem_map.mp hv
          rw [length_of_inExtent (hstart b' (List.mem_cons_of_mem _ hb')),
            length_of_inExtent (hstart b₀ List.mem_cons_self)]
        · rcases hmem with rfl | hmem
          · exact .inl rfl
          · exact .inr (List.mem_map_of_mem hmem)
      · rw [← List.foldl_map]
        refine forall₂_trans (R := (· ≤ ·)) (fun _ _ _ => Nat.le_trans) hhigh (le_foldl_max ?_ ?_)
        · intro v hv
          obtain ⟨b', hb', rfl⟩ := List.mem_map.mp hv
          rw [length_of_inExtent (hstop b' (List.mem_cons_of_mem _ hb')),
            length_of_inExtent (hstop b₀ List.mem_cons_self)]
        · rcases hmem with rfl | hmem
          · exact .inl rfl
          · exact .inr (List.mem_map_of_mem hmem)
      · rw [← List.foldl_map]
        refine inExtent_foldl_max (hstop b₀ List.mem_cons_self) ?_
        intro v hv
        obtain ⟨b', hb', rfl⟩ := List.mem_map.mp hv
        exact hstop b' (List.mem_cons_of_mem _ hb')

/-- The span of a selection holds every element selected, and ends inside the extent. -/
theorem space1dBounds_covers {s : Dataspace} (hwf : s.WellFormed) {k : Nat} (h : s.selectsFlat k = true) :
    ∃ span, space1dBounds s = some span ∧ span.start ≤ k ∧ k < span.start + span.count ∧
      span.start + span.count ≤ s.extent.npoints := by
  rw [Dataspace.selectsFlat, Bool.and_eq_true, decide_eq_true_eq] at h
  obtain ⟨hk, hsel⟩ := h
  obtain ⟨extent, sel⟩ := s
  cases extent with
  | null => cases hsel
  | scalar =>
    have hzero : k < 1 := hk
    exact ⟨⟨0, 1⟩, rfl, Nat.zero_le k, hzero, Nat.le_refl 1⟩
  | simple dims =>
    obtain ⟨low, high, hbounds, hlow, hhigh, hin⟩ := selectBounds_encloses hwf hsel
    have hfits := hwf.2.1
    have hk' : k < dims.prod := hk
    have hflat : flat (strides dims) (unflat dims k) = k := flat_unflat hk'
    have hfirst : flat (strides dims) low ≤ k := hflat ▸ flat_mono hlow (strides dims)
    have hlast : k ≤ flat (strides dims) high := hflat ▸ flat_mono hhigh (strides dims)
    have hend := flat_lt_of_inExtent hin
    have h64 : uint64Max = 2 ^ 64 - 1 := rfl
    obtain ⟨d, ds, rfl⟩ := List.exists_cons_of_ne_nil hwf.1
    refine ⟨⟨flat (strides (d :: ds)) low, flat (strides (d :: ds)) high - flat (strides (d :: ds)) low + 1⟩, ?_,
      hfirst, ?_, ?_⟩
    · show Option.map _ (Dataspace.selectBounds ⟨.simple (d :: ds), sel⟩) = _
      rw [hbounds]
      simp only [Option.map_some, Option.some.injEq, Run.mk.injEq]
      rw [Nat.mod_eq_of_lt (by omega), Nat.mod_eq_of_lt (a := flat (strides (d :: ds)) high) (by omega)]
      refine ⟨rfl, ?_⟩
      rw [show flat (strides (d :: ds)) high + 2 ^ 64 - flat (strides (d :: ds)) low + 1 =
        flat (strides (d :: ds)) high - flat (strides (d :: ds)) low + 1 + 2 ^ 64 from by omega,
        Nat.add_mod_right, Nat.mod_eq_of_lt (by omega)]
    · show k < flat (strides (d :: ds)) low + (flat (strides (d :: ds)) high - flat (strides (d :: ds)) low + 1)
      omega
    · show flat (strides (d :: ds)) low + (flat (strides (d :: ds)) high - flat (strides (d :: ds)) low + 1) ≤
        (d :: ds).prod
      omega

end VolStream
