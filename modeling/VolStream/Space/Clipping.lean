import VolStream.Lib.Budget
import VolStream.Space.PackingOrder

/-!
# The decomposition of a range

What `H5VL__stream_space_flat_runs_range` answers for a selection and a flat range: the runs list the
selected elements of the range, each once (`spaceFlatRunsRange_exact`), and it gives up only where the
merged, clipped runs outnumber the budget. A block outside the range plays no part.
-/

namespace VolStream

open RowMajor

/-! ## Dataspaces and what they select -/

/-- The dimensions `H5Sget_simple_extent_dims` reports. -/
def Extent.dims : Extent → List Nat
  | .null => []
  | .scalar => []
  | .simple dims => dims

/-- The coordinates `c` lie in the extent `dims`. -/
def inExtent : List Nat → List Nat → Bool
  | [], [] => true
  | d :: dims, c :: cs => decide (c < d) && inExtent dims cs
  | _, _ => false

/-- Whether the element at coordinates `c` is selected. -/
def Dataspace.selectsAt (s : Dataspace) (c : List Nat) : Bool :=
  match s.extent, s.sel with
  | .null, _ => false
  | .scalar, .all => decide (c = [])
  | .scalar, _ => false
  | .simple dims, .all => inExtent dims c
  | .simple _, .hyperslab blocks => blocks.any fun b => inBox b.start b.stop c
  | .simple _, .points coords => decide (c ∈ coords)
  | .simple _, .none => false

/-- The coordinates of a point selection. -/
def Selection.coords : Selection → List (List Nat)
  | .points coords => coords
  | _ => []

/-- No element lies in both blocks. -/
def Block.apart (dims : List Nat) (a b : Block) : Prop :=
  ∀ k ∈ boxFlat dims a.start a.stop, k ∉ boxFlat dims b.start b.stop

/-- A dataspace HDF5 builds: the element count of its extent is an `hsize_t`, its selection lies in the
extent, and a hyperslab is a list of disjoint blocks, one at least. An extent without dimensions has
only the two selections that need none. -/
def Dataspace.WellFormed (s : Dataspace) : Prop :=
  match s.extent with
  | .simple dims =>
      dims ≠ [] ∧ dims.prod ≤ uint64Max ∧ (∀ b ∈ s.sel.blocks, BoxIn dims b.start b.stop) ∧
        s.sel.blocks.Pairwise (Block.apart dims) ∧ (∀ c ∈ s.sel.coords, inExtent dims c = true) ∧
        s.sel ≠ .hyperslab []
  | _ => s.sel = .all ∨ s.sel = .none

/-- Whether the element at flat index `k` is selected. -/
def Dataspace.selectsFlat (s : Dataspace) (k : Nat) : Bool :=
  decide (k < s.extent.npoints) && s.selectsAt (unflat s.extent.dims k)

/-! ## The budget -/

-- `addRun` without the bound
def addRunFree (cs ce : Nat) : List Run → List Run
  | r :: rest =>
      if r.start + r.count = cs then { r with count := r.count + (ce - cs) } :: rest else ⟨cs, ce - cs⟩ :: r :: rest
  | [] => [⟨cs, ce - cs⟩]

theorem addRun_budgeted (cs ce : Nat) : Budgeted List.length fun maxRuns => addRun maxRuns cs ce := by
  refine ⟨addRunFree cs ce, ?_⟩
  intro acc
  cases acc with
  | nil =>
    rw [show addRunFree cs ce [] = [⟨cs, ce - cs⟩] from rfl]
    refine ⟨Nat.zero_le _, fun maxRuns _ => ?_⟩
    simp only [addRun, List.length_singleton]
    split <;> split <;> first | rfl | omega
  | cons r rest =>
    simp only [addRun, addRunFree]
    by_cases habut : r.start + r.count = cs
    · simp only [if_pos habut, List.length_cons]
      refine ⟨Nat.le_refl _, fun maxRuns hfit => ?_⟩
      rw [if_pos hfit]
    · simp only [if_neg habut, List.length_cons]
      refine ⟨by omega, fun maxRuns _ => ?_⟩
      split <;> split <;> first | rfl | omega

theorem clipRun_budgeted (rangeStart rangeEnd cs ce : Nat) :
    Budgeted List.length fun maxRuns => clipRun rangeStart rangeEnd maxRuns cs ce := by
  unfold clipRun
  by_cases hout : max cs rangeStart ≥ min ce rangeEnd
  · simp only [if_pos hout]
    exact Budgeted.skip
  · simp only [if_neg hout]
    exact addRun_budgeted _ _

theorem walkBlock_budgeted (dims : List Nat) (b : Block) (rangeStart rangeEnd fuel : Nat) (cur : List Nat) :
    Budgeted List.length fun maxRuns => walkBlock dims b rangeStart rangeEnd maxRuns fuel cur := by
  induction fuel generalizing cur with
  | zero => exact Budgeted.skip
  | succ fuel ih =>
    by_cases hpast : 1 < dims.length ∧ 0 < (strides dims).headD 0 ∧
        cur.headD 0 * (strides dims).headD 0 ≥ rangeEnd
    · simp only [walkBlock, if_pos hpast]
      exact Budgeted.skip
    · have hrow := clipRun_budgeted rangeStart rangeEnd (flat (strides dims) cur)
        (flat (strides dims) cur + (b.stop.getLastD 0 - b.start.getLastD 0 + 1))
      cases hodo : odometer b.start b.stop cur with
      | mk next carry =>
        cases carry with
        | true =>
          have := hrow.bind Budgeted.skip
          convert this using 2 with maxRuns
          funext acc
          simp only [walkBlock, if_neg hpast, hodo]
          cases clipRun rangeStart rangeEnd maxRuns (flat (strides dims) cur) _ acc <;> rfl
        | false =>
          have := hrow.bind (ih next)
          convert this using 2 with maxRuns
          funext acc
          simp only [walkBlock, if_neg hpast, hodo]
          cases clipRun rangeStart rangeEnd maxRuns (flat (strides dims) cur) _ acc <;> rfl

theorem addBlock_budgeted (dims : List Nat) (rangeStart rangeEnd : Nat) (b : Block) :
    Budgeted List.length fun maxRuns => addBlock dims rangeStart rangeEnd maxRuns b := by
  unfold addBlock
  by_cases hmulti : 1 < dims.length ∧ 0 < (strides dims).headD 0
  · simp only [if_pos hmulti]
    by_cases hfull : b.full dims = true
    · simp only [if_pos hfull]
      exact clipRun_budgeted _ _ _ _
    · simp only [if_neg hfull]
      by_cases hbefore : max (b.start.headD 0) (rangeStart / (strides dims).headD 0) > b.stop.headD 0
      · simp only [if_pos hbefore]
        exact Budgeted.skip
      · simp only [if_neg hbefore]
        exact walkBlock_budgeted _ _ _ _ _ _
  · simp only [if_neg hmulti]
    exact walkBlock_budgeted _ _ _ _ _ _

theorem addBlocks_budgeted (dims : List Nat) (rangeStart rangeEnd : Nat) (blocks : List Block) :
    Budgeted List.length fun maxRuns => addBlocks dims rangeStart rangeEnd maxRuns blocks := by
  induction blocks with
  | nil => exact Budgeted.skip
  | cons b bs ih =>
    have := (addBlock_budgeted dims rangeStart rangeEnd b).bind ih
    convert this using 2 with maxRuns
    funext acc
    simp only [addBlocks]
    cases addBlock dims rangeStart rangeEnd maxRuns b acc <;> rfl

/-! ## What holds of every run recorded -/

section Invariant

variable {P : List Run → Prop} {rangeStart rangeEnd maxRuns : Nat}

/-- What recording a non-empty part of the range keeps, the decomposition of a block list keeps. -/
def KeptByRuns (P : List Run → Prop) (rangeStart rangeEnd maxRuns : Nat) : Prop :=
  ∀ cs ce acc acc', rangeStart ≤ cs → cs < ce → ce ≤ rangeEnd → addRun maxRuns cs ce acc = some acc' →
    P acc → P acc'

theorem KeptByRuns.clipRun (h : KeptByRuns P rangeStart rangeEnd maxRuns) {cs ce : Nat} {acc acc' : List Run}
    (hrun : clipRun rangeStart rangeEnd maxRuns cs ce acc = some acc') (hP : P acc) : P acc' := by
  unfold VolStream.clipRun at hrun
  split at hrun
  · cases hrun
    exact hP
  · exact h _ _ _ _ (by omega) (by omega) (by omega) hrun hP

theorem KeptByRuns.walkBlock (h : KeptByRuns P rangeStart rangeEnd maxRuns) {dims : List Nat} {b : Block}
    {fuel : Nat} {cur : List Nat} {acc acc' : List Run}
    (hrun : walkBlock dims b rangeStart rangeEnd maxRuns fuel cur acc = some acc') (hP : P acc) : P acc' := by
  induction fuel generalizing cur acc with
  | zero =>
    cases hrun
    exact hP
  | succ fuel ih =>
    unfold VolStream.walkBlock at hrun
    simp only at hrun
    split at hrun
    · cases hrun
      exact hP
    · split at hrun
      · cases hrun
      · rename_i acc₁ hclip
        have hP₁ := h.clipRun hclip hP
        split at hrun
        · cases hrun
          exact hP₁
        · exact ih hrun hP₁

theorem KeptByRuns.addBlock (h : KeptByRuns P rangeStart rangeEnd maxRuns) {dims : List Nat} {b : Block}
    {acc acc' : List Run} (hrun : addBlock dims rangeStart rangeEnd maxRuns b acc = some acc') (hP : P acc) :
    P acc' := by
  unfold VolStream.addBlock at hrun
  simp only at hrun
  split at hrun
  · split at hrun
    · exact h.clipRun hrun hP
    · split at hrun
      · cases hrun
        exact hP
      · exact h.walkBlock hrun hP
  · exact h.walkBlock hrun hP

theorem KeptByRuns.addBlocks (h : KeptByRuns P rangeStart rangeEnd maxRuns) {dims : List Nat} :
    ∀ {blocks : List Block} {acc acc' : List Run},
      addBlocks dims rangeStart rangeEnd maxRuns blocks acc = some acc' → P acc → P acc'
  | [], acc, acc', hrun, hP => by
      cases hrun
      exact hP
  | b :: bs, acc, acc', hrun, hP => by
      unfold VolStream.addBlocks at hrun
      split at hrun
      · cases hrun
      · rename_i acc₁ hb
        exact h.addBlocks hrun (h.addBlock hb hP)

end Invariant

/-- Every run recorded is non-empty and inside the range. -/
theorem runs_inside (rangeStart rangeEnd maxRuns : Nat) :
    KeptByRuns (fun acc => ∀ r ∈ acc, 0 < r.count ∧ rangeStart ≤ r.start ∧ r.start + r.count ≤ rangeEnd)
      rangeStart rangeEnd maxRuns := by
  intro cs ce acc acc' hstart hlt hend hadd hacc
  unfold addRun at hadd
  split at hadd
  · rename_i r rest
    have hr := hacc r List.mem_cons_self
    split at hadd
    · cases hadd
      intro r' hr'
      rcases List.mem_cons.mp hr' with rfl | hr'
      · show 0 < r.count + (ce - cs) ∧ rangeStart ≤ r.start ∧ r.start + (r.count + (ce - cs)) ≤ rangeEnd
        omega
      · exact hacc r' (List.mem_cons_of_mem _ hr')
    · split at hadd
      · cases hadd
      · cases hadd
        intro r' hr'
        rcases List.mem_cons.mp hr' with rfl | hr'
        · show 0 < ce - cs ∧ rangeStart ≤ cs ∧ cs + (ce - cs) ≤ rangeEnd
          omega
        · exact hacc r' hr'
  · split at hadd
    · cases hadd
    · cases hadd
      intro r' hr'
      rw [List.mem_singleton.mp hr']
      show 0 < ce - cs ∧ rangeStart ≤ cs ∧ cs + (ce - cs) ≤ rangeEnd
      omega

/-! ## Blocks outside the range -/

theorem clipRun_outside {rangeStart rangeEnd cs n : Nat} (maxRuns : Nat) (acc : List Run)
    (hout : ∀ k ∈ List.range' cs n, inRange rangeStart rangeEnd k = false) :
    clipRun rangeStart rangeEnd maxRuns cs (cs + n) acc = some acc := by
  unfold clipRun
  by_cases hlt : max cs rangeStart ≥ min (cs + n) rangeEnd
  · rw [if_pos hlt]
  · have hin := hout (max cs rangeStart) (by rw [List.mem_range'_1]; omega)
    rw [inRange, decide_eq_false_iff_not] at hin
    omega

theorem walkBlock_outside {dims : List Nat} {b : Block} {rangeStart rangeEnd maxRuns fuel : Nat} {cur : List Nat}
    {acc : List Run} (hout : ∀ r ∈ iterRows b.start b.stop fuel cur,
      ∀ k ∈ List.range' (flat (strides dims) r) (b.stop.getLastD 0 - b.start.getLastD 0 + 1),
        inRange rangeStart rangeEnd k = false) :
    walkBlock dims b rangeStart rangeEnd maxRuns fuel cur acc = some acc := by
  induction fuel generalizing cur with
  | zero => rfl
  | succ fuel ih =>
    rw [iterRows] at hout
    have hrow := clipRun_outside maxRuns acc (hout cur List.mem_cons_self)
    simp only [walkBlock, hrow]
    split
    · rfl
    · split
      · rfl
      · rename_i next hodo
        apply ih
        intro r hr
        exact hout r (List.mem_cons_of_mem _ (by rw [hodo]; exact hr))

/-- A block with nothing in the range leaves the runs, and so the budget, alone. -/
theorem addBlock_outside {dims : List Nat} {b : Block} {rangeStart rangeEnd : Nat} (maxRuns : Nat)
    (acc : List Run) (hbox : BoxIn dims b.start b.stop) (hne : dims ≠ [])
    (hout : ∀ k ∈ boxFlat dims b.start b.stop, inRange rangeStart rangeEnd k = false) :
    addBlock dims rangeStart rangeEnd maxRuns b acc = some acc := by
  rcases addBlock_cases rangeStart rangeEnd maxRuns acc hbox hne with
    ⟨-, heq⟩ | ⟨cs, n, hflat, heq⟩ | ⟨cur, hcur, hlast, hcne, hiter, hflat, heq⟩
  · exact heq
  · rw [heq]
    exact clipRun_outside maxRuns acc (by rw [← hflat]; exact hout)
  · rw [heq]
    apply walkBlock_outside
    rw [hiter]
    intro r hr k hk
    have hle := getLastD_le_of_boxIn hcur
    have hmem : k ∈ boxFlat dims cur b.stop := by
      rw [← rows_flatMap_eq_boxFlat hcur hcne, List.mem_flatMap]
      refine ⟨r, hr, ?_⟩
      rw [hlast, show b.stop.getLastD 0 + 1 - b.start.getLastD 0 = b.stop.getLastD 0 - b.start.getLastD 0 + 1
        from by omega]
      exact hk
    by_contra hin
    have hfilter : k ∈ (boxFlat dims b.start b.stop).filter (inRange rangeStart rangeEnd) := by
      rw [hflat]
      exact List.mem_filter.mpr ⟨hmem, by simpa using hin⟩
    obtain ⟨hkb, hkin⟩ := List.mem_filter.mp hfilter
    rw [hout k hkb] at hkin
    cases hkin

/-- Whether a block has an element in the range. -/
def Block.touches (dims : List Nat) (rangeStart rangeEnd : Nat) (b : Block) : Bool :=
  (boxFlat dims b.start b.stop).any (inRange rangeStart rangeEnd)

theorem addBlocks_touching {dims : List Nat} {rangeStart rangeEnd maxRuns : Nat} (hne : dims ≠ []) :
    ∀ {blocks : List Block} {acc : List Run}, (∀ b ∈ blocks, BoxIn dims b.start b.stop) →
      addBlocks dims rangeStart rangeEnd maxRuns blocks acc =
        addBlocks dims rangeStart rangeEnd maxRuns (blocks.filter (Block.touches dims rangeStart rangeEnd)) acc
  | [], _, _ => rfl
  | b :: bs, acc, hbox => by
      have hrest : ∀ b' ∈ bs, BoxIn dims b'.start b'.stop := fun b' hb' => hbox b' (List.mem_cons_of_mem _ hb')
      by_cases htouch : b.touches dims rangeStart rangeEnd = true
      · rw [List.filter_cons_of_pos htouch, addBlocks, addBlocks]
        cases addBlock dims rangeStart rangeEnd maxRuns b acc with
        | none => rfl
        | some acc₁ => exact addBlocks_touching hne hrest
      · rw [List.filter_cons_of_neg htouch, addBlocks,
          addBlock_outside maxRuns acc (hbox b List.mem_cons_self) hne ?_]
        · exact addBlocks_touching hne hrest
        · intro k hk
          rw [Block.touches, List.any_eq_true] at htouch
          by_contra hin
          exact htouch ⟨k, hk, by simpa using hin⟩

/-! ## The answer -/

/-- A dataspace with dimensions is a `ValidSpace`. -/
def Dataspace.WellFormed.valid {dims : List Nat} {sel : Selection} (h : Dataspace.WellFormed ⟨.simple dims, sel⟩) :
    ValidSpace where
  dims := dims
  sel := sel
  rank_pos := h.1
  fits := h.2.1
  inside := h.2.2.1

theorem inExtent_unflat {dims : List Nat} {k : Nat} (hk : k < dims.prod) : inExtent dims (unflat dims k) = true := by
  induction dims generalizing k with
  | nil => rfl
  | cons d ds ih =>
    rw [List.prod_cons] at hk
    have hpos : 0 < ds.prod := by
      apply Nat.pos_of_ne_zero
      intro hzero
      rw [hzero, Nat.mul_zero] at hk
      omega
    simp only [unflat, inExtent, Bool.and_eq_true, decide_eq_true_eq]
    exact ⟨Nat.div_lt_of_lt_mul (by rw [Nat.mul_comm]; exact hk), ih (Nat.mod_lt _ hpos)⟩

/-- The flat indices a decomposable selection holds. -/
theorem selectsFlat_iff (s : ValidSpace) {k : Nat} :
    s.space.selectsFlat k = true ↔ k < s.dims.prod ∧
      (s.sel = .all ∨ (∃ b ∈ s.sel.blocks, k ∈ boxFlat s.dims b.start b.stop) ∨
        unflat s.dims k ∈ s.sel.coords) := by
  obtain ⟨dims, sel, hne, hfits, inside⟩ := s
  show (decide (k < dims.prod) && Dataspace.selectsAt ⟨.simple dims, sel⟩ (unflat dims k)) = true ↔ k < dims.prod ∧
    (sel = .all ∨ (∃ b ∈ sel.blocks, k ∈ boxFlat dims b.start b.stop) ∨ unflat dims k ∈ sel.coords)
  rw [Bool.and_eq_true, decide_eq_true_eq]
  refine and_congr_right fun hk => ?_
  cases sel with
  | none => simp [Dataspace.selectsAt, Selection.blocks, Selection.coords]
  | all => simp [Dataspace.selectsAt, inExtent_unflat hk]
  | points coords => simp [Dataspace.selectsAt, Selection.blocks, Selection.coords]
  | hyperslab blocks =>
    simp only [Dataspace.selectsAt, Selection.blocks, Selection.coords, List.any_eq_true, reduceCtorEq,
      false_or, List.not_mem_nil, or_false]
    refine exists_congr fun b => and_congr_right fun hb => ?_
    rw [mem_boxFlat (inside b hb)]
    exact ⟨fun h => ⟨hk, h⟩, fun h => h.2⟩

/-- The runs of a range are the parts of the selection in it: non-empty, inside the range, apart, and
together its selected elements. -/
structure RunsOf (s : Dataspace) (rangeStart rangeEnd : Nat) (runs : List Run) : Prop where
  inside : ∀ r ∈ runs, 0 < r.count ∧ rangeStart ≤ r.start ∧ r.start + r.count ≤ rangeEnd
  apart : runs.Pairwise fun r r' => ∀ k ∈ r.elems, k ∉ r'.elems
  covers : ∀ k, (∃ r ∈ runs, k ∈ r.elems) ↔ s.selectsFlat k = true ∧ rangeStart ≤ k ∧ k < rangeEnd

theorem apart_of_nodup {runs : List Run} (h : (runs.flatMap Run.elems).Nodup) :
    runs.Pairwise fun r r' => ∀ k ∈ r.elems, k ∉ r'.elems := by
  refine (List.nodup_flatMap.mp h).2.imp ?_
  intro r r' hdisj k hk hk'
  exact hdisj hk hk'

theorem nodup_blocks {dims : List Nat} {blocks : List Block} (hbox : ∀ b ∈ blocks, BoxIn dims b.start b.stop)
    (hapart : blocks.Pairwise (Block.apart dims)) :
    (blocks.flatMap fun b => boxFlat dims b.start b.stop).Nodup := by
  rw [List.nodup_flatMap]
  refine ⟨fun b hb => (boxFlat_pairwise (hbox b hb)).imp fun hlt => Nat.ne_of_lt hlt, hapart.imp ?_⟩
  intro a b hab k hka hkb
  exact hab k hka hkb

/-- Every run lies in the range, and none is empty. -/
theorem spaceFlatRunsRange_inside {s : Dataspace} {rangeStart rangeEnd maxRuns : Nat} {runs : List Run}
    (h : spaceFlatRunsRange s rangeStart rangeEnd maxRuns = some runs) :
    ∀ r ∈ runs, 0 < r.count ∧ rangeStart ≤ r.start ∧ r.start + r.count ≤ rangeEnd := by
  obtain ⟨extent, sel⟩ := s
  unfold spaceFlatRunsRange at h
  simp only at h
  split at h
  · cases h
  · cases extent with
    | null => cases h
    | scalar =>
      simp only at h
      split at h
      · cases h
        exact fun r hr => absurd hr List.not_mem_nil
      · rename_i hrange
        cases h
        intro r hr
        rw [List.mem_singleton.mp hr]
        show 0 < 1 ∧ rangeStart ≤ 0 ∧ 0 + 1 ≤ rangeEnd
        omega
    | simple dims =>
      cases dims with
      | nil => cases h
      | cons d ds =>
        cases sel with
        | none => cases h
        | points => cases h
        | all =>
          simp only at h
          split at h
          · cases h
          · split at h
            · cases h
              exact fun r hr => absurd hr List.not_mem_nil
            · cases h
              intro r hr
              rw [List.mem_singleton.mp hr]
              rename_i hge
              have hlt := Nat.lt_of_not_le hge
              refine ⟨?_, Nat.le_refl _, ?_⟩
              · show 0 < min _ rangeEnd - rangeStart
                omega
              · show rangeStart + (min _ rangeEnd - rangeStart) ≤ rangeEnd
                omega
        | hyperslab blocks =>
          cases blocks with
          | nil => cases h
          | cons b bs =>
            obtain ⟨acc, hacc, rfl⟩ := Option.map_eq_some_iff.mp h
            intro r hr
            exact (runs_inside rangeStart rangeEnd maxRuns).addBlocks hacc (fun r hr => absurd hr List.not_mem_nil) r
              (List.mem_reverse.mp hr)

theorem runsOf_simple {dims : List Nat} {sel : Selection} (hwf : Dataspace.WellFormed ⟨.simple dims, sel⟩)
    {rangeStart rangeEnd maxRuns : Nat} {runs : List Run}
    (h : spaceFlatRunsRange ⟨.simple dims, sel⟩ rangeStart rangeEnd maxRuns = some runs) :
    RunsOf ⟨.simple dims, sel⟩ rangeStart rangeEnd runs := by
  have helems := spaceFlatRunsRange_elems hwf.valid h
  have hinside := spaceFlatRunsRange_inside h
  have hmem : ∀ k, (∃ r ∈ runs, k ∈ r.elems) ↔ k ∈ runs.flatMap Run.elems := fun k => List.mem_flatMap.symm
  rcases helems with ⟨hsel, helems⟩ | ⟨blocks, hsel, helems⟩
  · refine ⟨hinside, apart_of_nodup ?_, fun k => ?_⟩
    · rw [helems]
      exact List.nodup_range.filter _
    · rw [hmem, helems, List.mem_filter, List.mem_range, inRange, decide_eq_true_eq,
        show (⟨.simple dims, sel⟩ : Dataspace) = hwf.valid.space from rfl, selectsFlat_iff]
      constructor
      · rintro ⟨hk, hin⟩
        exact ⟨⟨hk, .inl hsel⟩, hin⟩
      · rintro ⟨⟨hk, -⟩, hin⟩
        exact ⟨hk, hin⟩
  · have hsel' : sel = .hyperslab blocks := hsel
    have hbox : ∀ b ∈ blocks, BoxIn dims b.start b.stop := by
      have := hwf.2.2.1
      rw [hsel'] at this
      exact this
    have hapart : blocks.Pairwise (Block.apart dims) := by
      have := hwf.2.2.2.1
      rw [hsel'] at this
      exact this
    refine ⟨hinside, apart_of_nodup ?_, fun k => ?_⟩
    · rw [helems]
      exact (nodup_blocks hbox hapart).filter _
    · rw [hmem, helems, List.mem_filter, List.mem_flatMap, inRange, decide_eq_true_eq,
        show (⟨.simple dims, sel⟩ : Dataspace) = hwf.valid.space from rfl, selectsFlat_iff, hsel]
      refine and_congr_left fun _ => ?_
      constructor
      · rintro ⟨b, hb, hk⟩
        exact ⟨lt_prod_of_mem_boxFlat (hbox b hb) k hk, .inr (.inl ⟨b, hb, hk⟩)⟩
      · rintro ⟨hk, hall | ⟨b, hb, hk⟩ | hpoint⟩
        · cases hall
        · exact ⟨b, hb, hk⟩
        · exact absurd hpoint List.not_mem_nil

theorem runsOf_scalar {rangeStart rangeEnd maxRuns : Nat} {runs : List Run}
    (h : spaceFlatRunsRange ⟨.scalar, .all⟩ rangeStart rangeEnd maxRuns = some runs) :
    RunsOf ⟨.scalar, .all⟩ rangeStart rangeEnd runs := by
  have hflat : ∀ k, Dataspace.selectsFlat ⟨.scalar, .all⟩ k = true ↔ k = 0 := by
    intro k
    simp [Dataspace.selectsFlat, Dataspace.selectsAt, Extent.npoints, Extent.dims, unflat]
  unfold spaceFlatRunsRange at h
  simp only at h
  split at h
  · cases h
  · by_cases hout : rangeStart > 0 ∨ rangeEnd = 0
    · rw [if_pos hout] at h
      cases h
      refine ⟨fun r hr => absurd hr List.not_mem_nil, List.Pairwise.nil, fun k => ?_⟩
      rw [hflat]
      constructor
      · rintro ⟨r, hr, _⟩
        exact absurd hr List.not_mem_nil
      · omega
    · rw [if_neg hout] at h
      cases h
      refine ⟨fun r hr => ?_, List.pairwise_singleton _ _, fun k => ?_⟩
      · rw [List.mem_singleton.mp hr]
        show 0 < 1 ∧ rangeStart ≤ 0 ∧ 0 + 1 ≤ rangeEnd
        omega
      · rw [hflat]
        constructor
        · rintro ⟨r, hr, hk⟩
          rw [List.mem_singleton.mp hr] at hk
          have hzero : k = 0 := by simpa [Run.elems] using hk
          omega
        · rintro ⟨rfl, _⟩
          exact ⟨⟨0, 1⟩, List.mem_singleton_self _, by simp [Run.elems]⟩

theorem runsOf_of_some {s : Dataspace} (hwf : s.WellFormed) (hsel : s.sel = .all ∨ ∃ blocks, s.sel = .hyperslab blocks)
    {rangeStart rangeEnd maxRuns : Nat} {runs : List Run}
    (h : spaceFlatRunsRange s rangeStart rangeEnd maxRuns = some runs) : RunsOf s rangeStart rangeEnd runs := by
  obtain ⟨extent, sel⟩ := s
  cases extent with
  | null =>
    unfold spaceFlatRunsRange at h
    simp only at h
    split at h <;> cases h
  | scalar =>
    have hall : sel = .all := by
      rcases hsel with hall | ⟨blocks, hslab⟩
      · exact hall
      · rcases hwf with hall | hnone
        · exact hall
        · exact absurd (hslab.symm.trans hnone) (by simp)
    subst hall
    exact runsOf_scalar h
  | simple dims => exact runsOf_simple hwf h

/-- A decomposition that gives up on a hyperslab has more runs than the budget. -/
theorem exceeds_of_none {dims : List Nat} {blocks : List Block} {rangeStart rangeEnd maxRuns : Nat}
    (hne : dims ≠ []) (hblocks : blocks ≠ []) (hmax : 0 < maxRuns)
    (h : spaceFlatRunsRange ⟨.simple dims, .hyperslab blocks⟩ rangeStart rangeEnd maxRuns = none) :
    ∃ maxRuns' runs, spaceFlatRunsRange ⟨.simple dims, .hyperslab blocks⟩ rangeStart rangeEnd maxRuns' = some runs ∧
      maxRuns < runs.length := by
  obtain ⟨d, ds, rfl⟩ := List.exists_cons_of_ne_nil hne
  obtain ⟨b, bs, rfl⟩ := List.exists_cons_of_ne_nil hblocks
  have hspec : ∀ m, 0 < m → spaceFlatRunsRange ⟨.simple (d :: ds), .hyperslab (b :: bs)⟩ rangeStart rangeEnd m =
      (addBlocks (d :: ds) rangeStart rangeEnd m (b :: bs) []).map List.reverse := by
    intro m hm
    rw [spaceFlatRunsRange, if_neg (by omega)]
  rw [hspec maxRuns hmax, Option.map_eq_none_iff] at h
  obtain ⟨acc, hacc, hlong⟩ :=
    (addBlocks_budgeted (d :: ds) rangeStart rangeEnd (b :: bs)).exceeds (Nat.zero_le _) h
  refine ⟨acc.length, acc.reverse, ?_, by rw [List.length_reverse]; exact hlong⟩
  rw [hspec acc.length (by omega), hacc]
  rfl

/-- The decomposition of a range is exact: what it lists are the parts of the selection in the range;
it gives up only on an extent HDF5 counts as negative or when the merged, clipped runs outnumber the
budget; and it answers for a list of blocks as for those of them that touch the range. -/
theorem spaceFlatRunsRange_exact (s : Dataspace) (hwf : s.WellFormed)
    (hsel : s.sel = .all ∨ ∃ blocks, s.sel = .hyperslab blocks) (rangeStart rangeEnd maxRuns : Nat)
    (hmax : 0 < maxRuns) :
    (∀ runs, spaceFlatRunsRange s rangeStart rangeEnd maxRuns = some runs → RunsOf s rangeStart rangeEnd runs) ∧
      (spaceFlatRunsRange s rangeStart rangeEnd maxRuns = none →
        s.extent = .null ∨ s.sel = .all ∧ 2 ^ 63 ≤ s.npoints ∨
          ∃ maxRuns' runs, spaceFlatRunsRange s rangeStart rangeEnd maxRuns' = some runs ∧ maxRuns < runs.length) ∧
      ∀ dims blocks, s = ⟨.simple dims, .hyperslab blocks⟩ →
        spaceFlatRunsRange s rangeStart rangeEnd maxRuns =
          match blocks.filter (Block.touches dims rangeStart rangeEnd) with
          | [] => some []
          | b :: bs => spaceFlatRunsRange ⟨.simple dims, .hyperslab (b :: bs)⟩ rangeStart rangeEnd maxRuns := by
  refine ⟨fun runs h => runsOf_of_some hwf hsel h, fun hnone => ?_, fun dims blocks hs => ?_⟩
  · obtain ⟨extent, sel⟩ := s
    cases extent with
    | null => exact .inl rfl
    | scalar =>
      rw [spaceFlatRunsRange, if_neg (by omega)] at hnone
      simp only at hnone
      split at hnone <;> cases hnone
    | simple dims =>
      rcases hsel with rfl | ⟨blocks, rfl⟩
      · refine .inr (.inl ⟨rfl, ?_⟩)
        obtain ⟨d, ds, rfl⟩ := List.exists_cons_of_ne_nil hwf.1
        rw [spaceFlatRunsRange, if_neg (by omega)] at hnone
        simp only at hnone
        split at hnone
        · assumption
        · split at hnone <;> cases hnone
      · refine .inr (.inr (exceeds_of_none hwf.1 ?_ hmax hnone))
        rintro rfl
        exact hwf.2.2.2.2.2 rfl
  · subst hs
    obtain ⟨d, ds, rfl⟩ := List.exists_cons_of_ne_nil hwf.1
    obtain ⟨b, bs, rfl⟩ := List.exists_cons_of_ne_nil (l := blocks) (by
      rintro rfl
      exact hwf.2.2.2.2.2 rfl)
    have htouching := @addBlocks_touching (d :: ds) rangeStart rangeEnd maxRuns hwf.1 (b :: bs) []
      hwf.2.2.1
    rw [spaceFlatRunsRange, if_neg (by omega)]
    simp only
    rw [show addBlocks (d :: ds) rangeStart rangeEnd maxRuns (b :: bs) [] = _ from htouching]
    show Option.map List.reverse (addBlocks (d :: ds) rangeStart rangeEnd maxRuns
      ((b :: bs).filter (Block.touches (d :: ds) rangeStart rangeEnd)) []) = _
    cases (b :: bs).filter (Block.touches (d :: ds) rangeStart rangeEnd) with
    | nil => rfl
    | cons b' bs' =>
      simp only
      rw [spaceFlatRunsRange, if_neg (by omega)]

/-- Two columns of a 2 × 4 extent, the columns 0 and 2. -/
def columnPair : Dataspace := ⟨.simple [2, 4], .hyperslab [⟨[0, 0], [1, 0]⟩, ⟨[0, 2], [1, 2]⟩]⟩

theorem columnPair_wellFormed : columnPair.WellFormed := by
  refine ⟨by decide, by decide, by decide, ?_, by decide, by decide⟩
  show List.Pairwise _ _
  unfold Block.apart
  decide

/-- Of the flat range [2, 7) the second column alone has two elements and the first one. -/
theorem columnPair_exact :
    spaceFlatRunsRange columnPair 2 7 3 = some [⟨4, 1⟩, ⟨2, 1⟩, ⟨6, 1⟩] ∧
      RunsOf columnPair 2 7 [⟨4, 1⟩, ⟨2, 1⟩, ⟨6, 1⟩] ∧ spaceFlatRunsRange columnPair 2 7 2 = none := by
  have hruns : spaceFlatRunsRange columnPair 2 7 3 = some [⟨4, 1⟩, ⟨2, 1⟩, ⟨6, 1⟩] := by decide
  refine ⟨hruns, ?_, by decide⟩
  exact (spaceFlatRunsRange_exact columnPair columnPair_wellFormed (.inr ⟨_, rfl⟩) 2 7 3 (by decide)).1 _ hruns

/-- An extent of 2⁶³ elements, all selected. -/
def hugeExtent : Dataspace := ⟨.simple [2 ^ 63], .all⟩

/-- Its element count fits in 64 bits, but not in an `hssize_t`: no budget is enough. -/
theorem hugeExtent_refused :
    hugeExtent.WellFormed ∧ hugeExtent.sel = .all ∧ hugeExtent.npoints ≤ uint64Max ∧
      spaceFlatRunsRange hugeExtent 0 10 1 = none ∧
      ¬ ∃ maxRuns runs, spaceFlatRunsRange hugeExtent 0 10 maxRuns = some runs ∧ 1 < runs.length := by
  refine ⟨⟨by decide, by decide, by decide, List.Pairwise.nil, by decide, by decide⟩, rfl, by decide, by decide, ?_⟩
  rintro ⟨maxRuns, runs, hruns, -⟩
  rw [hugeExtent, spaceFlatRunsRange] at hruns
  simp only [show 2 ^ 63 ≤ Dataspace.npoints ⟨.simple [2 ^ 63], .all⟩ from by decide, if_true] at hruns
  split at hruns <;> cases hruns

end VolStream
