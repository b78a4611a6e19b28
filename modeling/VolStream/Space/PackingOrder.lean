import VolStream.Space.Dataspace

/-!
# The packing order of the run decomposition

HDF5 packs a selection into memory in row-major order of the *elements*; the decomposition
lists runs *block by block*. This file proves what the decomposition lists
(`spaceFlatRuns_elems`), and that slicing a packed buffer by it pairs every value with its own
element exactly when every block ends before the next one starts
(`packsInOrder_iff_blocksAscend`). Blocks of several rows placed side by side do not.
-/

namespace VolStream

open RowMajor

/-! ## Selections HDF5 accepts for I/O -/

/-- The blocks of a selection; none unless it is a hyperslab. -/
def Selection.blocks : Selection → List Block
  | .hyperslab blocks => blocks
  | _ => []

/-- A dataspace of rank at least one whose element count is a `uint64_t` and whose selection
lies in its extent (`H5Sselect_valid`). -/
structure ValidSpace where
  dims : List Nat
  sel : Selection
  rank_pos : dims ≠ []
  fits : dims.prod ≤ uint64Max
  inside : ∀ b ∈ sel.blocks, BoxIn dims b.start b.stop

def ValidSpace.space (s : ValidSpace) : Dataspace := ⟨.simple s.dims, s.sel⟩

/-- Whether the element at flat index `k` is selected. -/
def ValidSpace.selects (s : ValidSpace) (k : Nat) : Bool :=
  match s.sel with
  | .all => true
  | .hyperslab blocks => blocks.any fun b => inBox b.start b.stop (unflat s.dims k)
  | .points coords => coords.any (· = unflat s.dims k)
  | .none => false

/-- The selected elements in HDF5's row-major selection order. -/
def ValidSpace.selectionOrder (s : ValidSpace) : List Nat :=
  (List.range s.dims.prod).filter s.selects

/-! ## What the decomposition lists -/

/-- The elements of the runs recorded so far. -/
def runElems (acc : List Run) : List Nat := acc.reverse.flatMap Run.elems

theorem runElems_cons (r : Run) (acc : List Run) :
    runElems (r :: acc) = runElems acc ++ r.elems := by
  simp [runElems]

theorem addRun_elems {maxRuns cs ce : Nat} {acc acc' : List Run}
    (h : addRun maxRuns cs ce acc = some acc') :
    runElems acc' = runElems acc ++ List.range' cs (ce - cs) := by
  unfold addRun at h
  split at h
  · rename_i r rest
    split at h
    · -- the new run abuts the last one and extends it
      rename_i habut
      cases h
      rw [runElems_cons, runElems_cons, List.append_assoc]
      simp only [Run.elems]
      rw [← habut, List.range'_append_1]
    · split at h
      · cases h
      · cases h
        rw [runElems_cons]
        rfl
  · split at h
    · cases h
    · cases h
      rw [runElems_cons]
      rfl

/-- Whether the flat index `k` lies in the range asked for. -/
def inRange (rangeStart rangeEnd k : Nat) : Bool := decide (rangeStart ≤ k ∧ k < rangeEnd)

theorem filter_inRange_range' (rangeStart rangeEnd cs n : Nat) :
    (List.range' cs n).filter (inRange rangeStart rangeEnd)
      = List.range' (max cs rangeStart) (min (cs + n) rangeEnd - max cs rangeStart) := by
  -- two ascending lists with the same members
  have hasc : ((List.range' cs n).filter (inRange rangeStart rangeEnd)).Pairwise (· < ·) :=
    (List.pairwise_lt_range' (s := cs)).filter _
  refine hasc.eq_of_mem_iff List.pairwise_lt_range' ?_
  intro k
  rw [List.mem_filter, List.mem_range'_1, List.mem_range'_1, inRange, decide_eq_true_eq]
  omega

theorem clipRun_elems {rangeStart rangeEnd maxRuns cs n : Nat} {acc acc' : List Run}
    (h : clipRun rangeStart rangeEnd maxRuns cs (cs + n) acc = some acc') :
    runElems acc' = runElems acc ++ (List.range' cs n).filter (inRange rangeStart rangeEnd) := by
  rw [filter_inRange_range']
  unfold clipRun at h
  split at h
  · rename_i hge
    cases h
    rw [show min (cs + n) rangeEnd - max cs rangeStart = 0 from by omega]
    simp
  · exact addRun_elems h

theorem headD_mul_le_flat (ss r : List Nat) : r.headD 0 * ss.headD 0 ≤ flat ss r := by
  cases r with
  | nil => simp
  | cons c cs =>
    cases ss with
    | nil => simp
    | cons s ss => simp [flat_cons]

/-- The walk records what the rows the odometer visits have in the range; it stops early only
where the rows left lie past it. -/
theorem walkBlock_elems {dims : List Nat} {b : Block} {rangeStart rangeEnd maxRuns fuel : Nat}
    {cur : List Nat} {acc acc' : List Run}
    (hrows : (iterRows b.start b.stop fuel cur).Pairwise fun r r' => r.headD 0 ≤ r'.headD 0)
    (h : walkBlock dims b rangeStart rangeEnd maxRuns fuel cur acc = some acc') :
    runElems acc' = runElems acc ++ ((iterRows b.start b.stop fuel cur).flatMap fun r =>
      List.range' (flat (strides dims) r) (b.stop.getLastD 0 - b.start.getLastD 0 + 1)).filter
        (inRange rangeStart rangeEnd) := by
  induction fuel generalizing cur acc with
  | zero =>
    simp only [walkBlock, Option.some.injEq] at h
    simp [iterRows, h]
  | succ fuel ih =>
    unfold walkBlock at h
    simp only at h
    split at h
    · -- this row starts at or past the end of the range, and so does every later one
      rename_i hpast
      cases h
      have hnone : ((iterRows b.start b.stop (fuel + 1) cur).flatMap fun r =>
          List.range' (flat (strides dims) r) (b.stop.getLastD 0 - b.start.getLastD 0 + 1)).filter
            (inRange rangeStart rangeEnd) = [] := by
        rw [List.filter_eq_nil_iff]
        intro k hk
        obtain ⟨r, hr, hk⟩ := List.mem_flatMap.mp hk
        have hhead : cur.headD 0 ≤ r.headD 0 := by
          rw [iterRows] at hr hrows
          rcases List.mem_cons.mp hr with rfl | hr
          · exact Nat.le_refl _
          · exact List.rel_of_pairwise_cons hrows hr
        have hmul : cur.headD 0 * (strides dims).headD 0 ≤ r.headD 0 * (strides dims).headD 0 :=
          Nat.mul_le_mul_right _ hhead
        have hflat := headD_mul_le_flat (strides dims) r
        have hge := (List.mem_range'_1.mp hk).1
        rw [inRange, decide_eq_true_eq]
        omega
      rw [hnone, List.append_nil]
    · cases hclip : clipRun rangeStart rangeEnd maxRuns (flat (strides dims) cur)
          (flat (strides dims) cur + (b.stop.getLastD 0 - b.start.getLastD 0 + 1)) acc with
      | none => simp only [hclip, reduceCtorEq] at h
      | some acc₁ =>
        simp only [hclip] at h
        have hhead := clipRun_elems hclip
        rw [iterRows, List.flatMap_cons, List.filter_append, ← List.append_assoc, ← hhead]
        rw [iterRows] at hrows
        cases hodo : odometer b.start b.stop cur with
        | mk next rolled =>
          simp only [hodo] at h hrows
          cases rolled with
          | true =>
            -- the leading coordinates rolled over: this was the last row
            cases h
            simp
          | false => exact ih hrows.of_cons h

/-- A box's last coordinates are in order. -/
theorem getLastD_le_of_boxIn {ds bs es : List Nat} (h : BoxIn ds bs es) :
    bs.getLastD 0 ≤ es.getLastD 0 := by
  induction h with
  | nil => simp
  | @cons d b e ds bs es hbe _ hbox ih =>
    cases hbox with
    | nil => simpa using hbe
    | cons => simpa using ih

/-- The leading coordinates of the rows ascend. -/
theorem pairwise_head_rows {bs es : List Nat} :
    (rows bs es).Pairwise fun r r' => r.headD 0 ≤ r'.headD 0 := by
  unfold rows
  split
  · exact List.pairwise_singleton _ _
  · rw [List.pairwise_flatMap]
    refine ⟨?_, (List.pairwise_lt_range').imp ?_⟩
    · intro x _
      rw [List.pairwise_map]
      exact List.pairwise_of_forall fun _ _ => Nat.le_refl x
    · intro x y hxy r hr r' hr'
      obtain ⟨_, _, rfl⟩ := List.mem_map.mp hr
      obtain ⟨_, _, rfl⟩ := List.mem_map.mp hr'
      exact Nat.le_of_lt hxy
  · exact List.Pairwise.nil

/-- The rows before the first one the range reaches hold nothing of it. -/
theorem filter_boxFlat_from {d b e x rangeStart rangeEnd : Nat} {ds bs es : List Nat}
    (h : BoxIn ds bs es) (hbx : b ≤ x) (hx : x ≤ e + 1) (hskip : x * ds.prod ≤ rangeStart ∨ x = b) :
    (boxFlat (d :: ds) (b :: bs) (e :: es)).filter (inRange rangeStart rangeEnd)
      = (boxFlat (d :: ds) (x :: bs) (e :: es)).filter (inRange rangeStart rangeEnd) := by
  rcases hskip with hskip | rfl
  · have hsplit : List.range' b (e + 1 - b) = List.range' b (x - b) ++ List.range' x (e + 1 - x) := by
      rw [show List.range' x (e + 1 - x) = List.range' (b + (x - b)) (e + 1 - x) from by congr 1; omega,
        List.range'_append_1]
      congr 1
      omega
    simp only [boxFlat]
    rw [hsplit, List.flatMap_append, List.filter_append]
    have hnone : ((List.range' b (x - b)).flatMap fun x => (boxFlat ds bs es).map (x * ds.prod + ·)).filter
        (inRange rangeStart rangeEnd) = [] := by
      rw [List.filter_eq_nil_iff]
      intro k hk
      obtain ⟨y, hy, hk⟩ := List.mem_flatMap.mp hk
      obtain ⟨k', hk', rfl⟩ := List.mem_map.mp hk
      have hlt := lt_prod_of_mem_boxFlat h k' hk'
      have hyx : (y + 1) * ds.prod ≤ x * ds.prod :=
        Nat.mul_le_mul_right _ (by have := List.mem_range'_1.mp hy; omega)
      rw [Nat.add_mul, Nat.one_mul] at hyx
      rw [inRange, decide_eq_true_eq]
      omega
    rw [hnone, List.nil_append]
  · rfl

/-- A block spanning every trailing dimension is one range. -/
theorem boxFlat_of_full {dims : List Nat} {b : Block} (h : BoxIn dims b.start b.stop)
    (hne : b.start ≠ []) (hfull : b.full dims = true) :
    boxFlat dims b.start b.stop = List.range' (b.start.headD 0 * (strides dims).headD 0)
      ((b.stop.headD 0 + 1) * (strides dims).headD 0 - b.start.headD 0 * (strides dims).headD 0) := by
  obtain ⟨start, stop⟩ := b
  simp only at h hne ⊢
  cases h with
  | nil => exact absurd rfl hne
  | @cons d s e ds bs es hse hed hbox =>
    simp only [Block.full, List.tail_cons, List.all_eq_true, decide_eq_true_eq] at hfull
    obtain ⟨hzero, hlast⟩ := hfull
    have hlen : bs.length = ds.length := by
      clear hzero hlast
      induction hbox with
      | nil => rfl
      | cons _ _ _ ih => simpa using ih
    have hbs : bs = ds.map fun _ => 0 := by
      rw [List.map_const', List.eq_replicate_iff]
      exact ⟨hlen, fun x hx => by simpa using hzero x hx⟩
    have hpos : ∀ d ∈ ds, 0 < d := by
      intro d hd
      obtain ⟨before, after, rfl⟩ := List.append_of_mem hd
      have hprod := hbox.prod_pos
      rw [List.prod_append, List.prod_cons] at hprod
      exact Nat.pos_of_mul_pos_right (Nat.pos_of_mul_pos_left hprod)
    simp only [List.headD_cons, strides, boxFlat]
    rw [hbs, hlast, boxFlat_whole ds hpos]
    simp only [List.map_add_range', Nat.add_zero]
    rw [flatMap_range'_mul, Nat.sub_mul]

/-- What handles one block: nothing of it is in the range, or it is one run, or the odometer walks
its rows from the first one the range reaches. -/
theorem addBlock_cases {dims : List Nat} {b : Block} (rangeStart rangeEnd maxRuns : Nat) (acc : List Run)
    (hbox : BoxIn dims b.start b.stop) (hne : dims ≠ []) :
    (∀ k ∈ boxFlat dims b.start b.stop, inRange rangeStart rangeEnd k = false) ∧
        addBlock dims rangeStart rangeEnd maxRuns b acc = some acc ∨
      (∃ cs n, boxFlat dims b.start b.stop = List.range' cs n ∧
        addBlock dims rangeStart rangeEnd maxRuns b acc = clipRun rangeStart rangeEnd maxRuns cs (cs + n) acc) ∨
      ∃ cur, BoxIn dims cur b.stop ∧ cur.getLastD 0 = b.start.getLastD 0 ∧ cur ≠ [] ∧
        iterRows b.start b.stop b.nRows cur = rows cur b.stop ∧
        (boxFlat dims b.start b.stop).filter (inRange rangeStart rangeEnd)
          = (boxFlat dims cur b.stop).filter (inRange rangeStart rangeEnd) ∧
        addBlock dims rangeStart rangeEnd maxRuns b acc =
          walkBlock dims b rangeStart rangeEnd maxRuns b.nRows cur acc := by
  have hstart : b.start ≠ [] := by
    intro hnil
    rw [hnil] at hbox
    generalize b.stop = stop at hbox
    cases hbox
    exact hne rfl
  unfold addBlock
  by_cases hdims : 1 < dims.length ∧ 0 < (strides dims).headD 0
  · simp only [if_pos hdims]
    by_cases hfull : b.full dims = true
    · -- the block spans every trailing dimension: one run
      rw [if_pos hfull]
      refine .inr (.inl ⟨_, _, boxFlat_of_full hbox hstart hfull, ?_⟩)
      have hheads : b.start.headD 0 ≤ b.stop.headD 0 := by
        generalize b.start = start, b.stop = stop at hbox
        cases hbox with
        | nil => exact Nat.le_refl _
        | cons hse _ _ => exact hse
      have : b.start.headD 0 * (strides dims).headD 0 ≤ (b.stop.headD 0 + 1) * (strides dims).headD 0 :=
        Nat.mul_le_mul_right _ (by omega)
      congr 1
      omega
    · rw [if_neg hfull]
      obtain ⟨start, stop⟩ := b
      cases hbox with
      | nil => exact absurd rfl hne
      | @cons d s e ds bs es hse hed hbox =>
        have hbs : bs ≠ [] := by
          rintro rfl
          cases hbox
          exact absurd hdims.1 (by simp)
        have hdiv : rangeStart / ds.prod * ds.prod ≤ rangeStart := Nat.div_mul_le_self _ _
        show _ ∧ (if max s (rangeStart / ds.prod) > e then _ else _) = _ ∨ _
        by_cases hpast : max s (rangeStart / ds.prod) > e
        · -- every row ends before the range starts
          refine .inl ⟨?_, if_pos hpast⟩
          have hnone : (boxFlat (d :: ds) (s :: bs) (e :: es)).filter (inRange rangeStart rangeEnd) = [] := by
            rw [filter_boxFlat_from hbox (x := e + 1) (by omega) (Nat.le_refl _)]
            · simp [boxFlat]
            · left
              calc (e + 1) * ds.prod ≤ rangeStart / ds.prod * ds.prod := Nat.mul_le_mul_right _ (by omega)
                _ ≤ rangeStart := hdiv
          intro k hk
          simpa using List.filter_eq_nil_iff.mp hnone k hk
        · refine .inr (.inr ⟨max s (rangeStart / ds.prod) :: bs, BoxIn.cons (by omega) hed hbox, ?_,
            List.cons_ne_nil _ _, ?_, ?_, if_neg hpast⟩)
          · obtain ⟨c, cs, rfl⟩ := List.exists_cons_of_ne_nil hbs
            simp
          · exact iterRows_from (BoxIn.cons hse hed hbox) hbs (by omega) (by omega) (Nat.le_refl _)
          · apply filter_boxFlat_from hbox (by omega) (by omega)
            rcases Nat.le_total s (rangeStart / ds.prod) with hle | hle
            · left
              rw [Nat.max_eq_right hle]
              exact hdiv
            · right
              exact Nat.max_eq_left hle
  · simp only [if_neg hdims]
    exact .inr (.inr ⟨b.start, hbox, rfl, hstart, iterRows_eq_rows hbox hstart (Nat.le_refl _), rfl, rfl⟩)

/-- One block contributes what it has in the range in row-major order, whichever branch handles it. -/
theorem addBlock_elems {dims : List Nat} {b : Block} {rangeStart rangeEnd maxRuns : Nat} {acc acc' : List Run}
    (hbox : BoxIn dims b.start b.stop) (hne : dims ≠ [])
    (h : addBlock dims rangeStart rangeEnd maxRuns b acc = some acc') :
    runElems acc' = runElems acc ++ (boxFlat dims b.start b.stop).filter (inRange rangeStart rangeEnd) := by
  rcases addBlock_cases rangeStart rangeEnd maxRuns acc hbox hne with
    ⟨hout, heq⟩ | ⟨cs, n, hflat, heq⟩ | ⟨cur, hcur, hlast, hcne, hiter, hflat, heq⟩
  · rw [heq] at h
    cases h
    rw [List.filter_eq_nil_iff.mpr fun k hk => by rw [hout k hk]; decide, List.append_nil]
  · rw [heq] at h
    rw [hflat]
    exact clipRun_elems h
  · rw [heq] at h
    have hle := getLastD_le_of_boxIn hcur
    rw [hflat, walkBlock_elems (by rw [hiter]; exact pairwise_head_rows) h, hiter,
      ← rows_flatMap_eq_boxFlat hcur hcne, ← hlast,
      show b.stop.getLastD 0 + 1 - cur.getLastD 0 = b.stop.getLastD 0 - cur.getLastD 0 + 1 from by omega]

theorem addBlocks_elems {dims : List Nat} {rangeStart rangeEnd maxRuns : Nat} (hne : dims ≠ []) :
    ∀ {blocks : List Block} {acc acc' : List Run},
    (∀ b ∈ blocks, BoxIn dims b.start b.stop) →
    addBlocks dims rangeStart rangeEnd maxRuns blocks acc = some acc' →
    runElems acc' = runElems acc ++ (blocks.flatMap fun b => boxFlat dims b.start b.stop).filter
      (inRange rangeStart rangeEnd)
  | [], acc, acc', _, h => by
      simp only [addBlocks, Option.some.injEq] at h
      simp [h]
  | b :: bs, acc, acc', hbox, h => by
      unfold addBlocks at h
      split at h
      · cases h
      · rename_i acc₁ hb
        rw [addBlocks_elems hne (fun b' hb' => hbox b' (List.mem_cons_of_mem _ hb')) h,
          addBlock_elems (hbox b (by simp)) hne hb, List.flatMap_cons, List.filter_append, List.append_assoc]

/-- The decomposition of a range lists the blocks one after another, each in row-major order, and of each
what it has in the range. -/
theorem spaceFlatRunsRange_elems (s : ValidSpace) {rangeStart rangeEnd maxRuns : Nat} {runs : List Run}
    (h : spaceFlatRunsRange s.space rangeStart rangeEnd maxRuns = some runs) :
    (s.sel = .all ∧ runs.flatMap Run.elems = (List.range s.dims.prod).filter (inRange rangeStart rangeEnd)) ∨
      ∃ blocks, s.sel = .hyperslab blocks ∧ runs.flatMap Run.elems =
        (blocks.flatMap fun b => boxFlat s.dims b.start b.stop).filter (inRange rangeStart rangeEnd) := by
  obtain ⟨dims, sel, hne, hfits, inside⟩ := s
  simp only [ValidSpace.space, spaceFlatRunsRange] at h ⊢
  split at h
  · cases h
  · obtain ⟨d, ds, rfl⟩ := List.exists_cons_of_ne_nil hne
    cases sel with
    | none => cases h
    | points => cases h
    | all =>
      refine .inl ⟨rfl, ?_⟩
      rw [List.range_eq_range', filter_inRange_range', Nat.zero_add, Nat.zero_max]
      change (if 2 ^ 63 ≤ (d :: ds).prod then none else if rangeStart ≥ min (d :: ds).prod rangeEnd then some []
        else some [⟨rangeStart, min (d :: ds).prod rangeEnd - rangeStart⟩]) = some runs at h
      rw [if_neg fun hneg => by rw [if_pos hneg] at h; cases h] at h
      by_cases hge : rangeStart ≥ min (d :: ds).prod rangeEnd
      · rw [if_pos hge] at h
        cases h
        rw [show min (d :: ds).prod rangeEnd - rangeStart = 0 from by omega]
        rfl
      · rw [if_neg hge] at h
        cases h
        simp [Run.elems]
    | hyperslab blocks =>
      cases blocks with
      | nil => cases h
      | cons b bs =>
        obtain ⟨acc, hacc, rfl⟩ := Option.map_eq_some_iff.mp h
        exact .inr ⟨_, rfl, addBlocks_elems hne inside hacc⟩

/-- The decomposition lists the blocks one after another, each in row-major order. -/
theorem spaceFlatRuns_elems (s : ValidSpace) {maxRuns : Nat} {runs : List Run}
    (h : spaceFlatRuns s.space maxRuns = some runs) :
    (s.sel = .all ∧ runs.flatMap Run.elems = List.range s.dims.prod) ∨
      ∃ blocks, s.sel = .hyperslab blocks ∧
        runs.flatMap Run.elems = blocks.flatMap fun b => boxFlat s.dims b.start b.stop := by
  have hwhole : ∀ k, k < s.dims.prod → inRange 0 uint64Max k = true := by
    intro k hk
    have := s.fits
    rw [inRange, decide_eq_true_eq]
    omega
  rcases spaceFlatRunsRange_elems s h with ⟨hsel, helems⟩ | ⟨blocks, hsel, helems⟩
  · rw [helems, List.filter_eq_self.mpr fun k hk => hwhole k (List.mem_range.mp hk)]
    exact .inl ⟨hsel, rfl⟩
  · refine .inr ⟨blocks, hsel, ?_⟩
    rw [helems, List.filter_eq_self]
    intro k hk
    obtain ⟨b, hb, hk⟩ := List.mem_flatMap.mp hk
    exact hwhole k (lt_prod_of_mem_boxFlat (s.inside b (by rw [hsel]; exact hb)) k hk)

/-! ## Slicing a packed buffer by the runs -/

/-- The element each pushed value is labelled with. -/
def Push.pairs {α : Type} (p : Push α) : List (Nat × α) := (List.range' p.start p.count).zip p.data

/-- The push loop hands out the payload in order, labelled with the runs' elements in order. -/
theorem pushRuns_pairs {α : Type} (payload : List α) : ∀ (runs : List Run) (bufElem : Nat),
    bufElem + (runs.flatMap Run.elems).length ≤ payload.length →
    (pushRuns payload bufElem runs).flatMap Push.pairs
      = (runs.flatMap Run.elems).zip (payload.drop bufElem)
  | [], _, _ => by simp [pushRuns]
  | r :: rs, bufElem, hlen => by
      rw [List.flatMap_cons, List.length_append, Run.elems, List.length_range'] at hlen
      have hrest := pushRuns_pairs payload rs (bufElem + r.count) (by omega)
      have hsplit : payload.drop bufElem
          = (payload.drop bufElem).take r.count ++ payload.drop (bufElem + r.count) := by
        rw [← List.drop_drop, List.take_append_drop]
      rw [pushRuns, List.flatMap_cons, hrest, List.flatMap_cons, hsplit, List.zip_append]
      · rw [← hsplit]
        rfl
      · rw [Run.elems, List.length_range', List.length_take, List.length_drop]
        omega

/-- One run of a buffer, read element by element. -/
theorem take_drop_map_some {α : Type} (buf : List α) (start count : Nat)
    (h : ∀ k ∈ List.range' start count, k < buf.length) :
    ((buf.drop start).take count).map some = (List.range' start count).map (buf[·]?) := by
  apply List.ext_getElem?
  intro i
  by_cases hi : i < count
  · have hin : start + i < buf.length := h _ (by rw [List.mem_range'_1]; omega)
    simp [hi, hin]
  · simp [hi]

/-- The gather loop packs the runs' elements in order. -/
theorem gatherRuns_eq {α : Type} (buf : List α) (nElem : Nat) :
    ∀ (runs : List Run) (done : Nat) (out : List α),
    done + (runs.flatMap Run.elems).length = nElem →
    (∀ k ∈ runs.flatMap Run.elems, k < buf.length) →
    ∃ out', gatherRuns buf nElem runs done out = some out' ∧
      out'.map some = out.map some ++ (runs.flatMap Run.elems).map (buf[·]?)
  | [], done, out, hlen, _ => ⟨out, by simpa [gatherRuns] using hlen, by simp⟩
  | r :: rs, done, out, hlen, hmem => by
      rw [List.flatMap_cons] at hlen hmem
      rw [List.length_append, Run.elems, List.length_range'] at hlen
      obtain ⟨out', hout', heq⟩ := gatherRuns_eq buf nElem rs (done + r.count)
        (out ++ (buf.drop r.start).take r.count) (by omega)
        (fun k hk => hmem k (List.mem_append_right _ hk))
      refine ⟨out', ?_, ?_⟩
      · rw [gatherRuns, if_neg (by omega)]
        exact hout'
      · rw [heq, List.map_append, take_drop_map_some buf _ _
          (fun k hk => hmem k (List.mem_append_left _ hk)), List.flatMap_cons,
          List.map_append, List.append_assoc]
        rfl

/-- `runs` decompose the selection in packing order: they list the selected elements in
selection order, so the push loops and the gather loop pair every value with its own element. -/
structure PacksInOrder (s : ValidSpace) (runs : List Run) : Prop where
  order : runs.flatMap Run.elems = s.selectionOrder
  pushes : ∀ {α : Type} (payload : List α), payload.length = s.selectionOrder.length →
    (pushRuns payload 0 runs).flatMap Push.pairs = s.selectionOrder.zip payload
  gathers : ∀ {α : Type} (buf : List α), buf.length = s.dims.prod →
    (spaceFlatRuns s.space maxPushRuns).isSome →
    ∃ out, gatherMem buf (some s.space) s.selectionOrder.length = some out ∧
      out.map some = s.selectionOrder.map (buf[·]?)

/-- Every block ends before every later block starts, in flat order. -/
def BlocksAscend (s : ValidSpace) : Prop :=
  s.sel.blocks.Pairwise fun a b => flat (strides s.dims) a.stop < flat (strides s.dims) b.start

theorem selectionOrder_pairwise (s : ValidSpace) : s.selectionOrder.Pairwise (· < ·) :=
  (List.pairwise_lt_range).filter _

theorem selectionOrder_all {s : ValidSpace} (hsel : s.sel = .all) :
    s.selectionOrder = List.range s.dims.prod := by
  simp [ValidSpace.selectionOrder, ValidSpace.selects, hsel]

theorem lt_prod_of_mem_selectionOrder {s : ValidSpace} {k : Nat} (h : k ∈ s.selectionOrder) :
    k < s.dims.prod :=
  List.mem_range.mp (List.mem_filter.mp h).1

/-- Block by block and element by element list the same elements. -/
theorem mem_selectionOrder_hyperslab {s : ValidSpace} {blocks : List Block}
    (hsel : s.sel = .hyperslab blocks) (k : Nat) :
    (k ∈ blocks.flatMap fun b => boxFlat s.dims b.start b.stop) ↔ k ∈ s.selectionOrder := by
  have hbox : ∀ b ∈ blocks, BoxIn s.dims b.start b.stop := by
    intro b hb
    exact s.inside b (by rw [hsel]; exact hb)
  simp only [ValidSpace.selectionOrder, ValidSpace.selects, hsel, List.mem_flatMap, List.mem_filter,
    List.mem_range, List.any_eq_true]
  constructor
  · rintro ⟨b, hb, hk⟩
    have := (mem_boxFlat (hbox b hb) k).mp hk
    exact ⟨this.1, b, hb, this.2⟩
  · rintro ⟨hlt, b, hb, hin⟩
    exact ⟨b, hb, (mem_boxFlat (hbox b hb) k).mpr ⟨hlt, hin⟩⟩

/-- The blocks listed one after another ascend exactly when each ends before the next starts. -/
theorem flatMap_boxFlat_pairwise_iff {s : ValidSpace} {blocks : List Block}
    (hsel : s.sel = .hyperslab blocks) :
    (blocks.flatMap fun b => boxFlat s.dims b.start b.stop).Pairwise (· < ·) ↔ BlocksAscend s := by
  have hbox : ∀ b ∈ blocks, BoxIn s.dims b.start b.stop := by
    intro b hb
    exact s.inside b (by rw [hsel]; exact hb)
  rw [List.pairwise_flatMap, BlocksAscend, hsel]
  constructor
  · rintro ⟨_, hcross⟩
    refine hcross.imp_of_mem ?_
    intro a b ha hb hlt
    exact hlt _ (boxFlat_corners (hbox a ha)).2.1 _ (boxFlat_corners (hbox b hb)).1
  · intro hasc
    refine ⟨fun b hb => boxFlat_pairwise (hbox b hb), hasc.imp_of_mem ?_⟩
    intro a b ha hb hlt k hk l hl
    have hka := (boxFlat_corners (hbox a ha)).2.2 k hk
    have hlb := (boxFlat_corners (hbox b hb)).2.2 l hl
    omega

/-- The runs list the selection in selection order exactly when the blocks ascend. -/
theorem runs_order_iff (s : ValidSpace) {maxRuns : Nat} {runs : List Run}
    (h : spaceFlatRuns s.space maxRuns = some runs) :
    runs.flatMap Run.elems = s.selectionOrder ↔ BlocksAscend s := by
  rcases spaceFlatRuns_elems s h with ⟨hsel, helems⟩ | ⟨blocks, hsel, helems⟩
  · rw [helems, selectionOrder_all hsel]
    simp [BlocksAscend, hsel, Selection.blocks]
  · rw [helems, ← flatMap_boxFlat_pairwise_iff hsel]
    constructor
    · intro heq
      rw [heq]
      exact selectionOrder_pairwise s
    · intro hasc
      -- two ascending lists with the same members
      exact hasc.eq_of_mem_iff (selectionOrder_pairwise s) (mem_selectionOrder_hyperslab hsel)

/-- A packed memory selection selects the leading elements of the buffer. -/
theorem selectionOrder_of_packed {s : ValidSpace} (hasc : BlocksAscend s)
    (hpacked : memSelIsPacked (some s.space) s.selectionOrder.length = true) :
    s.selectionOrder = List.range' 0 s.selectionOrder.length := by
  unfold memSelIsPacked at hpacked
  simp only at hpacked
  split at hpacked
  · rename_i hall
    rw [selectionOrder_all hall, List.length_range, List.range_eq_range']
  · split at hpacked
    · rename_i run hrun
      simp only [decide_eq_true_eq] at hpacked
      have horder := (runs_order_iff s hrun).mpr hasc
      rw [List.flatMap_cons, List.flatMap_nil, List.append_nil, Run.elems, hpacked.1, hpacked.2]
        at horder
      exact horder.symm
    · cases hpacked

/-- Slicing by the runs is right exactly when no block starts before an earlier one has ended. -/
theorem packsInOrder_iff_blocksAscend (s : ValidSpace) (maxRuns : Nat) (runs : List Run)
    (h : spaceFlatRuns s.space maxRuns = some runs) :
    PacksInOrder s runs ↔ BlocksAscend s := by
  constructor
  · intro hpack
    exact (runs_order_iff s h).mp hpack.order
  · intro hasc
    have horder := (runs_order_iff s h).mpr hasc
    refine ⟨horder, ?_, ?_⟩
    · intro α payload hlen
      rw [pushRuns_pairs payload runs 0 (by rw [horder]; omega), horder, List.drop_zero]
    · intro α buf hbuf hsome
      have hin : ∀ k ∈ s.selectionOrder, k < buf.length := by
        intro k hk
        rw [hbuf]
        exact lt_prod_of_mem_selectionOrder hk
      obtain ⟨runs', hruns'⟩ := Option.isSome_iff_exists.mp hsome
      have horder' := (runs_order_iff s hruns').mpr hasc
      have hgather := gatherRuns_eq buf s.selectionOrder.length runs' 0 []
        (by rw [horder']; omega) (by rw [horder']; exact hin)
      rw [horder', List.map_nil, List.nil_append] at hgather
      unfold gatherMem
      split
      · -- the packed shape: the first `n` elements of the buffer are the selected ones
        rename_i hpacked
        have hfirst := selectionOrder_of_packed hasc hpacked
        have hcopy := take_drop_map_some buf 0 s.selectionOrder.length (by rw [← hfirst]; exact hin)
        rw [List.drop_zero, ← hfirst] at hcopy
        exact ⟨_, rfl, hcopy⟩
      · simp only [hruns']
        exact hgather

/-- Two columns of a 2 × 4 extent: blocks two rows tall, side by side. -/
def twoColumns : ValidSpace where
  dims := [2, 4]
  sel := .hyperslab [⟨[0, 0], [1, 0]⟩, ⟨[0, 2], [1, 2]⟩]
  rank_pos := by decide
  fits := by decide
  inside := by decide

/-- The two columns are listed one after the other, the selection order goes row by row. -/
theorem twoColumns_not_packsInOrder :
    spaceFlatRuns twoColumns.space maxPushRuns = some [⟨0, 1⟩, ⟨4, 1⟩, ⟨2, 1⟩, ⟨6, 1⟩] ∧
      twoColumns.selectionOrder = [0, 2, 4, 6] ∧
      (∀ k ∈ boxFlat [2, 4] [0, 0] [1, 0], k ∉ boxFlat [2, 4] [0, 2] [1, 2]) ∧
      ¬ PacksInOrder twoColumns [⟨0, 1⟩, ⟨4, 1⟩, ⟨2, 1⟩, ⟨6, 1⟩] := by
  refine ⟨by decide, by decide, by decide, ?_⟩
  intro hpack
  exact absurd hpack.order (by decide)

/-- Two full rows and a half one: a leading slab, one run. -/
def leadingRows : ValidSpace where
  dims := [3, 4]
  sel := .hyperslab [⟨[0, 0], [1, 3]⟩, ⟨[2, 0], [2, 1]⟩]
  rank_pos := by decide
  fits := by decide
  inside := by decide

theorem leadingRows_packsInOrder :
    spaceFlatRuns leadingRows.space maxPushRuns = some [⟨0, 10⟩] ∧
      PacksInOrder leadingRows [⟨0, 10⟩] := by
  have hruns : spaceFlatRuns leadingRows.space maxPushRuns = some [⟨0, 10⟩] := by decide
  refine ⟨hruns, (packsInOrder_iff_blocksAscend leadingRows maxPushRuns _ hruns).mpr ?_⟩
  show List.Pairwise _ _
  decide

end VolStream
