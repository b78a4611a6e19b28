import VolStream.Space.Bounds
import VolStream.Manifest

/-!
# Serving a pushed run from the stored chunk

A subscriber that asks for the filters a dataset is already stored under can be served the stored
chunk (`H5VL__stream_refilter_zero_copy`) where the slow path would filter the run again. The fast
path is accepted on a start of 0 and on element counts alone; the chunk is an `n`-dimensional box and
the run a flat range. `refilterZeroCopy_exact_iff` says when the two hold the same values.
-/

namespace RowMajor

/-! ## A box at the origin and the flat range of its length -/

/-- The box `chunk` at the origin of `dims` is the flat range `[0, chunk.prod)`: leading dimensions of
one, one dimension cut short, and whole dimensions after it. -/
def leads : List Nat → List Nat → Bool
  | [], [] => true
  | d :: ds, c :: cs => decide (c ≤ d) && (if c = 1 then leads ds cs else decide (cs = ds))
  | _, _ => false

theorem prod_pos_of_pos {chunk : List Nat} (hpos : ∀ c ∈ chunk, 0 < c) : 0 < chunk.prod := by
  induction chunk with
  | nil => simp
  | cons c cs ih =>
    rw [List.prod_cons]
    exact Nat.mul_pos (hpos c List.mem_cons_self) (ih fun c' hc' => hpos c' (List.mem_cons_of_mem _ hc'))

theorem flat_unflat_zero (dims chunk : List Nat) : flat (strides dims) (unflat chunk 0) = 0 := by
  induction chunk generalizing dims with
  | nil => simp [flat, unflat]
  | cons c cs ih =>
    cases dims with
    | nil => simp [flat, strides]
    | cons d ds =>
      rw [strides, unflat, flat_cons, Nat.zero_div, Nat.zero_mod, ih]
      omega

end RowMajor

namespace VolStream

open RowMajor

/-- Element `j` of the box is element `j` of the extent. -/
def LeadsAt (dims chunk : List Nat) (j : Nat) : Prop :=
  inExtent dims (unflat chunk j) = true ∧ flat (strides dims) (unflat chunk j) = j

theorem leadsAt_cons {d c j : Nat} {ds cs : List Nat} : LeadsAt (d :: ds) (c :: cs) j ↔
    j / cs.prod < d ∧ inExtent ds (unflat cs (j % cs.prod)) = true ∧
      j / cs.prod * ds.prod + flat (strides ds) (unflat cs (j % cs.prod)) = j := by
  simp only [LeadsAt, unflat, inExtent, strides, flat_cons, Bool.and_eq_true, decide_eq_true_eq, and_assoc]

/-- A box that leads has no more elements than the extent. -/
theorem prod_le_of_leads {dims chunk : List Nat} (hpos : ∀ c ∈ chunk, 0 < c) (h : leads dims chunk = true) :
    chunk.prod ≤ dims.prod := by
  induction dims generalizing chunk with
  | nil =>
    cases chunk with
    | nil => exact Nat.le_refl _
    | cons => cases h
  | cons d ds ih =>
    cases chunk with
    | nil => cases h
    | cons c cs =>
      simp only [leads, Bool.and_eq_true, decide_eq_true_eq] at h
      rw [List.prod_cons, List.prod_cons]
      refine Nat.mul_le_mul h.1 ?_
      split at h
      · exact ih (fun c' hc' => hpos c' (List.mem_cons_of_mem _ hc')) h.2
      · rw [of_decide_eq_true h.2]

/-- A box that leads and has as many elements as the extent is the extent. -/
theorem eq_of_leads {dims chunk : List Nat} (hpos : ∀ c ∈ chunk, 0 < c) (h : leads dims chunk = true)
    (hprod : dims.prod = chunk.prod) : chunk = dims := by
  induction dims generalizing chunk with
  | nil =>
    cases chunk with
    | nil => rfl
    | cons => cases h
  | cons d ds ih =>
    cases chunk with
    | nil => cases h
    | cons c cs =>
      have hc := hpos c List.mem_cons_self
      have hcs := prod_pos_of_pos fun c' hc' => hpos c' (List.mem_cons_of_mem c hc')
      simp only [leads, Bool.and_eq_true, decide_eq_true_eq] at h
      rw [List.prod_cons, List.prod_cons] at hprod
      split at h
      · rename_i hone
        have hrest := prod_le_of_leads (fun c' hc' => hpos c' (List.mem_cons_of_mem _ hc')) h.2
        have hds : ds.prod = cs.prod := by nlinarith
        have hd : d = c := by nlinarith
        rw [hd, ih (fun c' hc' => hpos c' (List.mem_cons_of_mem _ hc')) h.2 hds]
      · have heq := of_decide_eq_true h.2
        subst heq
        rw [Nat.mul_right_cancel hcs hprod]

/-- The box is the leading flat range exactly when its shape leads. -/
theorem leads_iff {dims chunk : List Nat} (hlen : chunk.length = dims.length) (hpos : ∀ c ∈ chunk, 0 < c) :
    leads dims chunk = true ↔ ∀ j, j < chunk.prod → LeadsAt dims chunk j := by
  induction dims generalizing chunk with
  | nil =>
    have hnil : chunk = [] := List.length_eq_zero_iff.mp hlen
    subst hnil
    refine ⟨fun _ j hj => ?_, fun _ => rfl⟩
    have : j = 0 := by simpa using hj
    subst this
    exact ⟨rfl, rfl⟩
  | cons d ds ih =>
    cases chunk with
    | nil => cases hlen
    | cons c cs =>
      have hc := hpos c List.mem_cons_self
      have hposs : ∀ c' ∈ cs, 0 < c' := fun c' hc' => hpos c' (List.mem_cons_of_mem _ hc')
      have hcs := prod_pos_of_pos hposs
      have ih := ih (Nat.succ_inj.mp hlen) hposs
      simp only [leads, Bool.and_eq_true, decide_eq_true_eq, List.prod_cons, leadsAt_cons]
      by_cases hone : c = 1
      · -- a leading one: the box lies in the first row
        subst hone
        rw [if_pos rfl, ih, Nat.one_mul]
        constructor
        · intro h j hj
          rw [Nat.div_eq_of_lt hj, Nat.mod_eq_of_lt hj, Nat.zero_mul, Nat.zero_add]
          exact ⟨by omega, h.2 j hj⟩
        · intro h
          refine ⟨?_, fun j hj => ?_⟩
          · have := (h 0 hcs).1
            rw [Nat.zero_div] at this
            omega
          · have := h j hj
            rw [Nat.div_eq_of_lt hj, Nat.mod_eq_of_lt hj, Nat.zero_mul, Nat.zero_add] at this
            exact this.2
      · rw [if_neg hone]
        constructor
        · rintro ⟨hcd, heq⟩ j hj
          have heq := of_decide_eq_true heq
          subst heq
          have hrow : j / cs.prod < c := (Nat.div_lt_iff_lt_mul hcs).mpr hj
          refine ⟨by omega, inExtent_unflat (Nat.mod_lt _ hcs), ?_⟩
          rw [flat_unflat (Nat.mod_lt _ hcs), Nat.mul_comm]
          exact Nat.div_add_mod j cs.prod
        · intro h
          have htwo : 2 * cs.prod ≤ c * cs.prod := Nat.mul_le_mul_right _ (by omega)
          -- the first row of the box is a flat range, and the second one follows it
          have hrest : leads ds cs = true := by
            rw [ih]
            intro j hj
            have := h j (by omega)
            rw [Nat.div_eq_of_lt hj, Nat.mod_eq_of_lt hj, Nat.zero_mul, Nat.zero_add] at this
            exact this.2
          have hsecond := (h cs.prod (by omega)).2.2
          rw [Nat.div_self hcs, Nat.mod_self, flat_unflat_zero] at hsecond
          have heq := eq_of_leads hposs hrest (by omega)
          have hlast := (h ((c - 1) * cs.prod) (Nat.mul_lt_mul_of_pos_right (by omega) hcs)).1
          rw [Nat.mul_div_cancel _ hcs] at hlast
          exact ⟨by omega, decide_eq_true heq⟩

/-! ## HDF5's side -/

/-- A decoded creation property list, as `H5Pequal` compares it: the chunk dimensions of a chunked layout,
the filters, and the rest. -/
structure Dcpl where
  chunk : Option (List Nat)
  nfilters : Nat
  other : Bytes
deriving DecidableEq, Repr

/-- What HDF5 does to values on their way to a subscriber. `α` is a value of the memory type of a write,
`σ` one of the dataset's own type, `φ` a filtered chunk. A chunk is filtered from its elements and comes
out of the same filters as it went in; stored bytes are read again as the memory type, which `reread`
refuses when the two types differ in size. -/
structure H5Chunks (α σ φ : Type) where
  pdecode : Bytes → Option Dcpl
  store : α → σ
  reread : σ → Option α
  filterStored : Dcpl → List σ → φ
  filter : Dcpl → List α → φ
  unfilter : Dcpl → φ → Option (List α)
  unfilter_filter : ∀ d l, unfilter d (filter d l) = some l
  unfilter_filterStored : ∀ d l, unfilter d (filterStored d l) = l.mapM reread

/-- The dataset replay writes to: the element at each flat index, and what an edge chunk holds past the
extent. -/
structure StoredDataset (σ : Type) where
  dims : List Nat
  contents : Nat → σ
  outside : List Nat → σ

variable {α σ φ : Type}

/-- `H5VLdataset_write` of a packed payload: the selected elements, in selection order, take its values. -/
def StoredDataset.write (d : StoredDataset σ) (store : α → σ) (order : List Nat) (payload : List α) :
    StoredDataset σ :=
  { d with contents := fun k => (payload[order.idxOf k]?).elim (d.contents k) store }

/-- The chunk at offset 0, row-major in its own shape. -/
def StoredDataset.firstChunk (d : StoredDataset σ) (chunk : List Nat) : List σ :=
  (List.range chunk.prod).map fun j =>
    let c := unflat chunk j
    if inExtent d.dims c then d.contents (flat (strides d.dims) c) else d.outside c

/-! ## The two paths -/

/-- `H5VL_stream_native_chunk_ctx_t`. -/
structure NativeChunkCtx (σ : Type) where
  underDset : StoredDataset σ
  writeStart : Nat
  totalElems : Nat

/-- `H5VL__stream_refilter_zero_copy`; `none` declines. -/
def refilterZeroCopy (h5 : H5Chunks α σ φ) (elemSize count : Nat) (dcplEnc : Bytes) (nativeDcplEnc : Option Bytes)
    (nativeCtx : Option (NativeChunkCtx σ)) : Option φ :=
  match nativeCtx, nativeDcplEnc with
  | some ctx, some nativeEnc =>
      if ctx.writeStart ≠ 0 ∨ ctx.totalElems ≠ count ∨ elemSize = 0 then none
      else match h5.pdecode dcplEnc, h5.pdecode nativeEnc with
        | some sub, some nat =>
            if sub ≠ nat then none
            else match nat.chunk with
              | none => none
              | some chunk =>
                  if chunk.prod % 2 ^ 64 ≠ count then none
                  else some (h5.filterStored nat (ctx.underDset.firstChunk chunk))
        | _, _ => none
  | _, _ => none

/-- What `H5VL__stream_refilter_for_subscriber` does when the fast path declines: a throwaway dataset of one
chunk, written with the run. -/
def refilterSlowly (h5 : H5Chunks α σ φ) (rawBuf : List α) (dcplEnc : Bytes) : Option φ :=
  (h5.pdecode dcplEnc).map fun dcpl => h5.filter dcpl rawBuf

/-- `H5VL__stream_refilter_for_subscriber`. -/
def refilterForSubscriber (h5 : H5Chunks α σ φ) (rawBuf : List α) (elemSize count : Nat) (dcplEnc : Bytes)
    (nativeDcplEnc : Option Bytes) (nativeCtx : Option (NativeChunkCtx σ)) : Option φ :=
  if count = 0 then none
  else (refilterZeroCopy h5 elemSize count dcplEnc nativeDcplEnc nativeCtx).or (refilterSlowly h5 rawBuf dcplEnc)

/-- `H5VL__stream_unfilter_pushed_data`, on the receiving side. -/
def unfilterPushedData (h5 : H5Chunks α σ φ) (filtered : φ) (dcplEnc : Bytes) (count : Nat) : Option (List α) :=
  if count = 0 then none
  else (h5.pdecode dcplEnc).bind fun dcpl => h5.unfilter dcpl filtered

/-- What replay offers the fast path of a dataset created under `createDcplEnc`: only a chunked and
filtered one has a stored chunk to serve. -/
def offeredDcpl (h5 : H5Chunks α σ φ) (createDcplEnc : Option Bytes) : Option Bytes :=
  createDcplEnc.filter fun enc =>
    (h5.pdecode enc).any fun nat => decide (nat.chunk.isSome ∧ 0 < nat.nfilters)

/-- The context replay hands over with one push: the dataset just written, described by the run. -/
def pushCtx (dset : StoredDataset σ) (native : Option Bytes) (p : Push α) : Option (NativeChunkCtx σ) :=
  native.map fun _ => ⟨dset, p.start, p.count⟩

/-- The fast path can apply to the subscriber at all: it asks for the property list the dataset was created
under, whose layout is chunked by `chunk`. -/
def Offered (h5 : H5Chunks α σ φ) (elemSize : Nat) (createDcplEnc : Option Bytes) (dcplEnc : Bytes)
    (chunk : List Nat) : Prop :=
  elemSize ≠ 0 ∧ ∃ enc nat, createDcplEnc = some enc ∧ h5.pdecode enc = some nat ∧ h5.pdecode dcplEnc = some nat ∧
    0 < nat.nfilters ∧ nat.chunk = some chunk

theorem refilterZeroCopy_push {h5 : H5Chunks α σ φ} {elemSize count : Nat} {createDcplEnc : Option Bytes}
    {dcplEnc : Bytes} {dset : StoredDataset σ} {p : Push α} {out : φ} :
    refilterZeroCopy h5 elemSize count dcplEnc (offeredDcpl h5 createDcplEnc)
        (pushCtx dset (offeredDcpl h5 createDcplEnc) p) = some out ↔
      ∃ chunk nat, Offered h5 elemSize createDcplEnc dcplEnc chunk ∧ h5.pdecode dcplEnc = some nat ∧ p.start = 0 ∧
        p.count = count ∧ chunk.prod % 2 ^ 64 = count ∧ h5.filterStored nat (dset.firstChunk chunk) = out := by
  constructor
  · intro h
    unfold refilterZeroCopy at h
    split at h
    · rename_i ctx enc hctx henc
      obtain ⟨hcreate, hoffer⟩ := Option.filter_eq_some_iff.mp henc
      rw [pushCtx, henc, Option.map_some, Option.some.injEq] at hctx
      subst hctx
      split at h
      · cases h
      · rename_i hguard
        rw [not_or, not_or, not_not, not_not] at hguard
        split at h
        · rename_i sub nat hsub hnat
          split at h
          · cases h
          · rename_i heq
            rw [not_not] at heq
            subst heq
            split at h
            · cases h
            · rename_i chunk hchunk
              split at h
              · cases h
              · rename_i hcount
                rw [hnat, Option.any_some, decide_eq_true_eq] at hoffer
                refine ⟨chunk, sub, ⟨hguard.2.2, enc, sub, hcreate, hnat, hsub, hoffer.2, hchunk⟩, hsub,
                  hguard.1, hguard.2.1, not_not.mp hcount, ?_⟩
                exact Option.some.inj h
        · cases h
    · cases h
  · rintro ⟨chunk, nat, ⟨hsize, enc, nat', rfl, henc, hdcpl, hfilters, hchunk⟩, hnat, hstart, htotal, hcount, rfl⟩
    rw [hdcpl, Option.some.injEq] at hnat
    subst hnat
    have hoffer : offeredDcpl h5 (some enc) = some enc := by
      rw [offeredDcpl, Option.filter_eq_some_iff]
      refine ⟨rfl, ?_⟩
      rw [henc, Option.any_some, hchunk]
      exact decide_eq_true ⟨rfl, hfilters⟩
    have hguard : ¬(p.start ≠ 0 ∨ p.count ≠ count ∨ elemSize = 0) := by
      rw [not_or, not_or, not_not, not_not]
      exact ⟨hstart, htotal, hsize⟩
    rw [hoffer]
    simp only [pushCtx, Option.map_some, refilterZeroCopy, hdcpl, henc, hchunk]
    rw [if_neg hguard, if_neg (by simp), if_neg (by simpa using hcount)]

/-! ## The run a push is made of -/

theorem mem_pushRuns {payload : List α} {p : Push α} : ∀ {runs : List Run} {bufElem : Nat},
    p ∈ pushRuns payload bufElem runs ↔ ∃ before r after, runs = before ++ r :: after ∧
      p = ⟨r.start, r.count, (payload.drop (bufElem + (before.map Run.count).sum)).take r.count⟩
  | [], bufElem => by simp [pushRuns]
  | r :: rs, bufElem => by
      rw [pushRuns, List.mem_cons, mem_pushRuns]
      constructor
      · rintro (rfl | ⟨before, r', after, rfl, rfl⟩)
        · exact ⟨[], r, rs, rfl, by simp⟩
        · exact ⟨r :: before, r', after, rfl, by simp [Nat.add_assoc]⟩
      · rintro ⟨before, r', after, hsplit, rfl⟩
        cases before with
        | nil =>
          obtain ⟨rfl, rfl⟩ := List.cons_eq_cons.mp hsplit
          left
          simp
        | cons r₀ before =>
          obtain ⟨rfl, rfl⟩ := List.cons_eq_cons.mp hsplit
          exact .inr ⟨before, r', after, rfl, by simp [Nat.add_assoc]⟩

section Run

variable {dims : List Nat} {sel : Selection} {runs : List Run}

/-- The runs and the selection list the same elements. -/
theorem spaceFlatRuns_perm (hwf : Dataspace.WellFormed ⟨.simple dims, sel⟩)
    (h : spaceFlatRuns ⟨.simple dims, sel⟩ maxPushRuns = some runs) :
    (runs.flatMap Run.elems).Perm hwf.valid.selectionOrder := by
  rcases spaceFlatRuns_elems hwf.valid h with ⟨hsel, helems⟩ | ⟨blocks, hsel, helems⟩
  · rw [helems, selectionOrder_all hsel]
  · have hsel' : sel = .hyperslab blocks := hsel
    subst hsel'
    rw [helems]
    exact (List.perm_ext_iff_of_nodup (nodup_blocks hwf.2.2.1 hwf.2.2.2.1)
      ((selectionOrder_pairwise hwf.valid).imp fun hlt => Nat.ne_of_lt hlt)).mpr (mem_selectionOrder_hyperslab hsel)

/-- A selection that holds the first `n` elements lists them first. -/
theorem selectionOrder_leading (s : ValidSpace) {n : Nat} (h : ∀ k, k < n → k ∈ s.selectionOrder) :
    ∃ rest, s.selectionOrder = List.range n ++ rest := by
  have hn : n ≤ s.dims.prod := by
    cases n with
    | zero => exact Nat.zero_le _
    | succ n => exact lt_prod_of_mem_selectionOrder (h n (Nat.lt_succ_self n))
  have hall : (List.range n).filter s.selects = List.range n := by
    rw [List.filter_eq_self]
    intro k hk
    exact (List.mem_filter.mp (h k (List.mem_range.mp hk))).2
  refine ⟨(List.range' n (s.dims.prod - n)).filter s.selects, ?_⟩
  rw [ValidSpace.selectionOrder, ← hall, ← List.filter_append, List.range_eq_range', List.range_eq_range',
    show List.range' n (s.dims.prod - n) = List.range' (0 + n) (s.dims.prod - n) from by rw [Nat.zero_add],
    List.range'_append_1, Nat.add_sub_cancel' hn]

/-- The values before a run's own, and the run's own, are within the payload. -/
theorem offset_add_count_le (hwf : Dataspace.WellFormed ⟨.simple dims, sel⟩) {before after : List Run} {r : Run}
    (h : spaceFlatRuns ⟨.simple dims, sel⟩ maxPushRuns = some (before ++ r :: after)) :
    (before.map Run.count).sum + r.count ≤ hwf.valid.selectionOrder.length := by
  have hlen := (spaceFlatRuns_perm hwf h).length_eq
  simp only [List.length_flatMap, Run.elems, List.length_range', List.map_append, List.map_cons, List.sum_append,
    List.sum_cons] at hlen
  change (before.map Run.count).sum + (r.count + _) = _ at hlen
  omega

end Run

/-! ## What the stored chunk holds -/

theorem mapM_eq_some_iff {β γ : Type} {f : β → Option γ} {l : List β} {l' : List γ} :
    l.mapM f = some l' ↔ l.map f = l'.map some := by
  induction l generalizing l' with
  | nil => cases l' <;> simp
  | cons a l ih =>
    rw [List.mapM_cons, List.map_cons]
    cases hf : f a with
    | none => cases l' <;> simp
    | some b =>
      cases l' with
      | nil =>
        cases l.mapM f <;> simp
      | cons b' l' =>
        cases hl : l.mapM f with
        | none =>
          have hne : ¬l.map f = l'.map some := by
            rw [← ih, hl]
            simp
          simp [hne]
        | some m =>
          have hm : m = l' ↔ l.map f = l'.map some := by
            rw [← ih, hl, Option.some.injEq]
          simp [hm]

/-- The element of the stored chunk at position `j`, read as the memory type. -/
def StoredDataset.chunkElem (d : StoredDataset σ) (reread : σ → Option α) (chunk : List Nat) (j : Nat) : Option α :=
  reread (if inExtent d.dims (unflat chunk j) then d.contents (flat (strides d.dims) (unflat chunk j))
    else d.outside (unflat chunk j))

/-- The chunk decodes to `raw` exactly when it does element by element. -/
theorem mapM_firstChunk_iff {d : StoredDataset σ} {reread : σ → Option α} {chunk : List Nat} {raw : List α}
    (hlen : raw.length = chunk.prod) :
    (d.firstChunk chunk).mapM reread = some raw ↔
      ∀ j, j < chunk.prod → d.chunkElem reread chunk j = raw[j]? := by
  rw [mapM_eq_some_iff, StoredDataset.firstChunk, List.map_map]
  show (List.range chunk.prod).map (d.chunkElem reread chunk) = _ ↔ _
  constructor
  · intro h j hj
    have hget := congrArg (·[j]?) h
    have hraw : j < raw.length := by omega
    simpa [hj, hraw] using hget
  · intro h
    apply List.ext_getElem?
    intro j
    by_cases hj : j < chunk.prod
    · have hraw : j < raw.length := by omega
      simpa [hj, hraw] using h j hj
    · have hraw : raw.length ≤ j := by omega
      simp [hj, hraw]

theorem idxOf_leading {n k : Nat} {rest : List Nat} (hk : k < n) : (List.range n ++ rest).idxOf k = k := by
  rw [List.idxOf_append_of_mem (List.mem_range.mpr hk)]
  have hget := (List.nodup_range (n := n)).idxOf_getElem k (by simpa using hk)
  rwa [List.getElem_range] at hget

theorem eq_of_idxOf_leading {n k j : Nat} {rest : List Nat} (h : (List.range n ++ rest).idxOf k = j) (hj : j < n) :
    k = j := by
  by_cases hk : k < n
  · rw [← h, idxOf_leading hk]
  · rw [List.idxOf_append_of_notMem (fun hmem => hk (List.mem_range.mp hmem)), List.length_range] at h
    omega

/-- Where the shape leads and the selection starts with the box, the chunk holds the first values written. -/
theorem chunkElem_write {h5 : H5Chunks α σ φ} {d : StoredDataset σ} {chunk rest : List Nat} {payload : List α}
    {n j : Nat} (hlead : LeadsAt d.dims chunk j) (hj : j < n) (hlen : n ≤ payload.length)
    (hsame : ∀ v, h5.reread (h5.store v) = some v) :
    (d.write h5.store (List.range n ++ rest) payload).chunkElem h5.reread chunk j = payload[j]? := by
  have hidx : (List.range n ++ rest).idxOf j = j := idxOf_leading hj
  have hpay : j < payload.length := by omega
  rw [StoredDataset.chunkElem, StoredDataset.write]
  simp only [hlead.1, hlead.2, if_true, hidx, List.getElem?_eq_getElem hpay, Option.elim_some]
  exact hsame _

/-- An element of the chunk that is a given value of every payload is read where that value is written, and
the types agree. -/
theorem source_of_chunkElem [Nontrivial α] {h5 : H5Chunks α σ φ} {d : StoredDataset σ} {chunk order : List Nat}
    {j pos n : Nat} (hpos : pos < n)
    (h : ∀ payload : List α, payload.length = n →
      (d.write h5.store order payload).chunkElem h5.reread chunk j = payload[pos]?) :
    inExtent d.dims (unflat chunk j) = true ∧ order.idxOf (flat (strides d.dims) (unflat chunk j)) = pos ∧
      ∀ v, h5.reread (h5.store v) = some v := by
  obtain ⟨a, b, hab⟩ := exists_pair_ne α
  have hfill : ∀ v, (d.write h5.store order (List.replicate n v)).chunkElem h5.reread chunk j = some v := by
    intro v
    rw [h _ List.length_replicate, List.getElem?_replicate, if_pos hpos]
  have hin : inExtent d.dims (unflat chunk j) = true := by
    -- what lies past the extent does not change with the payload
    by_contra hout
    have ha := hfill a
    have hb := hfill b
    simp only [StoredDataset.chunkElem, StoredDataset.write, hout] at ha hb
    exact hab (Option.some.inj (ha.symm.trans hb))
  have hidx : order.idxOf (flat (strides d.dims) (unflat chunk j)) = pos := by
    -- the value at another position does not change with the one at `pos`
    by_contra hne
    have ha := hfill a
    have hb := h ((List.replicate n a).set pos b) (by simp)
    rw [List.getElem?_set_self (by simpa using hpos)] at hb
    simp only [StoredDataset.chunkElem, StoredDataset.write, hin, if_true] at ha hb
    rw [List.getElem?_set_ne (Ne.symm hne)] at hb
    exact hab (Option.some.inj (ha.symm.trans hb))
  refine ⟨hin, hidx, fun v => ?_⟩
  have hv := hfill v
  simpa [StoredDataset.chunkElem, StoredDataset.write, hin, hidx, hpos] using hv

/-! ## When the fast path serves the run -/

/-- What is served decodes to the run's own values, as what the slow path would have served does. -/
def SameAsRefiltered (h5 : H5Chunks α σ φ) (out : φ) (rawBuf : List α) (dcplEnc : Bytes) (count : Nat) : Prop :=
  unfilterPushedData h5 out dcplEnc count = some rawBuf ∧
    ∀ slow, refilterSlowly h5 rawBuf dcplEnc = some slow →
      unfilterPushedData h5 out dcplEnc count = unfilterPushedData h5 slow dcplEnc count

theorem sameAsRefiltered_iff {h5 : H5Chunks α σ φ} {d : StoredDataset σ} {chunk : List Nat} {raw : List α}
    {dcplEnc : Bytes} {nat : Dcpl} (hnat : h5.pdecode dcplEnc = some nat) (hpos : 0 < chunk.prod)
    (hlen : raw.length = chunk.prod) :
    SameAsRefiltered h5 (h5.filterStored nat (d.firstChunk chunk)) raw dcplEnc chunk.prod ↔
      ∀ j, j < chunk.prod → d.chunkElem h5.reread chunk j = raw[j]? := by
  have hfast : unfilterPushedData h5 (h5.filterStored nat (d.firstChunk chunk)) dcplEnc chunk.prod =
      (d.firstChunk chunk).mapM h5.reread := by
    rw [unfilterPushedData, if_neg (by omega), hnat, Option.bind_some, h5.unfilter_filterStored]
  rw [SameAsRefiltered, hfast, mapM_firstChunk_iff hlen]
  refine ⟨And.left, fun h => ⟨h, fun slow hslow => ?_⟩⟩
  rw [refilterSlowly, hnat, Option.map_some, Option.some.injEq] at hslow
  rw [unfilterPushedData, if_neg (by omega), hnat, Option.bind_some, ← hslow, h5.unfilter_filter]
  exact (mapM_firstChunk_iff hlen).mpr h

/-- The chunk dimensions of a dataset HDF5 has created: as many as the extent has, and none of them 0. -/
def ChunkedFor (h5 : H5Chunks α σ φ) (createDcplEnc : Option Bytes) (dims : List Nat) : Prop :=
  ∀ enc nat chunk, createDcplEnc = some enc → h5.pdecode enc = some nat → nat.chunk = some chunk →
    chunk.length = dims.length ∧ (∀ c ∈ chunk, 0 < c) ∧ chunk.prod ≤ uint64Max

/-- Every run of a write that the fast path accepts is served its own values. `off` and `count` are the piece
of the run the transport asks for. -/
def ZeroCopyExact (h5 : H5Chunks α σ φ) (elemSize : Nat) (createDcplEnc : Option Bytes) (dcplEnc : Bytes)
    (s : ValidSpace) (runs : List Run) : Prop :=
  ∀ (dset : StoredDataset σ) (payload : List α), dset.dims = s.dims → payload.length = s.selectionOrder.length →
    ∀ p ∈ pushRuns payload 0 runs, ∀ off count, off + count ≤ p.count → ∀ out,
      refilterZeroCopy h5 elemSize count dcplEnc (offeredDcpl h5 createDcplEnc)
          (pushCtx (dset.write h5.store s.selectionOrder payload) (offeredDcpl h5 createDcplEnc) p) = some out →
        SameAsRefiltered h5 out ((p.data.drop off).take count) dcplEnc count

/-- HDF5 with a filter that changes nothing, a property list spelled by its chunk dimensions, and a dataset of
the memory type. -/
def plainChunks : H5Chunks Nat Nat (List Nat) where
  pdecode enc := some ⟨some (enc.map UInt8.toNat), 1, []⟩
  store := id
  reread := some
  filterStored _ l := l
  filter _ l := l
  unfilter _ l := some l
  unfilter_filter _ _ := rfl
  unfilter_filterStored _ _ := (mapM_eq_some_iff.mpr rfl).symm

/-- The first row of a 4 × 2 extent. -/
def firstRow : Dataspace := ⟨.simple [4, 2], .hyperslab [⟨[0, 0], [0, 1]⟩]⟩

theorem firstRow_wellFormed : firstRow.WellFormed :=
  ⟨by decide, by decide, by decide, List.pairwise_singleton _ _, by decide, by decide⟩

end VolStream
