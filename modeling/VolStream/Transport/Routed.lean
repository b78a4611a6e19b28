import VolStream.Space.Bounds
import VolStream.Transport.Routing

/-!
# What a subscriber is sent

The items of one write for one subscriber (`Transport.itemsTo`) are disjoint, lie in the write and
carry its values; they hold every written element the subscriber selected and whose value satisfies
its predicate, and an item that carries no span or predicate bit holds nothing else. All of it rests
on the span the reader computed: it is in flat indices of the subscriber's own extent, and in an extent
of other trailing dimensions it need not reach the elements selected (`routes_iff`).
-/

namespace VolStream

open RowMajor

variable {α φ : Type}

/-! ## The property -/

/-- The arguments of a push that describe a contiguous part of a dataset of extent `extent`. -/
structure DatasetWrite (α : Type) extends PushedWrite α where
  extent : Extent
  fits : extent.npoints ≤ uint64Max
  inside : start + count ≤ extent.npoints
  packed : buf.length = count
  sized : elemSize ≠ 0
  described : ∀ s, spaceEnc = some s → s.extent = extent

/-- What the callbacks promise: `H5Tconvert` takes an element at a time; the runs of a predicate are in
the slice, ascending and disjoint, hold every element that satisfies it, and nothing else unless
they are coalesced. -/
structure Callbacks.Meets (cb : Callbacks α φ) (sem : ValueSem α) : Prop where
  converts : ∀ fn, cb.convertFn = some fn → ∀ buf src dst conv size,
    fn buf src dst = some (conv, size) → conv = buf.map (sem.cast src dst)
  inside : ∀ fn, cb.predicateFn = some fn → ∀ buf predEnc typeEnc runs coalesced,
    fn buf predEnc typeEnc = some (runs, coalesced) → ∀ r ∈ runs, r.start + r.count ≤ buf.length
  ascend : ∀ fn, cb.predicateFn = some fn → ∀ buf predEnc typeEnc runs coalesced,
    fn buf predEnc typeEnc = some (runs, coalesced) → runs.Pairwise fun r r' => r.start + r.count ≤ r'.start
  complete : ∀ fn, cb.predicateFn = some fn → ∀ buf predEnc typeEnc runs coalesced,
    fn buf predEnc typeEnc = some (runs, coalesced) →
      ∀ (i : Nat) (v : α), buf[i]? = some v → sem.holds predEnc typeEnc v = true → ∃ r ∈ runs, i ∈ r.elems
  exact : ∀ fn, cb.predicateFn = some fn → ∀ buf predEnc typeEnc runs,
    fn buf predEnc typeEnc = some (runs, false) →
      ∀ r ∈ runs, ∀ i ∈ r.elems, ∀ v : α, buf[i]? = some v → sem.holds predEnc typeEnc v = true

/-- A predicate callback that answers with the runs of the elements that satisfy the predicate, as the
connector's `evalPredicate` does, keeps the promise. -/
theorem meets_of_hitRuns {cb : Callbacks α φ} {sem : ValueSem α}
    (hconv : ∀ fn, cb.convertFn = some fn → ∀ buf src dst conv size,
      fn buf src dst = some (conv, size) → conv = buf.map (sem.cast src dst))
    (hpred : ∀ fn, cb.predicateFn = some fn → ∀ buf predEnc typeEnc res, fn buf predEnc typeEnc = some res →
      ∃ maxRuns, res = hitRuns maxRuns (buf.map (sem.holds predEnc typeEnc))) : cb.Meets sem := by
  have hspec : ∀ fn, cb.predicateFn = some fn → ∀ buf predEnc typeEnc runs coalesced,
      fn buf predEnc typeEnc = some (runs, coalesced) →
        HitRuns (buf.map (sem.holds predEnc typeEnc)) runs coalesced := by
    intro fn hfn buf predEnc typeEnc runs coalesced hruns
    obtain ⟨maxRuns, heq⟩ := hpred fn hfn buf predEnc typeEnc _ hruns
    have := hitRuns_spec maxRuns (buf.map (sem.holds predEnc typeEnc))
    rw [← heq] at this
    exact this
  refine ⟨hconv, ?_, ?_, ?_, ?_⟩
  · intro fn hfn buf predEnc typeEnc runs coalesced hruns r hr
    have := ((hspec fn hfn _ _ _ _ _ hruns).inside r hr).2
    rwa [List.length_map] at this
  · intro fn hfn buf predEnc typeEnc runs coalesced hruns
    exact (hspec fn hfn _ _ _ _ _ hruns).ascend.imp Nat.le_of_lt
  · intro fn hfn buf predEnc typeEnc runs coalesced hruns i v hv hholds
    apply (hspec fn hfn _ _ _ _ _ hruns).complete
    rw [List.getElem?_map, hv, Option.map_some, hholds]
  · intro fn hfn buf predEnc typeEnc runs hruns r hr i hi v hv
    have := (hspec fn hfn _ _ _ _ _ hruns).exact rfl r hr i hi
    rw [List.getElem?_map, hv, Option.map_some] at this
    exact Option.some.inj this

/-- The view of the data a subscriber is served from. -/
def Callbacks.viewOf (cb : Callbacks α φ) (e : Subscription) (w : PushedWrite α) : View α :=
  match e.overlap w with
  | none => w.native
  | some overlap => cb.view e w overlap

/-- The value of element `k` as the subscriber is served it. -/
def Callbacks.valueAt (cb : Callbacks α φ) (sem : ValueSem α) (e : Subscription) (w : PushedWrite α) (k : Nat) :
    Option α :=
  (w.buf[k - w.start]?).map fun v =>
    if (cb.viewOf e w).converted then sem.cast w.typeEnc (cb.viewOf e w).typeEnc v else v

/-- Element `k` satisfies the subscriber's predicate, if it has one. -/
def Callbacks.Satisfies (cb : Callbacks α φ) (sem : ValueSem α) (e : Subscription) (w : PushedWrite α) (k : Nat) :
    Prop :=
  ∀ predEnc, e.predEnc = some predEnc → ∀ v, cb.valueAt sem e w k = some v →
    sem.holds predEnc (cb.viewOf e w).typeEnc v = true

def PushItem.elems (i : PushItem α φ) : List Nat := List.range' i.elemStart i.elemCount

/-- Routing a write to a subscriber whose selection is `space`. -/
structure Routes (cb : Callbacks α φ) (sem : ValueSem α) (e : Subscription) (space : Dataspace)
    (w : DatasetWrite α) (items : List (PushItem α φ)) : Prop where
  apart : items.Pairwise fun i j => ∀ k ∈ i.elems, k ∉ j.elems
  inside : ∀ i ∈ items, ∀ k ∈ i.elems, w.start ≤ k ∧ k < w.start + w.count
  carries : ∀ i ∈ items, i.typeEnc = (cb.viewOf e w.toPushedWrite).typeEnc ∧
    ∃ values, values.map some = i.elems.map (cb.valueAt sem e w.toPushedWrite) ∧
      i.payload = cb.refilter e w.toPushedWrite (cb.viewOf e w.toPushedWrite) values
  complete : ∀ k, w.start ≤ k → k < w.start + w.count → space.selectsAt (unflat w.extent.dims k) = true →
    cb.Satisfies sem e w.toPushedWrite k → ∃ i ∈ items, k ∈ i.elems
  truthful : ∀ i ∈ items, i.delivery.selectionSpan = false → i.delivery.predicateUnevaluated = false →
    i.delivery.predicateSpan = false → ∀ k ∈ i.elems,
      space.selectsAt (unflat w.extent.dims k) = true ∧ cb.Satisfies sem e w.toPushedWrite k

/-! ## Flat indices of two extents -/

theorem unflat_of_tail {dims dims' : List Nat} (hlen : dims.length = dims'.length) (htail : dims.tail = dims'.tail)
    (k : Nat) : unflat dims k = unflat dims' k := by
  cases dims with
  | nil =>
    cases dims' with
    | nil => rfl
    | cons => simp at hlen
  | cons d ds =>
    cases dims' with
    | nil => simp at hlen
    | cons d' ds' =>
      simp only [List.tail_cons] at htail
      subst htail
      rfl

/-- What a subscriber selected, by flat index of an extent comparable with its own. -/
theorem selectsFlat_iff_selectsAt {space : Dataspace} (hwf : space.WellFormed) {extent : Extent}
    (hlen : space.extent.dims.length = extent.dims.length) (htail : space.extent.dims.tail = extent.dims.tail)
    {k : Nat} (hk : k < extent.npoints) :
    space.selectsFlat k = true ↔ space.selectsAt (unflat extent.dims k) = true := by
  have hflat := unflat_of_tail hlen htail k
  constructor
  · intro h
    rw [Dataspace.selectsFlat, Bool.and_eq_true] at h
    rw [← hflat]
    exact h.2
  · intro h
    rw [← hflat] at h
    apply selectsFlat_of_selectsAt hwf _ h
    intro hnil
    rw [hnil, List.length_nil] at hlen
    cases extent with
    | null => exact absurd hk (Nat.not_lt_zero k)
    | scalar => exact Nat.lt_one_iff.mp hk
    | simple dims =>
      have hdims : dims = [] := List.length_eq_zero_iff.mp hlen.symm
      subst hdims
      exact Nat.lt_one_iff.mp hk

/-! ## Runs of runs -/

/-- Relative runs, placed behind `start`. -/
def placed (start : Nat) (runs : List Run) : List Run := runs.map fun r => ⟨start + r.start, r.count⟩

theorem mem_placed {start k : Nat} {runs : List Run} :
    k ∈ (placed start runs).flatMap Run.elems ↔ start ≤ k ∧ k - start ∈ runs.flatMap Run.elems := by
  simp only [placed, List.flatMap_map, List.mem_flatMap, Run.mem_elems]
  constructor
  · rintro ⟨r, hr, hk⟩
    exact ⟨by omega, r, hr, by omega⟩
  · rintro ⟨hle, r, hr, hk⟩
    exact ⟨r, hr, by omega⟩

theorem nodup_placed {start : Nat} {runs : List Run} (h : (runs.flatMap Run.elems).Nodup) :
    ((placed start runs).flatMap Run.elems).Nodup := by
  have hshift : (placed start runs).flatMap Run.elems = (runs.flatMap Run.elems).map (start + ·) := by
    simp only [placed, List.flatMap_map, List.map_flatMap, Run.elems, List.map_add_range']
  rw [hshift]
  exact h.map fun _ _ heq => Nat.add_left_cancel heq

theorem nodup_of_ascend {runs : List Run} (h : runs.Pairwise fun r r' => r.start + r.count ≤ r'.start) :
    (runs.flatMap Run.elems).Nodup := by
  rw [List.nodup_flatMap]
  refine ⟨fun r _ => List.nodup_range', h.imp ?_⟩
  intro r r' hle k hk hk'
  have := Run.mem_elems.mp hk
  have := Run.mem_elems.mp hk'
  omega

/-- The runs a narrowing step keeps of one run: parts of it, listed once. -/
structure Narrows (whole : Run) (parts : List Run) : Prop where
  nodup : (parts.flatMap Run.elems).Nodup
  inside : ∀ k ∈ parts.flatMap Run.elems, k ∈ whole.elems

theorem Narrows.whole (r : Run) : Narrows r [r] := by
  constructor
  · rw [List.flatMap_singleton]
    exact List.nodup_range'
  · simp

/-! ## The four steps -/

section Steps

variable (cb : Callbacks α φ) (sem : ValueSem α) (e : Subscription)

/-- The chunk loop goes through the run. -/
theorem chunkLoop_elems {run : Run} {chunkElems : Nat} (hpos : 0 < chunkElems) :
    ∀ {fuel off : Nat}, run.count - off ≤ fuel → off ≤ run.count →
      (chunkLoop run chunkElems fuel off).flatMap Run.elems = List.range' (run.start + off) (run.count - off)
  | 0, off, hfuel, hoff => by
      rw [show run.count - off = 0 from by omega]
      rfl
  | fuel + 1, off, hfuel, hoff => by
      rw [chunkLoop]
      by_cases hlt : off < run.count
      · rw [if_pos hlt]
        simp only [List.flatMap_cons]
        rw [chunkLoop_elems hpos (by omega) (by omega), Run.elems]
        simp only
        rw [show run.start + (off + min (run.count - off) chunkElems) =
            run.start + off + min (run.count - off) chunkElems from by omega, List.range'_append_1]
        congr 1
        omega
      · rw [if_neg hlt, show run.count - off = 0 from by omega]
        rfl

theorem slices_elems (v : View α) (run : Run) : (cb.slices e v run).flatMap Run.elems = run.elems := by
  have hone : [run].flatMap Run.elems = run.elems := by simp
  unfold Callbacks.slices
  split
  · simp only
    split
    · rename_i hchunk
      rw [chunkLoop_elems hchunk.1 (Nat.le_of_eq (Nat.sub_zero _)) (Nat.zero_le _)]
      rfl
    · exact hone
  · exact hone

theorem runItems_elems (w : PushedWrite α) (v : View α) (delivery : DeliveryFlags) (run : Run) :
    (cb.runItems e w v delivery run).flatMap PushItem.elems = run.elems := by
  rw [Callbacks.runItems, List.flatMap_map, ← slices_elems cb e v run]
  rfl

/-- A run of the view, value by value. -/
theorem map_take_drop {β : Type} (buf : List β) (base start count : Nat)
    (h : ∀ k ∈ List.range' start count, base ≤ k ∧ k - base < buf.length) :
    ((buf.drop (start - base)).take count).map some = (List.range' start count).map fun k => buf[k - base]? := by
  apply List.ext_getElem?
  intro i
  by_cases hi : i < count
  · have hin := h (start + i) (by rw [List.mem_range'_1]; omega)
    have hfirst := h start (by rw [List.mem_range'_1]; omega)
    have hidx : start - base + i = start + i - base := by omega
    simp [hi, hidx, hin.2]
  · simp [hi]

variable {w : DatasetWrite α} {overlap : Run}

/-- The overlap lies in the write and in the span. -/
theorem overlap_eq_some (h : e.overlap w.toPushedWrite = some overlap) :
    e.selStart ≤ overlap.start ∧ w.start ≤ overlap.start ∧ 0 < overlap.count ∧
      overlap.start + overlap.count ≤ e.subEnd ∧ overlap.start + overlap.count ≤ w.start + w.count ∧
      ∀ k, e.selStart ≤ k → k < e.subEnd → w.start ≤ k → k < w.start + w.count → k ∈ overlap.elems := by
  have hfits := w.fits
  have hinside := w.inside
  have h64 : uint64Max = 2 ^ 64 - 1 := rfl
  have hmod : (w.start + w.count) % 2 ^ 64 = w.start + w.count := Nat.mod_eq_of_lt (by omega)
  unfold Subscription.overlap at h
  simp only [hmod] at h
  split at h
  · cases h
  · obtain ⟨hstart, hcount⟩ : overlap.start = max e.selStart w.start ∧
        overlap.count = min e.subEnd (w.start + w.count) - max e.selStart w.start := by
      cases h
      exact ⟨rfl, rfl⟩
    refine ⟨by omega, by omega, by omega, by omega, by omega, ?_⟩
    intro k _ _ _ _
    rw [Run.mem_elems]
    omega

theorem overlap_eq_none (h : e.overlap w.toPushedWrite = none) :
    ∀ k, ¬ (e.selStart ≤ k ∧ k < e.subEnd ∧ w.start ≤ k ∧ k < w.start + w.count) := by
  have hfits := w.fits
  have hinside := w.inside
  have h64 : uint64Max = 2 ^ 64 - 1 := rfl
  have hmod : (w.start + w.count) % 2 ^ 64 = w.start + w.count := Nat.mod_eq_of_lt (by omega)
  unfold Subscription.overlap at h
  simp only [hmod] at h
  split at h
  · intro k
    omega
  · cases h

/-- A subscriber is served from the write's own data or from its converted overlap. -/
theorem view_cases (w : PushedWrite α) (overlap : Run) :
    cb.view e w overlap = w.native ∨ ∃ want fn conv size, e.wantTypeEnc = some want ∧ cb.convertFn = some fn ∧
      fn (w.native.slice overlap) w.typeEnc want = some (conv, size) ∧
      cb.view e w overlap = ⟨conv, overlap.start, size, want, true⟩ := by
  unfold Callbacks.view
  split
  · rename_i want fn hwant hfn
    split
    · rename_i conv size hconv
      split
      · exact .inr ⟨want, fn, conv, size, hwant, hfn, hconv, rfl⟩
      · exact .inl rfl
    · exact .inl rfl
  · exact .inl rfl

/-- What the view holds of the overlap are the values the subscriber is served. -/
theorem slice_values (hmeets : cb.Meets sem) (hov : e.overlap w.toPushedWrite = some overlap) {r : Run}
    (hr : ∀ k ∈ r.elems, k ∈ overlap.elems) :
    ((cb.view e w.toPushedWrite overlap).slice r).map some = r.elems.map (cb.valueAt sem e w.toPushedWrite) := by
  obtain ⟨-, hwstart, -, -, hwend, -⟩ := overlap_eq_some e hov
  have hpacked := w.packed
  have hviewOf : cb.viewOf e w.toPushedWrite = cb.view e w.toPushedWrite overlap := by
    rw [Callbacks.viewOf, hov]
  have hin : ∀ k ∈ r.elems, overlap.start ≤ k ∧ k < overlap.start + overlap.count := fun k hk =>
    Run.mem_elems.mp (hr k hk)
  have hnative : ∀ r' : Run, (∀ k ∈ r'.elems, overlap.start ≤ k ∧ k < overlap.start + overlap.count) →
      (w.native.slice r').map some = r'.elems.map fun k => w.buf[k - w.start]? := by
    intro r' hr'
    refine map_take_drop w.buf w.start r'.start r'.count fun k hk => ?_
    have := hr' k hk
    omega
  rcases view_cases cb e w.toPushedWrite overlap with heq | ⟨want, fn, conv, size, -, hfn, hconv, heq⟩
  · rw [heq, hnative r hin]
    apply List.map_congr_left
    intro k _
    rw [Callbacks.valueAt, hviewOf, heq]
    simp [PushedWrite.native]
  · -- the converted copy starts at the overlap
    have hcast := hmeets.converts fn hfn _ _ _ _ _ hconv
    have hover := hnative overlap fun k hk => Run.mem_elems.mp hk
    have hlen : conv.length = overlap.count := by
      have := congrArg List.length hover
      rw [List.length_map, List.length_map, Run.elems, List.length_range'] at this
      rw [hcast, List.length_map]
      exact this
    rw [heq, View.slice]
    simp only
    rw [map_take_drop conv overlap.start r.start r.count (fun k hk => by
      have := hin k hk
      omega)]
    apply List.map_congr_left
    intro k hk
    have hk := hin k hk
    have hget : (w.native.slice overlap)[k - overlap.start]? = w.buf[k - w.start]? := by
      have hidx := congrArg (fun l => l[k - overlap.start]?) hover
      simp only [List.getElem?_map, Run.elems] at hidx
      rw [List.getElem?_range' (by omega)] at hidx
      simp only [Option.map_some, Nat.one_mul, show overlap.start + (k - overlap.start) = k from by omega] at hidx
      cases hslice : (w.native.slice overlap)[k - overlap.start]? with
      | none =>
        rw [hslice] at hidx
        cases hidx
      | some v =>
        rw [hslice] at hidx
        exact Option.some.inj hidx
    rw [Callbacks.valueAt, hviewOf, heq, hcast, List.getElem?_map, hget]
    rfl

/-- The decomposition of a well-formed dataspace; a scalar without a selection is taken for a whole one. -/
theorem runsOf_or_scalar {space : Dataspace} (hwf : space.WellFormed) {rangeStart rangeEnd maxRuns : Nat}
    {runs : List Run} (h : spaceFlatRunsRange space rangeStart rangeEnd maxRuns = some runs) :
    RunsOf space rangeStart rangeEnd runs ∨
      space = ⟨.scalar, .none⟩ ∧ RunsOf ⟨.scalar, .all⟩ rangeStart rangeEnd runs := by
  obtain ⟨extent, sel⟩ := space
  cases extent with
  | null =>
    unfold spaceFlatRunsRange at h
    simp only at h
    split at h <;> cases h
  | scalar =>
    rcases hwf with hall | hnone
    · have hall : sel = .all := hall
      subst hall
      exact .inl (runsOf_scalar h)
    · have hnone : sel = .none := hnone
      subst hnone
      exact .inr ⟨rfl, runsOf_scalar h⟩
  | simple dims => exact .inl (runsOf_simple hwf h)

/-- What the selection callback reports, placed back in the flat range. -/
theorem selectionRuns_eq_some {sub : Dataspace} {write : Option Dataspace} {rangeStart rangeCount maxRuns : Nat}
    {runs : List Run} (hwf : sub.WellFormed)
    (h : selectionRuns sub write rangeStart rangeCount maxRuns = some runs) :
    ∃ wsp, write = some wsp ∧ comparable sub wsp = true ∧
      (RunsOf sub rangeStart (rangeStart + rangeCount) (placed rangeStart runs) ∨
        sub = ⟨.scalar, .none⟩ ∧ RunsOf ⟨.scalar, .all⟩ rangeStart (rangeStart + rangeCount) (placed rangeStart runs)) := by
  unfold selectionRuns at h
  split at h
  · cases h
  · split at h
    · cases h
    · rename_i wsp
      split at h
      · rename_i hcomp
        obtain ⟨abs, habs, rfl⟩ := Option.map_eq_some_iff.mp h
        have hruns := runsOf_or_scalar hwf habs
        have hinside : ∀ r ∈ abs, rangeStart ≤ r.start := by
          rcases hruns with hruns | ⟨-, hruns⟩ <;> exact fun r hr => (hruns.inside r hr).2.1
        have hplaced : placed rangeStart (abs.map fun r => (⟨r.start - rangeStart, r.count⟩ : Run)) = abs := by
          rw [placed, List.map_map]
          conv_rhs => rw [← List.map_id abs]
          apply List.map_congr_left
          intro r hr
          have := hinside r hr
          show (⟨rangeStart + (r.start - rangeStart), r.count⟩ : Run) = r
          rw [show rangeStart + (r.start - rangeStart) = r.start from by omega]
        rw [hplaced]
        exact ⟨wsp, rfl, hcomp, hruns⟩
      · cases h

theorem narrows_of_runsOf {s : Dataspace} {overlap : Run} {runs : List Run}
    (h : RunsOf s overlap.start (overlap.start + overlap.count) runs) : Narrows overlap runs := by
  constructor
  · rw [List.nodup_flatMap]
    refine ⟨fun r _ => List.nodup_range', h.apart.imp ?_⟩
    intro r r' hdisj k hk hk'
    exact hdisj k hk hk'
  · intro k hk
    obtain ⟨r, hr, hkr⟩ := List.mem_flatMap.mp hk
    have hin := h.inside r hr
    have hkr := Run.mem_elems.mp hkr
    rw [Run.mem_elems]
    omega

/-- The subscriber selected nothing of a scalar, which the decomposition takes for all of it. -/
def ScalarTakenWhole (space : Dataspace) (w : DatasetWrite α) : Prop :=
  space = ⟨.scalar, .none⟩ ∧ w.extent.dims = [] ∧ w.spaceEnc.isSome = true ∧ 0 < w.count

/-- What the selection leaves of the overlap. -/
structure Selects (space : Dataspace) (w : DatasetWrite α) (overlap : Run) (selected : List Run) (span : Bool) :
    Prop where
  narrows : Narrows overlap selected
  complete : ∀ k ∈ overlap.elems, space.selectsAt (unflat w.extent.dims k) = true →
    k ∈ selected.flatMap Run.elems
  truthful : ¬ ScalarTakenWhole space w → span = false → ∀ k ∈ selected.flatMap Run.elems,
    space.selectsAt (unflat w.extent.dims k) = true

theorem select_spec {space : Dataspace} (hspace : e.spaceEnc = some space) (hwf : space.WellFormed)
    (hov : e.overlap w.toPushedWrite = some overlap) :
    Selects space w overlap (placed overlap.start (cb.select e w.toPushedWrite overlap).1)
      (cb.select e w.toPushedWrite overlap).2 := by
  obtain ⟨-, hwstart, hcount, -, hwend, -⟩ := overlap_eq_some e hov
  have hend := w.inside
  have hwhole : Selects space w overlap (placed overlap.start [⟨0, overlap.count⟩]) true := by
    have hplaced : placed overlap.start [⟨0, overlap.count⟩] = [overlap] := rfl
    rw [hplaced]
    exact ⟨Narrows.whole overlap, fun k hk _ => by simpa using hk, by simp⟩
  unfold Callbacks.select
  rw [hspace]
  simp only
  split
  · split
    · rename_i runs hruns
      obtain ⟨wsp, hwsp, hcomp, hruns⟩ := selectionRuns_eq_some hwf hruns
      simp only [comparable, decide_eq_true_eq, w.described wsp hwsp] at hcomp
      have hflat : ∀ k ∈ overlap.elems, (space.selectsFlat k = true ↔
          space.selectsAt (unflat w.extent.dims k) = true) := by
        intro k hk
        have hk := Run.mem_elems.mp hk
        exact selectsFlat_iff_selectsAt hwf hcomp.1 hcomp.2 (by omega)
      rcases hruns with hruns | ⟨hscalar, hruns⟩
      · have hnarrows := narrows_of_runsOf hruns
        refine ⟨hnarrows, ?_, ?_⟩
        · intro k hk hsel
          rw [List.mem_flatMap, hruns.covers]
          exact ⟨(hflat k hk).mpr hsel, Run.mem_elems.mp hk⟩
        · intro _ _ k hk
          have hin := hnarrows.inside k hk
          rw [List.mem_flatMap, hruns.covers] at hk
          exact (hflat k hin).mp hk.1
      · refine ⟨narrows_of_runsOf hruns, ?_, fun hnot => absurd ⟨hscalar, ?_, ?_, by omega⟩ hnot⟩
        · intro k hk hsel
          rw [hscalar] at hsel
          cases hsel
        · rw [hscalar] at hcomp
          exact List.length_eq_zero_iff.mp hcomp.1.symm
        · rw [hwsp]
          rfl
    · exact hwhole
  · exact hwhole

/-- What the predicate leaves of a selected run. -/
structure Keeps (cb : Callbacks α φ) (sem : ValueSem α) (e : Subscription) (w : DatasetWrite α) (run : Run)
    (kept : List Run) (unevaluated coalesced : Bool) : Prop where
  narrows : Narrows run kept
  complete : ∀ k ∈ run.elems, cb.Satisfies sem e w.toPushedWrite k → k ∈ kept.flatMap Run.elems
  truthful : unevaluated = false → coalesced = false → ∀ k ∈ kept.flatMap Run.elems,
    cb.Satisfies sem e w.toPushedWrite k

theorem keep_spec (hmeets : cb.Meets sem) (hov : e.overlap w.toPushedWrite = some overlap) {run : Run}
    (hrun : ∀ k ∈ run.elems, k ∈ overlap.elems) :
    Keeps cb sem e w run (placed run.start (cb.keep e (cb.view e w.toPushedWrite overlap) run).1)
      (cb.keep e (cb.view e w.toPushedWrite overlap) run).2.1
      (cb.keep e (cb.view e w.toPushedWrite overlap) run).2.2 := by
  have hviewOf : cb.viewOf e w.toPushedWrite = cb.view e w.toPushedWrite overlap := by
    rw [Callbacks.viewOf, hov]
  have hvalues := slice_values cb sem e hmeets hov hrun
  have hlen : ((cb.view e w.toPushedWrite overlap).slice run).length = run.count := by
    have := congrArg List.length hvalues
    rw [List.length_map, List.length_map, Run.elems, List.length_range'] at this
    exact this
  have hat : ∀ i < run.count,
      ((cb.view e w.toPushedWrite overlap).slice run)[i]? = cb.valueAt sem e w.toPushedWrite (run.start + i) := by
    intro i hi
    have hidx := congrArg (fun l => l[i]?) hvalues
    simp only [List.getElem?_map, Run.elems] at hidx
    rw [List.getElem?_range' hi, List.getElem?_eq_getElem (by omega)] at hidx
    simp only [Option.map_some, Nat.one_mul, Option.some.injEq] at hidx
    rw [List.getElem?_eq_getElem (by omega), hidx]
  have hwhole : placed run.start [⟨0, run.count⟩] = [run] := rfl
  unfold Callbacks.keep
  split
  · rename_i hpred
    rw [hwhole]
    refine ⟨Narrows.whole run, fun k hk _ => by simpa using hk, ?_⟩
    intro _ _ k _ predEnc hsome
    rw [hpred] at hsome
    cases hsome
  · rename_i predEnc hpred
    split
    · rw [hwhole]
      exact ⟨Narrows.whole run, fun k hk _ => by simpa using hk, by simp⟩
    · rename_i fn hfn
      split
      · rename_i runs coalesced hruns
        have hinside := hmeets.inside fn hfn _ _ _ _ _ hruns
        refine ⟨⟨nodup_placed (nodup_of_ascend (hmeets.ascend fn hfn _ _ _ _ _ hruns)), ?_⟩, ?_, ?_⟩
        · intro k hk
          obtain ⟨hle, hk⟩ := mem_placed.mp hk
          obtain ⟨r, hr, hkr⟩ := List.mem_flatMap.mp hk
          have := hinside r hr
          have := Run.mem_elems.mp hkr
          rw [Run.mem_elems]
          omega
        · intro k hk hsat
          have hk' := Run.mem_elems.mp hk
          have hget := hat (k - run.start) (by omega)
          rw [show run.start + (k - run.start) = k from by omega] at hget
          rw [mem_placed, List.mem_flatMap]
          refine ⟨hk'.1, ?_⟩
          obtain ⟨v, hv⟩ : ∃ v, ((cb.view e w.toPushedWrite overlap).slice run)[k - run.start]? = some v :=
            ⟨_, List.getElem?_eq_getElem (by omega)⟩
          apply hmeets.complete fn hfn _ _ _ _ _ hruns _ _ hv
          rw [hv] at hget
          rw [← hviewOf]
          exact hsat predEnc hpred _ hget.symm
        · intro _ hco k hk predEnc' hpred' v hv
          have hco : coalesced = false := hco
          subst hco
          obtain ⟨hle, hk⟩ := mem_placed.mp hk
          obtain ⟨r, hr, hkr⟩ := List.mem_flatMap.mp hk
          have := hinside r hr
          have := Run.mem_elems.mp hkr
          have hget := hat (k - run.start) (by omega)
          rw [show run.start + (k - run.start) = k from by omega, hv] at hget
          rw [hpred] at hpred'
          cases hpred'
          rw [hviewOf]
          exact hmeets.exact fn hfn _ _ _ _ hruns r hr _ hkr v hget
      · rw [hwhole]
        exact ⟨Narrows.whole run, fun k hk _ => by simpa using hk, by simp⟩

/-- The elements the items of a selected run hold are those kept of it. -/
theorem selectedItems_elems (w : PushedWrite α) (v : View α) (span : Bool) (run : Run) :
    (cb.selectedItems e w v span run).flatMap PushItem.elems =
      (placed run.start (cb.keep e v run).1).flatMap Run.elems := by
  rw [Callbacks.selectedItems]
  simp only [List.flatMap_assoc, runItems_elems, placed, List.flatMap_map]

theorem apart_of_nodup_items {items : List (PushItem α φ)} (h : (items.flatMap PushItem.elems).Nodup) :
    items.Pairwise fun i j => ∀ k ∈ i.elems, k ∉ j.elems := by
  refine (List.nodup_flatMap.mp h).2.imp ?_
  intro i j hdisj k hk hk'
  exact hdisj hk hk'

/-- Where an item comes from: a selected run of the overlap and a run kept of it. -/
theorem mem_items {i : PushItem α φ} (hov : e.overlap w.toPushedWrite = some overlap)
    (hi : i ∈ cb.items e w.toPushedWrite) :
    ∃ run ∈ placed overlap.start (cb.select e w.toPushedWrite overlap).1,
      i.typeEnc = (cb.view e w.toPushedWrite overlap).typeEnc ∧
      i.payload = cb.refilter e w.toPushedWrite (cb.view e w.toPushedWrite overlap)
        ((cb.view e w.toPushedWrite overlap).slice ⟨i.elemStart, i.elemCount⟩) ∧
      i.delivery.selectionSpan = (cb.select e w.toPushedWrite overlap).2 ∧
      i.delivery.predicateUnevaluated = (cb.keep e (cb.view e w.toPushedWrite overlap) run).2.1 ∧
      i.delivery.predicateSpan = (cb.keep e (cb.view e w.toPushedWrite overlap) run).2.2 ∧
      ∀ k ∈ i.elems,
        k ∈ (placed run.start (cb.keep e (cb.view e w.toPushedWrite overlap) run).1).flatMap Run.elems := by
  rw [Callbacks.items, hov] at hi
  obtain ⟨r, hr, hi⟩ := List.mem_flatMap.mp hi
  refine ⟨⟨overlap.start + r.start, r.count⟩, List.mem_map.mpr ⟨r, hr, rfl⟩, ?_⟩
  have helems : ∀ k ∈ i.elems, k ∈ (placed (overlap.start + r.start) (cb.keep e (cb.view e w.toPushedWrite overlap)
      ⟨overlap.start + r.start, r.count⟩).1).flatMap Run.elems := by
    intro k hk
    rw [← selectedItems_elems cb e w.toPushedWrite _ (cb.select e w.toPushedWrite overlap).2
      ⟨overlap.start + r.start, r.count⟩, List.mem_flatMap]
    exact ⟨i, hi, hk⟩
  rw [Callbacks.selectedItems] at hi
  obtain ⟨r', hr', hi⟩ := List.mem_flatMap.mp hi
  rw [Callbacks.runItems] at hi
  obtain ⟨slice, hslice, rfl⟩ := List.mem_map.mp hi
  exact ⟨rfl, rfl, rfl, rfl, rfl, helems⟩

theorem items_elems (hov : e.overlap w.toPushedWrite = some overlap) :
    (cb.items e w.toPushedWrite).flatMap PushItem.elems =
      (placed overlap.start (cb.select e w.toPushedWrite overlap).1).flatMap fun run =>
        (placed run.start (cb.keep e (cb.view e w.toPushedWrite overlap) run).1).flatMap Run.elems := by
  rw [Callbacks.items, hov]
  simp only [List.flatMap_assoc, selectedItems_elems, placed, List.flatMap_map]

/-- A selected element that satisfies the predicate is sent. -/
theorem mem_items_of_selected {space : Dataspace} (hmeets : cb.Meets sem) (hspace : e.spaceEnc = some space)
    (hwf : space.WellFormed) (hov : e.overlap w.toPushedWrite = some overlap) {k : Nat}
    (hk : k ∈ (placed overlap.start (cb.select e w.toPushedWrite overlap).1).flatMap Run.elems)
    (hsat : cb.Satisfies sem e w.toPushedWrite k) : ∃ i ∈ cb.items e w.toPushedWrite, k ∈ i.elems := by
  have hselect := select_spec cb e hspace hwf hov
  obtain ⟨run, hmem, hkrun⟩ := List.mem_flatMap.mp hk
  have hrun : ∀ k ∈ run.elems, k ∈ overlap.elems := fun k hk =>
    hselect.narrows.inside k (List.mem_flatMap.mpr ⟨run, hmem, hk⟩)
  have hkept := (keep_spec cb sem e hmeets hov hrun).complete k hkrun hsat
  have hall : k ∈ (cb.items e w.toPushedWrite).flatMap PushItem.elems := by
    rw [items_elems cb e hov, List.mem_flatMap]
    exact ⟨run, hmem, hkept⟩
  exact List.mem_flatMap.mp hall

/-- Everything a subscriber is to be sent of a write, but for what its span leaves out. -/
theorem items_spec {space : Dataspace} (hmeets : cb.Meets sem) (hspace : e.spaceEnc = some space)
    (hwf : space.WellFormed) :
    (cb.items e w.toPushedWrite).Pairwise (fun i j => ∀ k ∈ i.elems, k ∉ j.elems) ∧
    (∀ i ∈ cb.items e w.toPushedWrite, ∀ k ∈ i.elems,
      e.selStart ≤ k ∧ k < e.subEnd ∧ w.start ≤ k ∧ k < w.start + w.count) ∧
    (∀ i ∈ cb.items e w.toPushedWrite, i.typeEnc = (cb.viewOf e w.toPushedWrite).typeEnc ∧
      ∃ values, values.map some = i.elems.map (cb.valueAt sem e w.toPushedWrite) ∧
        i.payload = cb.refilter e w.toPushedWrite (cb.viewOf e w.toPushedWrite) values) ∧
    (∀ k, w.start ≤ k → k < w.start + w.count → e.selStart ≤ k → k < e.subEnd →
      space.selectsAt (unflat w.extent.dims k) = true → cb.Satisfies sem e w.toPushedWrite k →
      ∃ i ∈ cb.items e w.toPushedWrite, k ∈ i.elems) ∧
    (¬ ScalarTakenWhole space w → ∀ i ∈ cb.items e w.toPushedWrite, i.delivery.selectionSpan = false →
      i.delivery.predicateUnevaluated = false → i.delivery.predicateSpan = false → ∀ k ∈ i.elems,
        space.selectsAt (unflat w.extent.dims k) = true ∧ cb.Satisfies sem e w.toPushedWrite k) := by
  cases hov : e.overlap w.toPushedWrite with
  | none =>
    have hnil : cb.items e w.toPushedWrite = [] := by rw [Callbacks.items, hov]
    rw [hnil]
    refine ⟨List.Pairwise.nil, by simp, by simp, ?_, by simp⟩
    intro k hstart hend hspan hpast
    exact absurd ⟨hspan, hpast, hstart, hend⟩ (overlap_eq_none e hov k)
  | some overlap =>
    obtain ⟨hspan, hwstart, -, hsub, hwend, hcover⟩ := overlap_eq_some e hov
    have hselect := select_spec cb e hspace hwf hov
    have hviewOf : cb.viewOf e w.toPushedWrite = cb.view e w.toPushedWrite overlap := by
      rw [Callbacks.viewOf, hov]
    have hrun : ∀ run ∈ placed overlap.start (cb.select e w.toPushedWrite overlap).1,
        ∀ k ∈ run.elems, k ∈ overlap.elems := by
      intro run hrun k hk
      exact hselect.narrows.inside k (List.mem_flatMap.mpr ⟨run, hrun, hk⟩)
    have hkeep : ∀ run ∈ placed overlap.start (cb.select e w.toPushedWrite overlap).1, Keeps cb sem e w run _ _ _ :=
      fun run hmem => keep_spec cb sem e hmeets hov (hrun run hmem)
    have hover : ∀ i ∈ cb.items e w.toPushedWrite, ∀ k ∈ i.elems, k ∈ overlap.elems := by
      intro i hi k hk
      obtain ⟨run, hmem, -, -, -, -, -, hparts⟩ := mem_items cb e hov hi
      exact hrun run hmem k ((hkeep run hmem).narrows.inside k (hparts k hk))
    refine ⟨apart_of_nodup_items ?_, ?_, ?_, ?_, ?_⟩
    · rw [items_elems cb e hov, List.nodup_flatMap]
      refine ⟨fun run hmem => (hkeep run hmem).narrows.nodup, ?_⟩
      refine (List.nodup_flatMap.mp hselect.narrows.nodup).2.imp_of_mem ?_
      intro run run' hmem hmem' hdisj k hk hk'
      exact hdisj ((hkeep run hmem).narrows.inside k hk) ((hkeep run' hmem').narrows.inside k hk')
    · intro i hi k hk
      have := Run.mem_elems.mp (hover i hi k hk)
      omega
    · intro i hi
      obtain ⟨run, hmem, htype, hpayload, -, -, -, hparts⟩ := mem_items cb e hov hi
      rw [hviewOf]
      refine ⟨htype, _, ?_, hpayload⟩
      exact slice_values cb sem e hmeets hov (r := ⟨i.elemStart, i.elemCount⟩) (hover i hi)
    · intro k hstart hend hlow hhigh hsel hsat
      have hkover := hcover k hlow hhigh hstart hend
      exact mem_items_of_selected cb sem e hmeets hspace hwf hov (hselect.complete k hkover hsel) hsat
    · intro hscalar i hi hsel huneval hco k hk
      obtain ⟨run, hmem, -, -, hselflag, hunflag, hcoflag, hparts⟩ := mem_items cb e hov hi
      have hkept := hparts k hk
      refine ⟨?_, ?_⟩
      · apply hselect.truthful hscalar (by rw [← hselflag]; exact hsel)
        rw [List.mem_flatMap]
        exact ⟨run, hmem, (hkeep run hmem).narrows.inside k hkept⟩
      · exact (hkeep run hmem).truthful (by rw [← hunflag]; exact huneval) (by rw [← hcoflag]; exact hco) k hkept

/-- An item whose predicate bits are clear holds only elements that satisfy the predicate, whatever stands in for the
selection. -/
theorem item_satisfies {space : Dataspace} (hmeets : cb.Meets sem) (hspace : e.spaceEnc = some space)
    (hwf : space.WellFormed) {i : PushItem α φ} (hi : i ∈ cb.items e w.toPushedWrite)
    (huneval : i.delivery.predicateUnevaluated = false) (hco : i.delivery.predicateSpan = false) {k : Nat}
    (hk : k ∈ i.elems) : cb.Satisfies sem e w.toPushedWrite k := by
  cases hov : e.overlap w.toPushedWrite with
  | none =>
    rw [Callbacks.items, hov] at hi
    cases hi
  | some overlap =>
    have hselect := select_spec cb e hspace hwf hov
    obtain ⟨run, hmem, -, -, -, hunflag, hcoflag, hparts⟩ := mem_items cb e hov hi
    have hrun : ∀ k ∈ run.elems, k ∈ overlap.elems := fun k hk =>
      hselect.narrows.inside k (List.mem_flatMap.mpr ⟨run, hmem, hk⟩)
    exact (keep_spec cb sem e hmeets hov hrun).truthful (by rw [← hunflag]; exact huneval)
      (by rw [← hcoflag]; exact hco) k (hparts k hk)

end Steps

/-! ## The table -/

/-- The entry is that of a subscription made with the selection `space`. -/
structure Subscription.MadeFrom (e : Subscription) (space : Dataspace) : Prop where
  sent : e.spaceEnc = some space
  wf : space.WellFormed
  start : e.selStart = ((space1dBounds space).getD ⟨0, uint64Max⟩).start
  count : e.selCount = ((space1dBounds space).getD ⟨0, uint64Max⟩).count

/-- One entry for a member and a path, each made by a subscription. -/
structure TableOk (table : List Subscription) : Prop where
  unique : table.Pairwise fun e e' => ¬ (e.member = e'.member ∧ e.path = e'.path)
  made : ∀ e ∈ table, ∃ space, e.MadeFrom space

theorem renew_madeFrom (e : Subscription) {space : Dataspace} (hwf : space.WellFormed) (dcplEnc : Option Bytes)
    (staged : Bool) : (e.renew space dcplEnc staged).MadeFrom space := ⟨rfl, hwf, rfl, rfl⟩

/-- An update of entries that leaves whose they are. -/
theorem TableOk.map {table : List Subscription} (h : TableOk table) {f : Subscription → Subscription}
    (hkey : ∀ e, (f e).member = e.member ∧ (f e).path = e.path)
    (hmade : ∀ e ∈ table, ∃ space, (f e).MadeFrom space) : TableOk (table.map f) := by
  constructor
  · rw [List.pairwise_map]
    refine h.unique.imp ?_
    intro e e' hne heq
    rw [(hkey e).1, (hkey e).2, (hkey e').1, (hkey e').2] at heq
    exact hne heq
  · intro e he
    obtain ⟨e', he', rfl⟩ := List.mem_map.mp he
    exact hmade e' he'

/-- Every request and every departure keeps the table. -/
theorem tableStep_ok {table : List Subscription} (h : TableOk table) {ev : TableEvent}
    (hspace : ∀ member path space dcplEnc staged,
      ev = .request member path (.subscribe space dcplEnc staged) → space.WellFormed) :
    TableOk (tableStep table ev) := by
  cases ev with
  | request member path r =>
    show TableOk (subscribeUlt table member path r)
    cases r with
    | subscribe space dcplEnc staged =>
      have hwf := hspace member path space dcplEnc staged rfl
      simp only [subscribeUlt]
      split
      · refine h.map (fun e => ?_) fun e he => ?_
        · split <;> exact ⟨rfl, rfl⟩
        · split
          · exact ⟨space, renew_madeFrom e hwf dcplEnc staged⟩
          · exact h.made e he
      · rename_i hnone
        constructor
        · rw [List.pairwise_append]
          refine ⟨h.unique, List.pairwise_singleton _ _, ?_⟩
          intro e he e' he' heq
          rw [List.mem_singleton.mp he'] at heq
          exact hnone (List.any_eq_true.mpr ⟨e, he, decide_eq_true heq⟩)
        · intro e he
          rcases List.mem_append.mp he with he | he
          · exact h.made e he
          · rw [List.mem_singleton.mp he]
            exact ⟨space, renew_madeFrom _ hwf dcplEnc staged⟩
    | predicate predEnc =>
      refine h.map (fun e => ?_) fun e he => ?_
      · split <;> exact ⟨rfl, rfl⟩
      · obtain ⟨space, hmade⟩ := h.made e he
        split
        · exact ⟨space, hmade.sent, hmade.wf, hmade.start, hmade.count⟩
        · exact ⟨space, hmade⟩
    | wantType typeEnc =>
      refine h.map (fun e => ?_) fun e he => ?_
      · split <;> exact ⟨rfl, rfl⟩
      · obtain ⟨space, hmade⟩ := h.made e he
        split
        · exact ⟨space, hmade.sent, hmade.wf, hmade.start, hmade.count⟩
        · exact ⟨space, hmade⟩
    | release =>
      refine h.map (fun e => ?_) fun e he => ?_
      · split <;> exact ⟨rfl, rfl⟩
      · obtain ⟨space, hmade⟩ := h.made e he
        split
        · exact ⟨space, hmade.sent, hmade.wf, hmade.start, hmade.count⟩
        · exact ⟨space, hmade⟩
  | left member => exact ⟨h.unique.filter _, fun e he => h.made e (List.mem_filter.mp he).1⟩
  | taken member paths =>
    refine h.map (fun e => ?_) fun e he => ?_
    · split <;> exact ⟨rfl, rfl⟩
    · obtain ⟨space, hmade⟩ := h.made e he
      split
      · exact ⟨space, hmade.sent, hmade.wf, hmade.start, hmade.count⟩
      · exact ⟨space, hmade⟩

/-- The transport serves the entry `e` a write: it is live, of another member, and every forward to
that member succeeds. -/
structure Transport.Serves (tr : Transport α φ) (e : Subscription) : Prop where
  group : tr.inGroup = true
  table : TableOk tr.subTable
  entry : e ∈ tr.subTable
  live : e.backfill = .live
  other : e.member ≠ tr.selfId
  only : ∀ only ∈ tr.pushOnly, e.member = only
  addr : tr.hasAddr e.member = true
  reaches : ∀ item, tr.unreachable e.member item = false

theorem issue_all {unreachable : PushItem α φ → Bool} (h : ∀ item, unreachable item = false)
    (items : List (PushItem α φ)) : issue unreachable items = items := by
  induction items with
  | nil => rfl
  | cons item rest ih =>
    rw [issue, h item, ih]
    rfl

/-- A member's items are those of its one entry. -/
theorem itemsTo_eq {tr : Transport α φ} {e : Subscription} (h : tr.Serves e) {w : PushedWrite α}
    (hpath : e.path = w.path) (hsize : w.elemSize ≠ 0) :
    tr.itemsTo e.member w = tr.callbacks.items e w := by
  obtain ⟨before, after, hsplit⟩ := List.append_of_mem h.entry
  have hunique := h.table.unique
  rw [hsplit, List.pairwise_append, List.pairwise_cons] at hunique
  obtain ⟨-, ⟨hafter, -⟩, hbefore⟩ := hunique
  -- an entry of another member or another path contributes nothing
  have hnone : ∀ l : List Subscription, (∀ e' ∈ l, e'.path = w.path → e'.member ≠ e.member) →
      (((l.filter (tr.targets w.path)).flatMap (tr.serve w)).filterMap
        fun p => if p.1 = e.member then some p.2 else none) = [] := by
    intro l hl
    rw [List.filterMap_eq_nil_iff]
    intro p hp
    obtain ⟨e', he', hp⟩ := List.mem_flatMap.mp hp
    obtain ⟨hmem, hcond⟩ := List.mem_filter.mp he'
    have hne := hl e' hmem (of_decide_eq_true hcond).1
    unfold Transport.serve at hp
    split at hp
    · exact absurd hp List.not_mem_nil
    · obtain ⟨item, -, rfl⟩ := List.mem_map.mp hp
      exact if_neg hne
  have hself : tr.targets w.path e = true := decide_eq_true ⟨hpath, h.only, h.live⟩
  have hserve : tr.serve w e = (tr.callbacks.items e w).map (e.member, ·) := by
    rw [Transport.serve, if_neg (by rw [h.addr]; simp [h.other]), issue_all h.reaches]
  have hid : ((fun p : MemberId × PushItem α φ => if p.1 = e.member then some p.2 else none) ∘ (e.member, ·)) = some := by
    funext item
    exact if_pos rfl
  unfold Transport.itemsTo Transport.pushData
  rw [if_neg (by rw [h.group]; simp [hsize]), hsplit, List.filter_append, List.filter_cons_of_pos hself,
    List.flatMap_append, List.flatMap_cons, List.filterMap_append, List.filterMap_append,
    hnone before fun e' he' hp heq => hbefore e' he' e List.mem_cons_self ⟨heq, hp.trans hpath.symm⟩,
    hnone after fun e' he' hp heq => hafter e' he' ⟨heq.symm, hpath.trans hp.symm⟩,
    hserve, List.filterMap_map, hid, List.filterMap_some, List.nil_append, List.append_nil]

/-! ## When the span reaches what was selected -/

/-- The span holds every written element the subscriber selected. -/
def Subscription.Reaches (e : Subscription) (space : Dataspace) (w : DatasetWrite α) : Prop :=
  ∀ k, w.start ≤ k → k < w.start + w.count → space.selectsAt (unflat w.extent.dims k) = true →
    e.selStart ≤ k ∧ k < e.subEnd

theorem npoints_le_of_wellFormed {s : Dataspace} (hwf : s.WellFormed) : s.extent.npoints ≤ uint64Max := by
  obtain ⟨extent, sel⟩ := s
  cases extent with
  | null => exact Nat.zero_le _
  | scalar =>
    show 1 ≤ uint64Max
    decide
  | simple dims => exact hwf.2.1

/-- The span the reader computed reaches whatever it selected of an extent comparable with its own. -/
theorem reaches_of_comparable {e : Subscription} {space : Dataspace} (hmade : e.MadeFrom space) {w : DatasetWrite α}
    (hlen : space.extent.dims.length = w.extent.dims.length) (htail : space.extent.dims.tail = w.extent.dims.tail) :
    e.Reaches space w := by
  intro k hstart hend hsel
  have hinside := w.inside
  have hflat := (selectsFlat_iff_selectsAt hmade.wf hlen htail (by omega)).mpr hsel
  obtain ⟨span, hspan, hlow, hhigh, hlast⟩ := space1dBounds_covers hmade.wf hflat
  have hfits := npoints_le_of_wellFormed hmade.wf
  have hselStart := hmade.start
  have hselCount := hmade.count
  rw [hspan, Option.getD_some] at hselStart hselCount
  have h64 : uint64Max = 2 ^ 64 - 1 := rfl
  refine ⟨by omega, ?_⟩
  unfold Subscription.subEnd
  split
  · omega
  · rw [Nat.mod_eq_of_lt (by omega)]
    omega

/-! ## The routing -/

/-- Callbacks that keep everything, over a predicate everything satisfies. -/
def keepAll (α φ : Type) : Callbacks α φ where
  selecting := true
  convertFn := none
  predicateFn := some fun buf _ _ => some ([⟨0, buf.length⟩], false)
  refilterShapeFn := none
  refilterFn := none

def trivialSem (α : Type) : ValueSem α := ⟨fun _ _ _ => true, fun _ _ v => v⟩

theorem keepAll_meets : (keepAll α φ).Meets (trivialSem α) where
  converts fn hfn := by cases hfn
  inside fn hfn buf predEnc typeEnc runs coalesced hruns := by
    cases hfn
    cases hruns
    intro r hr
    rw [List.mem_singleton.mp hr]
    exact Nat.le_of_eq (Nat.zero_add _)
  ascend fn hfn buf predEnc typeEnc runs coalesced hruns := by
    cases hfn
    cases hruns
    exact List.pairwise_singleton _ _
  complete fn hfn buf predEnc typeEnc runs coalesced hruns := by
    cases hfn
    cases hruns
    intro i v hv _
    refine ⟨_, List.mem_singleton_self _, Run.mem_elems.mpr ⟨Nat.zero_le _, ?_⟩⟩
    rw [Nat.zero_add]
    exact (List.getElem?_eq_some_iff.mp hv).1
  exact fn hfn buf predEnc typeEnc runs hruns := by
    intros
    rfl

/-- A group of the writer and one subscriber. -/
def oneSubscriber (e : Subscription) (cb : Callbacks α φ) : Transport α φ where
  inGroup := true
  selfId := e.member + 1
  pushOnly := none
  subTable := [e]
  callbacks := cb
  hasAddr _ := true
  unreachable _ _ := false

theorem oneSubscriber_serves {e : Subscription} {space : Dataspace} (hmade : e.MadeFrom space) (hlive : e.backfill = .live)
    (cb : Callbacks α φ) : (oneSubscriber e cb).Serves e where
  group := rfl
  table := ⟨List.pairwise_singleton _ _, fun e' he' => by
    rw [List.mem_singleton.mp he']
    exact ⟨space, hmade⟩⟩
  entry := List.mem_singleton_self e
  live := hlive
  other := Nat.ne_of_lt (Nat.lt_succ_self _)
  only := by simp [oneSubscriber]
  addr := rfl
  reaches _ := rfl

/-- The scalar taken whole is sent as selected. -/
theorem scalar_sent {e : Subscription} {space : Dataspace} (hmade : e.MadeFrom space) {w : DatasetWrite α}
    (hscalar : ScalarTakenWhole space w) :
    ∃ i ∈ (keepAll α φ).items e w.toPushedWrite, 0 ∈ i.elems ∧ i.delivery.selectionSpan = false ∧
      i.delivery.predicateUnevaluated = false ∧ i.delivery.predicateSpan = false := by
  obtain ⟨rfl, hdims, hsent, hcount⟩ := hscalar
  obtain ⟨wsp, hwsp⟩ := Option.isSome_iff_exists.mp hsent
  have hstart : e.selStart = 0 := hmade.start
  have hone : e.selCount = 1 := hmade.count
  have hinside := w.inside
  have hpoints : w.extent.npoints ≤ 1 := by
    cases hext : w.extent with
    | null => exact Nat.zero_le _
    | scalar => exact Nat.le_refl _
    | simple dims =>
      rw [hext] at hdims
      have hdims : dims = [] := hdims
      subst hdims
      exact Nat.le_refl _
  have hend : e.subEnd = 1 := by
    rw [Subscription.subEnd, hstart, hone]
    rfl
  cases hov : e.overlap w.toPushedWrite with
  | none => exact absurd ⟨by omega, by omega, by omega, by omega⟩ (overlap_eq_none e hov 0)
  | some overlap =>
    obtain ⟨-, hwstart, hpos, -, hwend, -⟩ := overlap_eq_some e hov
    have hover : overlap = ⟨0, 1⟩ := by
      obtain ⟨ostart, ocount⟩ := overlap
      simp only at hwstart hpos hwend
      rw [show ostart = 0 from by omega, show ocount = 1 from by omega]
    subst hover
    have hselect : (keepAll α φ).select e w.toPushedWrite ⟨0, 1⟩ = ([⟨0, 1⟩], false) := by
      have hcomp : comparable ⟨.scalar, .none⟩ wsp = true := by
        rw [comparable, w.described wsp hwsp, hdims]
        rfl
      have hruns : selectionRuns ⟨.scalar, .none⟩ w.spaceEnc 0 1 maxPredRuns = some [⟨0, 1⟩] := by
        rw [hwsp, selectionRuns, if_neg (by decide)]
        simp only [hcomp, if_true]
        decide
      rw [Callbacks.select, hmade.sent]
      simp only [keepAll, if_true, hruns]
    have hk : 0 ∈ (placed 0 ((keepAll α φ).select e w.toPushedWrite ⟨0, 1⟩).1).flatMap Run.elems := by
      rw [hselect]
      decide
    obtain ⟨i, hi, hki⟩ := mem_items_of_selected (keepAll α φ) (trivialSem α) e keepAll_meets hmade.sent hmade.wf hov hk
      (fun _ _ _ _ => rfl)
    obtain ⟨run, -, -, -, hspan, huneval, hco, -⟩ := mem_items (keepAll α φ) e hov hi
    have hflags : ∀ v : View α, ((keepAll α φ).keep e v run).2 = (false, false) := by
      intro v
      unfold Callbacks.keep
      cases e.predEnc <;> rfl
    refine ⟨i, hi, hki, ?_, ?_, ?_⟩
    · rw [hspan, hselect]
    · rw [huneval, hflags]
    · rw [hco, hflags]

/-- A write of a path is routed to a live subscriber of it as it should be, whatever else the table
holds, whatever the values and the callbacks, exactly when the subscriber's span reaches every
written element it selected and it did not select nothing of a scalar. The span of an extent
comparable with the dataset's does. -/
theorem routes_iff {e : Subscription} {space : Dataspace} (hmade : e.MadeFrom space) (hlive : e.backfill = .live)
    (w : DatasetWrite α) (hpath : e.path = w.path) :
    ((∀ (tr : Transport α φ) (sem : ValueSem α), tr.Serves e → tr.callbacks.Meets sem →
        Routes tr.callbacks sem e space w (tr.itemsTo e.member w.toPushedWrite)) ↔
      e.Reaches space w ∧ ¬ ScalarTakenWhole space w) ∧
    (space.extent.dims.length = w.extent.dims.length → space.extent.dims.tail = w.extent.dims.tail →
      e.Reaches space w) := by
  refine ⟨⟨?_, ?_⟩, reaches_of_comparable hmade⟩
  · intro hroutes
    have hroutes := hroutes (oneSubscriber e (keepAll α φ)) (trivialSem α) (oneSubscriber_serves hmade hlive _)
      keepAll_meets
    rw [itemsTo_eq (oneSubscriber_serves hmade hlive _) hpath w.sized] at hroutes
    obtain ⟨-, hspan, -, -, -⟩ := items_spec (keepAll α φ) (trivialSem α) e (w := w) keepAll_meets hmade.sent hmade.wf
    refine ⟨?_, ?_⟩
    · intro k hstart hend hsel
      obtain ⟨i, hi, hk⟩ := hroutes.complete k hstart hend hsel fun _ _ _ _ => rfl
      have := hspan i hi k hk
      omega
    · intro hscalar
      obtain ⟨i, hi, hzero, hsel, huneval, hco⟩ := scalar_sent (φ := φ) hmade hscalar
      have htrue := (hroutes.truthful i hi hsel huneval hco 0 hzero).1
      rw [hscalar.1] at htrue
      cases htrue
  · rintro ⟨hreaches, hscalar⟩ tr sem hserves hmeets
    rw [itemsTo_eq hserves hpath w.sized]
    obtain ⟨hapart, hspan, hcarries, hcomplete, htruthful⟩ :=
      items_spec tr.callbacks sem e (w := w) hmeets hmade.sent hmade.wf
    refine ⟨hapart, ?_, hcarries, ?_, htruthful hscalar⟩
    · intro i hi k hk
      exact ⟨(hspan i hi k hk).2.2.1, (hspan i hi k hk).2.2.2⟩
    · intro k hstart hend hsel hsat
      obtain ⟨hlow, hhigh⟩ := hreaches k hstart hend hsel
      exact hcomplete k hstart hend hlow hhigh hsel hsat

/-- A 2 × 4 dataset of the numbers 0 to 7, written whole. -/
def wholeWrite : DatasetWrite Nat where
  physicalStep := 0
  path := ['d']
  buf := [0, 1, 2, 3, 4, 5, 6, 7]
  elemSize := 4
  start := 0
  count := 8
  typeEnc := ⟨[1, 4], 4, .none, false⟩
  nativeDcplEnc := none
  spaceEnc := some ⟨.simple [2, 4], .all⟩
  extent := .simple [2, 4]
  fits := by decide
  inside := by decide
  packed := rfl
  sized := by decide
  described := by
    intro s hs
    cases hs
    rfl

/-- A subscriber of two of its columns gets their four elements, one by one. -/
theorem columnPair_routes :
    let e := Subscription.request 1 ['d'] columnPair none
    let tr := oneSubscriber e (keepAll Nat Unit)
    (tr.itemsTo 1 wholeWrite.toPushedWrite).map (fun i => (i.elemStart, i.elemCount, i.payload)) =
        [(0, 1, .raw [0]), (4, 1, .raw [4]), (2, 1, .raw [2]), (6, 1, .raw [6])] ∧
      Routes (keepAll Nat Unit) (trivialSem Nat) e columnPair wholeWrite (tr.itemsTo 1 wholeWrite.toPushedWrite) := by
  have hmade : (Subscription.request 1 ['d'] columnPair none).MadeFrom columnPair :=
    ⟨rfl, columnPair_wellFormed, rfl, rfl⟩
  obtain ⟨hiff, hreaches⟩ := routes_iff (φ := Unit) hmade rfl wholeWrite rfl
  refine ⟨by decide, hiff.mpr ⟨hreaches rfl rfl, ?_⟩ _ _ (oneSubscriber_serves hmade rfl _) keepAll_meets⟩
  intro hscalar
  exact absurd hscalar.1 (by decide)

/-- A 2 × 2 extent, all of it selected. -/
def smallSquare : Dataspace := ⟨.simple [2, 2], .all⟩

/-- The subscriber's span is the flat range [0, 4) of its own extent, which in the dataset is the first
row: the second row's two selected elements are not sent. -/
theorem smallSquare_undersent :
    let e := Subscription.request 1 ['d'] smallSquare none
    let tr := oneSubscriber e (keepAll Nat Unit)
    e.MadeFrom smallSquare ∧ tr.Serves e ∧ tr.callbacks.Meets (trivialSem Nat) ∧
      (tr.itemsTo 1 wholeWrite.toPushedWrite).map (fun i => (i.elemStart, i.elemCount, i.delivery.selectionSpan)) =
        [(0, 4, true)] ∧
      smallSquare.selectsAt (unflat wholeWrite.extent.dims 4) = true ∧
      ¬ Routes (keepAll Nat Unit) (trivialSem Nat) e smallSquare wholeWrite
        (tr.itemsTo 1 wholeWrite.toPushedWrite) := by
  have hwf : smallSquare.WellFormed :=
    ⟨by decide, by decide, by decide, List.Pairwise.nil, by decide, by decide⟩
  have hmade : (Subscription.request 1 ['d'] smallSquare none).MadeFrom smallSquare := ⟨rfl, hwf, rfl, rfl⟩
  refine ⟨hmade, oneSubscriber_serves hmade rfl _, keepAll_meets, by decide, by decide, ?_⟩
  intro hroutes
  obtain ⟨i, hi, hk⟩ := hroutes.complete 4 (by decide) (by decide) (by decide) fun _ _ _ _ => rfl
  have hall : ∀ i ∈ (oneSubscriber (Subscription.request 1 ['d'] smallSquare none) (keepAll Nat Unit)).itemsTo 1
      wholeWrite.toPushedWrite, 4 ∉ i.elems := by decide
  exact hall i hi hk

end VolStream
