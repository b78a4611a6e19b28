import VolStream.Transport.Assemble
import VolStream.Transport.Routed
import VolStream.Writer.CarryForward

/-!
# A step's array against the step

What `File.next_step` returns for a path, from the writes of the step: each is cut into flat runs, each run is
routed to the subscriber and read back by the Python reader, and the pushes are assembled. The array holds, not
masked, the selected elements the step wrote whose last value satisfies the predicate, and that value, provided
every write goes out run by run in the order it is packed, in the type the reader knows, in an extent that
differs from the one subscribed to in its first dimension at most, and no value that satisfies the predicate
is overwritten by one that does not (nobody is sent that one).
-/

namespace VolStream

open RowMajor LastWins

variable {α φ : Type}

/-! ## The subscription -/

/-- `_growing_extent`. -/
def growingExtent : List Nat → List Nat
  | [] => []
  | d :: ds => max d (2 ^ 62 / if ds.prod = 0 then 1 else ds.prod) :: ds

/-- What `subscribe` is asked for: the whole dataset, a box, or every row of a box from its first on. -/
inductive Asked where
  | whole
  | box (start count : List Nat)
  | rows (start rest : List Nat)
deriving DecidableEq, Repr

/-- The dataspace the extension makes of a box: `H5Sselect_hyperslab` takes a count of 0 for nothing. -/
def slabSpace (dims start count : List Nat) : Dataspace :=
  if dims = [] then ⟨.scalar, .all⟩
  else if 0 ∈ count then ⟨.simple dims, .none⟩
  else ⟨.simple dims, .hyperslab [⟨start, List.zipWith (fun s c => s + c - 1) start count⟩]⟩

/-- The selection sent to the writer. -/
def Asked.space (dims : List Nat) (isAttr : Bool) : Asked → Dataspace
  | .whole => if dims = [] then ⟨.scalar, .all⟩ else ⟨.simple (if isAttr then dims else growingExtent dims), .all⟩
  | .box start count => slabSpace dims start count
  | .rows start rest =>
      slabSpace (growingExtent dims) start (((growingExtent dims).headD 0 - start.headD 0) :: rest)

/-- The `_Subscription` kept for it. -/
def Asked.subscription (dims : List Nat) (isAttr tail : Bool) (pred : Option (α → Bool)) : Asked → PySubscription α
  | .whole => ⟨dims, dims.map fun _ => 0, dims, !isAttr && !dims.isEmpty, tail, pred⟩
  | .box start count => ⟨dims, start, count, false, tail, pred⟩
  | .rows start rest => ⟨dims, start, (dims.headD 0 - start.headD 0) :: rest, true, tail, pred⟩

/-- What the extension accepts: a box of the dataset's rank, and rows that start inside the extent it makes. -/
def Asked.Fits (dims : List Nat) : Asked → Prop
  | .whole => True
  | .box start count => start.length = dims.length ∧ count.length = dims.length
  | .rows start rest =>
      dims ≠ [] ∧ start.length = dims.length ∧ rest.length + 1 = dims.length ∧
        start.headD 0 < (growingExtent dims).headD 0

/-! ## The writes -/

/-- A captured `DsetWrite`: its memory type, its file selection, its values as packed. -/
structure CapturedWrite (α : Type) where
  type : Datatype
  space : Dataspace
  values : List α
  dcplEnc : Option Bytes
  wf : space.WellFormed
  packed : values.length = space.packingOrder.length
  sized : type.size ≠ 0

namespace CapturedWrite

/-- The runs it is pushed by: one push each, of a variable-length write only if there is just one. -/
def runs (w : CapturedWrite α) : List Run :=
  if w.type.vlKind = .none then
    match space1dBounds w.space with
    | none => []
    | some _ => (spaceFlatRuns w.space maxPushRuns).getD []
  else
    match spaceFlatRuns w.space 1 with
    | some [run] => if w.values = [] then [] else [run]
    | _ => []

/-- The push of one run, as the transport is handed it. -/
def pushed (w : CapturedWrite α) (step : Nat) (path : Path) (p : Push α) : PushedWrite α where
  physicalStep := step
  path := path
  buf := p.data
  elemSize := w.type.size
  start := p.start
  count := p.count
  typeEnc := w.type
  nativeDcplEnc := w.dcplEnc
  spaceEnc := some w.space

/-- `vs_tr_writer_push_opaque`: the whole run, if the subscriber's span touches it. -/
def opaqueItems (cb : Callbacks α φ) (e : Subscription) (w : PushedWrite α) : List (PushItem α φ) :=
  let past := (w.start + w.count) % 2 ^ 64
  if e.selStart ≥ past ∨ e.subEnd ≤ w.start then []
  else
    let span : Bool :=
      if e.selStart > w.start ∨ e.subEnd < past then true
      else match e.spaceEnc with
        | none => false
        | some space => !(cb.selecting && decide (selectionRuns space w.spaceEnc w.start w.count 1 = some [⟨0, w.count⟩]))
    [⟨w.physicalStep, w.path, w.start, w.count, .raw w.buf, w.typeEnc,
      ⟨span, e.predEnc.isSome, false, e.wantTypeEnc.isSome⟩⟩]

/-- What the subscriber is sent of one run. -/
def sent (cb : Callbacks α φ) (e : Subscription) (w : CapturedWrite α) (step : Nat) (path : Path) (p : Push α) :
    List (PushItem α φ) :=
  if w.type.vlKind = .none then cb.items e (w.pushed step path p) else opaqueItems cb e (w.pushed step path p)

/-- What it is sent of the write. -/
def items (cb : Callbacks α φ) (e : Subscription) (step : Nat) (path : Path) (w : CapturedWrite α) :
    List (PushItem α φ) :=
  (pushRuns w.values 0 w.runs).flatMap (w.sent cb e step path)

/-- The elements the write stores, by flat index, each with its value. -/
def pairs (w : CapturedWrite α) : List (Nat × α) := w.space.packingOrder.zip w.values

/-- The same by coordinates. -/
def stored (w : CapturedWrite α) : List (List Nat × α) := w.pairs.map fun p => (unflat w.space.extent.dims p.1, p.2)

/-- Every element of the write goes out, in the order it is packed. -/
def InOrder (w : CapturedWrite α) : Prop := w.runs.flatMap Run.elems = w.space.packingOrder

instance (w : CapturedWrite α) : Decidable w.InOrder :=
  inferInstanceAs (Decidable (w.runs.flatMap Run.elems = w.space.packingOrder))

end CapturedWrite

/-- The value the committed step has at the coordinates `x`, if it wrote them. -/
def committedAt (writes : List (CapturedWrite α)) (x : List Nat) : Option α :=
  lookupLast (writes.flatMap CapturedWrite.stored) x

/-! ## The reader -/

/-- What the extension and NumPy make of bytes: a filtered payload decoded, and a value of one type taken for one of
another. -/
structure PyBytes (α φ : Type) where
  decode : Bytes → φ → List α
  reread : Datatype → Datatype → α → α
  same : ∀ t v, reread t t v = v

/-- `_push`: `none` is the `Error` of `values`. -/
def readItem (py : PyBytes α φ) (dtype : Datatype) (i : PushItem α φ) : Option (PyPush α) :=
  let data := match i.payload with
    | .raw data => data
    | .filtered dcplEnc data => py.decode dcplEnc data
  if dtype.vlKind ≠ .none ∨ i.typeEnc.size = dtype.size then
    some ⟨i.elemStart, data.map (py.reread i.typeEnc dtype),
      i.delivery.predicateUnevaluated || i.delivery.predicateSpan⟩
  else none

/-- The path's array in the `Step`, if there is one; `none` when `next_step` raises. -/
def stepArray [Zero α] (py : PyBytes α φ) (dtype : Datatype) (sub : PySubscription α) (items : List (PushItem α φ)) :
    Option (Option (StepArray α)) :=
  (items.mapM (readItem py dtype)).map fun pushes => if pushes.isEmpty then none else some (sub.assemble pushes)

/-! ## The property -/

/-- The array holds, not masked, just the selected elements the step wrote whose value satisfies the predicate, each
with that value. -/
def ExactArray (sub : PySubscription α) (space : Dataspace) (writes : List (CapturedWrite α))
    (result : Option (StepArray α)) : Prop :=
  ∀ x v, (∃ a, result = some a ∧ a.Unmasked sub x v) ↔
    space.selectsAt x = true ∧ committedAt writes x = some v ∧ sub.holds v = true

/-! ## The runs of a write -/

namespace CapturedWrite

variable {w : CapturedWrite α}

theorem runs_pos : ∀ r ∈ w.runs, 0 < r.count := by
  have hinside : ∀ {maxRuns : Nat} {runs : List Run}, spaceFlatRuns w.space maxRuns = some runs →
      ∀ r ∈ runs, 0 < r.count := fun h r hr => (spaceFlatRunsRange_inside h r hr).1
  unfold CapturedWrite.runs
  split
  · split
    · exact fun _ h => absurd h List.not_mem_nil
    · cases hruns : spaceFlatRuns w.space maxPushRuns with
      | none => exact fun _ h => absurd h List.not_mem_nil
      | some runs => exact hinside hruns
  · split
    · rename_i run hrun
      split
      · exact fun _ h => absurd h List.not_mem_nil
      · exact hinside hrun
    · exact fun _ h => absurd h List.not_mem_nil

theorem packingOrder_lt : ∀ k ∈ w.space.packingOrder, k < w.space.extent.npoints := by
  have hwf := w.wf
  generalize w.space = space at hwf
  obtain ⟨extent, sel⟩ := space
  unfold Dataspace.packingOrder
  cases sel with
  | none => exact fun _ h => absurd h List.not_mem_nil
  | all => exact fun k hk => List.mem_range.mp hk
  | hyperslab blocks => exact fun k hk => List.mem_range.mp (List.mem_of_mem_filter hk)
  | points coords =>
    cases extent with
    | null => rcases hwf with h | h <;> cases h
    | scalar => rcases hwf with h | h <;> cases h
    | simple dims =>
      intro k hk
      obtain ⟨c, hc, rfl⟩ := List.mem_map.mp hk
      exact flat_lt_of_inExtent (hwf.2.2.2.2.1 c hc)

theorem packingOrder_nodup (h : w.InOrder) : w.space.packingOrder.Nodup := by
  cases hsel : w.space.sel with
  | none =>
    unfold Dataspace.packingOrder
    rw [hsel]
    exact List.nodup_nil
  | all =>
    unfold Dataspace.packingOrder
    rw [hsel]
    exact List.nodup_range
  | hyperslab blocks =>
    unfold Dataspace.packingOrder
    rw [hsel]
    exact List.nodup_range.filter _
  | points coords =>
    -- points are not cut into runs, so there are none
    have hnone : ∀ maxRuns, spaceFlatRuns w.space maxRuns = none := by
      intro maxRuns
      have hwf := w.wf
      generalize w.space = space at hwf hsel
      obtain ⟨extent, sel⟩ := space
      have hsel' : sel = .points coords := hsel
      subst hsel'
      unfold spaceFlatRuns spaceFlatRunsRange
      split
      · rfl
      · cases extent with
        | null => rfl
        | scalar => rcases hwf with h | h <;> cases h
        | simple dims =>
          cases dims with
          | nil => rfl
          | cons d ds => rfl
    have hruns : w.runs = [] := by
      unfold CapturedWrite.runs
      rw [hnone, hnone]
      split
      · split
        · rfl
        · rfl
      · rfl
    unfold CapturedWrite.InOrder at h
    rw [hruns] at h
    rw [← h]
    exact List.nodup_nil

theorem length_runs (h : w.InOrder) : (w.runs.flatMap Run.elems).length = w.values.length := by
  rw [h, w.packed]

/-- The pushes of an orderly write hold what it stores. -/
theorem pushes_pairs (h : w.InOrder) : (pushRuns w.values 0 w.runs).flatMap Push.pairs = w.pairs := by
  rw [pushRuns_pairs w.values w.runs 0 (by rw [length_runs h]; omega), List.drop_zero, h]
  rfl

end CapturedWrite

/-- Each push is a run with as many values as it has elements. -/
theorem run_of_mem_pushRuns {payload : List α} : ∀ {runs : List Run} {first : Nat} {p : Push α},
    first + (runs.flatMap Run.elems).length ≤ payload.length → p ∈ pushRuns payload first runs →
    ∃ r ∈ runs, p.start = r.start ∧ p.count = r.count ∧ p.data.length = p.count
  | [], _, _, _, h => by cases h
  | r :: runs, first, p, hlen, h => by
    have hr : r.elems.length = r.count := List.length_range'
    rw [List.flatMap_cons, List.length_append, hr] at hlen
    rcases List.mem_cons.mp h with rfl | h
    · refine ⟨r, List.mem_cons_self, rfl, rfl, ?_⟩
      show ((payload.drop first).take r.count).length = r.count
      rw [List.length_take, List.length_drop]
      omega
    · obtain ⟨r', hr', hrest⟩ := run_of_mem_pushRuns (by omega) h
      exact ⟨r', List.mem_cons_of_mem _ hr', hrest⟩

theorem lookupLast_push {p : Push α} (hlen : p.data.length = p.count) {k : Nat} {v : α} :
    lookupLast p.pairs k = some v ↔ p.start ≤ k ∧ k < p.start + p.count ∧ p.data[k - p.start]? = some v := by
  have hnodup : (p.pairs.map (·.1)).Nodup := by
    unfold Push.pairs
    rw [List.map_fst_zip (by rw [List.length_range', hlen])]
    exact List.nodup_range'
  have hmem : (k, v) ∈ p.pairs ↔ p.start ≤ k ∧ k < p.start + p.count ∧ p.data[k - p.start]? = some v := by
    unfold Push.pairs
    rw [List.mem_iff_getElem?]
    constructor
    · rintro ⟨i, hi⟩
      rw [List.getElem?_zip_eq_some] at hi
      obtain ⟨hk, hv⟩ := hi
      have hlt := (List.getElem?_eq_some_iff.mp hv).1
      rw [List.getElem?_range' (by omega)] at hk
      have hk' : p.start + 1 * i = k := Option.some.inj hk
      refine ⟨by omega, by omega, ?_⟩
      rw [show k - p.start = i from by omega]
      exact hv
    · rintro ⟨hle, hlt, hv⟩
      refine ⟨k - p.start, ?_⟩
      rw [List.getElem?_zip_eq_some, List.getElem?_range' (by omega)]
      exact ⟨congrArg some (by omega), hv⟩
  exact ⟨fun h => hmem.mp (mem_of_lookupLast h), fun h => lookupLast_of_mem hnodup (hmem.mpr h)⟩

/-! ## What is sent of a run -/

/-- The entry at the writer is that of the subscription: no other type and no filters were asked for, and the
predicate is the reader's. -/
structure Subscribed (sem : ValueSem α) (dtype : Datatype) (sub : PySubscription α) (space : Dataspace)
    (e : Subscription) : Prop where
  made : e.MadeFrom space
  plain : e.wantTypeEnc = none
  unfiltered : e.dcplEnc = none
  agrees : ∀ v, sub.holds v = true ↔ ∀ predEnc, e.predEnc = some predEnc → sem.holds predEnc dtype v = true

/-- The values an item carries. -/
def PushItem.data (py : PyBytes α φ) (i : PushItem α φ) : List α :=
  match i.payload with
  | .raw data => data
  | .filtered dcplEnc data => py.decode dcplEnc data

/-- An item of the type the reader knows, read. -/
def PushItem.push (py : PyBytes α φ) (i : PushItem α φ) : PyPush α :=
  ⟨i.elemStart, i.data py, i.delivery.predicateUnevaluated || i.delivery.predicateSpan⟩

theorem readItem_eq (py : PyBytes α φ) {dtype : Datatype} {i : PushItem α φ} (htype : i.typeEnc = dtype) :
    readItem py dtype i = some (i.push py) := by
  have hid : (i.data py).map (py.reread dtype dtype) = i.data py := by
    rw [show py.reread dtype dtype = id from funext (py.same dtype), List.map_id]
  show (if dtype.vlKind ≠ .none ∨ i.typeEnc.size = dtype.size then
    some (⟨i.elemStart, (i.data py).map (py.reread i.typeEnc dtype), _⟩ : PyPush α) else none) = _
  rw [htype, if_pos (.inr rfl), hid]
  rfl

theorem viewOf_plain (cb : Callbacks α φ) {e : Subscription} (h : e.wantTypeEnc = none) (w : PushedWrite α) :
    cb.viewOf e w = w.native := by
  have hview : ∀ overlap, cb.view e w overlap = w.native := by
    intro overlap
    unfold Callbacks.view
    rw [h]
  unfold Callbacks.viewOf
  split
  · rfl
  · exact hview _

theorem valueAt_plain (cb : Callbacks α φ) (sem : ValueSem α) {e : Subscription} (h : e.wantTypeEnc = none)
    (w : PushedWrite α) (k : Nat) : cb.valueAt sem e w k = w.buf[k - w.start]? := by
  unfold Callbacks.valueAt
  rw [viewOf_plain cb h]
  exact Option.map_id'

section Sent

variable {cb : Callbacks α φ} {sem : ValueSem α} {dtype : Datatype} {sub : PySubscription α} {space : Dataspace}
  {e : Subscription} {w : CapturedWrite α} {p : Push α}

/-- A push of an orderly write lies in the dataset. -/
def CapturedWrite.datasetWrite (w : CapturedWrite α) (h : w.InOrder) (step : Nat) (path : Path) (p : Push α)
    (hp : p ∈ pushRuns w.values 0 w.runs) : DatasetWrite α where
  toPushedWrite := w.pushed step path p
  extent := w.space.extent
  fits := npoints_le_of_wellFormed w.wf
  inside := by
    obtain ⟨r, hr, hstart, hcount, -⟩ := run_of_mem_pushRuns (by rw [CapturedWrite.length_runs h]; omega) hp
    have hpos := CapturedWrite.runs_pos r hr
    have hlast : r.start + r.count - 1 ∈ w.space.packingOrder := by
      rw [← h, List.mem_flatMap]
      exact ⟨r, hr, Run.mem_elems.mpr ⟨by omega, by omega⟩⟩
    have := CapturedWrite.packingOrder_lt _ hlast
    show p.start + p.count ≤ _
    omega
  packed := by
    obtain ⟨-, -, -, -, hlen⟩ := run_of_mem_pushRuns (by rw [CapturedWrite.length_runs h]; omega) hp
    exact hlen
  sized := w.sized
  described := by
    intro s hs
    have hs' : some w.space = some s := hs
    rw [Option.some.inj hs']

/-- What routing a run of a fixed-size type sends. -/
theorem sends_items (hmeets : cb.Meets sem) (hsub : Subscribed sem dtype sub space e) (py : PyBytes α φ)
    (horder : w.InOrder) (htype : w.type = dtype)
    (hlen : space.extent.dims.length = w.space.extent.dims.length)
    (htail : space.extent.dims.tail = w.space.extent.dims.tail) (step : Nat) (path : Path)
    (hp : p ∈ pushRuns w.values 0 w.runs) :
    Sends sub (fun k => space.selectsAt (unflat w.space.extent.dims k) = true) p.pairs
        ((cb.items e (w.pushed step path p)).map (PushItem.push py)) ∧
      ∀ i ∈ cb.items e (w.pushed step path p), i.typeEnc = dtype := by
  obtain ⟨-, -, -, -, hdata⟩ := run_of_mem_pushRuns (by rw [CapturedWrite.length_runs horder]; omega) hp
  obtain ⟨-, hinside, hcarries, hcomplete, -⟩ :=
    @items_spec _ _ cb sem e (w.datasetWrite horder step path p hp) _ hmeets hsub.made.sent hsub.made.wf
  have hreach := reaches_of_comparable hsub.made (w := w.datasetWrite horder step path p hp) hlen htail
  have hvalue : ∀ k, cb.valueAt sem e (w.pushed step path p) k = p.data[k - p.start]? :=
    valueAt_plain cb sem hsub.plain (w.pushed step path p)
  have hsat : ∀ {k v}, p.data[k - p.start]? = some v →
      (cb.Satisfies sem e (w.pushed step path p) k ↔ sub.holds v = true) := by
    intro k v hv
    rw [hsub.agrees v]
    unfold Callbacks.Satisfies
    rw [viewOf_plain cb hsub.plain, hvalue, hv]
    show (∀ predEnc, e.predEnc = some predEnc → ∀ v', some v = some v' → sem.holds predEnc w.type v' = true) ↔ _
    rw [htype]
    exact ⟨fun h predEnc hpred => h predEnc hpred v rfl, fun h predEnc hpred v' hv' => Option.some.inj hv' ▸ h predEnc hpred⟩
  -- the values of an item are those of its elements
  have hitem : ∀ i ∈ cb.items e (w.pushed step path p), i.typeEnc = dtype ∧
      (i.data py).map some = i.elems.map fun k => p.data[k - p.start]? := by
    intro i hi
    obtain ⟨hty, values, hvalues, hpayload⟩ := hcarries i hi
    refine ⟨?_, ?_⟩
    · rw [hty]
      show (cb.viewOf e (w.pushed step path p)).typeEnc = dtype
      rw [viewOf_plain cb hsub.plain]
      exact htype
    · have hraw : i.payload = .raw values := by
        rw [hpayload]
        unfold Callbacks.refilter
        rw [hsub.unfiltered]
      unfold PushItem.data
      rw [hraw]
      show values.map some = _
      rw [hvalues]
      exact List.map_congr_left fun k _ => hvalue k
  have hcount : ∀ i ∈ cb.items e (w.pushed step path p), (i.data py).length = i.elemCount := by
    intro i hi
    have := congrArg List.length (hitem i hi).2
    rw [List.length_map, List.length_map] at this
    rw [this]
    exact List.length_range'
  have hindex : ∀ i ∈ cb.items e (w.pushed step path p), ∀ cell ∈ (i.push py).cells sub,
      cell.index ∈ i.elems ∧ p.data[cell.index - p.start]? = some cell.value := by
    intro i hi cell hcell
    obtain ⟨hle, hlt, hget, -⟩ := PyPush.mem_cells hcell
    have hcount := hcount i hi
    have hle' : i.elemStart ≤ cell.index := hle
    have hlt' : cell.index < i.elemStart + (i.data py).length := hlt
    have hget' : (i.data py)[cell.index - i.elemStart]? = some cell.value := hget
    refine ⟨?_, ?_⟩
    · show cell.index ∈ List.range' i.elemStart i.elemCount
      rw [List.mem_range'_1]
      omega
    · have hat := congrArg (fun l => l[cell.index - i.elemStart]?) (hitem i hi).2
      simp only [List.getElem?_map, PushItem.elems] at hat
      rw [hget', List.getElem?_range' (by omega), Option.map_some, Option.map_some, Option.some.injEq,
        show i.elemStart + 1 * (cell.index - i.elemStart) = cell.index from by omega] at hat
      exact hat.symm
  refine ⟨⟨?_, ?_⟩, ?_⟩
  · intro q hq cell hcell
    obtain ⟨i, hi, rfl⟩ := List.mem_map.mp hq
    obtain ⟨helem, hget⟩ := hindex i hi cell hcell
    have hin := hinside i hi _ helem
    refine ⟨(lookupLast_push hdata).mpr ⟨hin.2.2.1, hin.2.2.2, hget⟩, ?_⟩
    rw [(PyPush.mem_cells hcell).2.2.2]
    split
    · rfl
    · -- the writer let it through
      rename_i hflags
      have hflags' : ¬(i.delivery.predicateUnevaluated || i.delivery.predicateSpan) = true := hflags
      rw [Bool.or_eq_true, not_or, Bool.not_eq_true, Bool.not_eq_true] at hflags'
      have := @item_satisfies _ _ cb sem e (w.datasetWrite horder step path p hp) _ hmeets hsub.made.sent hsub.made.wf
        i hi hflags'.1 hflags'.2 _ helem
      exact ((hsat hget).mp this).symm
  · intro k v hlast hsel hholds
    obtain ⟨hle, hlt, hget⟩ := (lookupLast_push hdata).mp hlast
    obtain ⟨hlow, hhigh⟩ := hreach k hle hlt hsel
    obtain ⟨i, hi, helem⟩ := hcomplete k hle hlt hlow hhigh hsel ((hsat hget).mpr hholds)
    have hcount := hcount i hi
    have helem' : k ∈ List.range' i.elemStart i.elemCount := helem
    rw [List.mem_range'_1] at helem'
    refine ⟨i.push py, List.mem_map.mpr ⟨i, hi, rfl⟩, ?_⟩
    obtain ⟨v', hv'⟩ : ∃ v', (i.data py)[k - i.elemStart]? = some v' := ⟨_, List.getElem?_eq_getElem (by omega)⟩
    refine ⟨_, List.mem_map.mpr ⟨(v', k), ?_, rfl⟩, rfl⟩
    rw [List.mem_zipIdx_iff_le_and_getElem?_sub]
    exact ⟨helem'.1, hv'⟩
  · exact fun i hi => (hitem i hi).1

/-- What is sent of a run of a variable-length type: all of it, for the reader to test. -/
theorem sends_opaque (hsub : Subscribed sem dtype sub space e) (py : PyBytes α φ) (horder : w.InOrder)
    (htype : w.type = dtype) (hlen : space.extent.dims.length = w.space.extent.dims.length)
    (htail : space.extent.dims.tail = w.space.extent.dims.tail) (step : Nat) (path : Path)
    (hp : p ∈ pushRuns w.values 0 w.runs) :
    Sends sub (fun k => space.selectsAt (unflat w.space.extent.dims k) = true) p.pairs
        ((CapturedWrite.opaqueItems cb e (w.pushed step path p)).map (PushItem.push py)) ∧
      ∀ i ∈ CapturedWrite.opaqueItems cb e (w.pushed step path p), i.typeEnc = dtype := by
  obtain ⟨r, hr, hstart, hcount, hdata⟩ := run_of_mem_pushRuns (by rw [CapturedWrite.length_runs horder]; omega) hp
  have hinside := (w.datasetWrite horder step path p hp).inside
  have hfits := npoints_le_of_wellFormed w.wf
  have hreach := reaches_of_comparable hsub.made (w := w.datasetWrite horder step path p hp) hlen htail
  have hpast : (p.start + p.count) % 2 ^ 64 = p.start + p.count := by
    have h64 : uint64Max = 2 ^ 64 - 1 := rfl
    have hinside' : p.start + p.count ≤ w.space.extent.npoints := hinside
    exact Nat.mod_eq_of_lt (by omega)
  have hcases : CapturedWrite.opaqueItems cb e (w.pushed step path p) = [] ∧
        (e.selStart ≥ p.start + p.count ∨ e.subEnd ≤ p.start) ∨
      ∃ span, CapturedWrite.opaqueItems cb e (w.pushed step path p) = [⟨step, path, p.start, p.count, .raw p.data,
        w.type, ⟨span, e.predEnc.isSome, false, e.wantTypeEnc.isSome⟩⟩] := by
    unfold CapturedWrite.opaqueItems
    simp only
    split
    · rename_i hout
      refine .inl ⟨rfl, ?_⟩
      have hout' : e.selStart ≥ (p.start + p.count) % 2 ^ 64 ∨ e.subEnd ≤ p.start := hout
      rw [hpast] at hout'
      exact hout'
    · exact .inr ⟨_, rfl⟩
  rcases hcases with ⟨hnil, hout⟩ | ⟨span, hone⟩
  · rw [hnil]
    refine ⟨⟨fun _ h => absurd h List.not_mem_nil, fun k v hlast hsel _ => ?_⟩, fun _ h => absurd h List.not_mem_nil⟩
    -- the span holds what was selected
    obtain ⟨hle, hlt, -⟩ := (lookupLast_push hdata).mp hlast
    obtain ⟨hlow, hhigh⟩ := hreach k hle hlt hsel
    omega
  · rw [hone]
    refine ⟨⟨fun q hq cell hcell => ?_, fun k v hlast _ _ => ?_⟩, fun i hi => ?_⟩
    · have hq' : q = (⟨p.start, p.data, e.predEnc.isSome || false⟩ : PyPush α) := List.mem_singleton.mp hq
      rw [hq'] at hcell
      obtain ⟨hle, hlt, hget, hgot⟩ := PyPush.mem_cells hcell
      have hlt' : cell.index < p.start + p.data.length := hlt
      refine ⟨(lookupLast_push hdata).mpr ⟨hle, by omega, hget⟩, ?_⟩
      rw [hgot]
      split
      · rfl
      · rename_i hnone
        have hnone' : ¬(e.predEnc.isSome || false) = true := hnone
        rw [Bool.or_false, Option.not_isSome_iff_eq_none] at hnone'
        refine ((hsub.agrees cell.value).mpr fun predEnc hpred => ?_).symm
        rw [hnone'] at hpred
        cases hpred
    · obtain ⟨hle, -, hget⟩ := (lookupLast_push hdata).mp hlast
      refine ⟨_, List.mem_map.mpr ⟨_, List.mem_singleton.mpr rfl, rfl⟩, ?_⟩
      refine ⟨_, List.mem_map.mpr ⟨(v, k), ?_, rfl⟩, rfl⟩
      rw [List.mem_zipIdx_iff_le_and_getElem?_sub]
      exact ⟨hle, hget⟩
    · rw [List.mem_singleton.mp hi]
      exact htype

end Sent

/-! ## What is selected -/

theorem inSlab_zeros {dims cs x : List Nat} (hlen : cs.length = dims.length) :
    inSlab (dims.map fun _ => 0) cs x = inExtent cs x := by
  induction dims generalizing cs x with
  | nil =>
    rw [List.eq_nil_of_length_eq_zero hlen]
    cases x with
    | nil => rfl
    | cons => rfl
  | cons d dims ih =>
    cases cs with
    | nil => cases hlen
    | cons c cs =>
      cases x with
      | nil => rfl
      | cons y x =>
        show (decide (0 ≤ y ∧ y < 0 + c) && inSlab (dims.map fun _ => 0) cs x) = (decide (y < c) && inExtent cs x)
        rw [ih (Nat.succ.inj hlen), Nat.zero_add]
        congr 1
        exact decide_eq_decide.mpr ⟨fun h => h.2, fun h => ⟨Nat.zero_le y, h⟩⟩

theorem inSlab_of_zero {ss cs x : List Nat} (h : 0 ∈ cs) : inSlab ss cs x = false := by
  induction cs generalizing ss x with
  | nil => cases h
  | cons c cs ih =>
    cases ss with
    | nil =>
      cases x with
      | nil => rfl
      | cons => rfl
    | cons s ss =>
      cases x with
      | nil => rfl
      | cons y x =>
        rw [inSlab, Bool.and_eq_false_iff]
        rcases List.mem_cons.mp h with rfl | h
        · exact .inl (decide_eq_false (by omega))
        · exact .inr (ih h)

/-- A box by its corners and by its origin. -/
theorem inBox_eq_inSlab {ss cs x : List Nat} (hlen : cs.length = ss.length) (hpos : 0 ∉ cs) :
    inBox ss (List.zipWith (fun s c => s + c - 1) ss cs) x = inSlab ss cs x := by
  induction ss generalizing cs x with
  | nil =>
    rw [List.eq_nil_of_length_eq_zero hlen]
    cases x with
    | nil => rfl
    | cons => rfl
  | cons s ss ih =>
    cases cs with
    | nil => cases hlen
    | cons c cs =>
      cases x with
      | nil => rfl
      | cons y x =>
        have hc : c ≠ 0 := fun h => hpos (h ▸ List.mem_cons_self)
        rw [List.zipWith_cons_cons, inBox, inSlab,
          ih (Nat.succ.inj hlen) fun h => hpos (List.mem_cons_of_mem _ h)]
        congr 1
        exact decide_eq_decide.mpr ⟨fun h => ⟨h.1, by omega⟩, fun h => ⟨h.1, by omega⟩⟩

section Selected

variable {dims : List Nat} {isAttr tail : Bool} {pred : Option (α → Bool)} {asked : Asked}

theorem selectsAt_slabSpace {dims start count x : List Nat} (hne : dims ≠ []) (hlen : count.length = start.length) :
    (slabSpace dims start count).selectsAt x = inSlab start count x := by
  unfold slabSpace
  rw [if_neg hne]
  split
  · rename_i hzero
    rw [inSlab_of_zero hzero]
    rfl
  · rename_i hpos
    rw [← inBox_eq_inSlab hlen hpos]
    exact Bool.or_false _

/-- The writer's selection and the reader's are the same. -/
theorem Asked.takes_eq (hfits : asked.Fits dims) (hne : dims ≠ []) {x : List Nat} (hlen : x.length = dims.length)
    (hrow : (asked.subscription dims isAttr tail pred).grow = true → x.headD 0 < (growingExtent dims).headD 0) :
    (asked.space dims isAttr).selectsAt x = (asked.subscription dims isAttr tail pred).takes x := by
  obtain ⟨d, ds, rfl⟩ := List.exists_cons_of_ne_nil hne
  obtain ⟨y, ys, rfl⟩ := List.exists_cons_of_ne_nil (List.ne_nil_of_length_eq_add_one hlen)
  unfold PySubscription.takes
  cases asked with
  | whole =>
    cases isAttr with
    | true =>
      show inExtent (d :: ds) (y :: ys) = inSlab ((d :: ds).map fun _ => 0) (d :: ds) (y :: ys)
      rw [inSlab_zeros rfl]
    | false =>
      have hy : y < (growingExtent (d :: ds)).headD 0 := hrow rfl
      show (decide (y < (growingExtent (d :: ds)).headD 0) && inExtent ds ys)
        = (decide (0 ≤ y) && inSlab (ds.map fun _ => 0) ds ys)
      rw [inSlab_zeros rfl, decide_eq_true hy, decide_eq_true (Nat.zero_le y)]
  | box start count =>
    show (slabSpace (d :: ds) start count).selectsAt (y :: ys) = inSlab start count (y :: ys)
    exact selectsAt_slabSpace (List.cons_ne_nil _ _) (hfits.2.trans hfits.1.symm)
  | rows start rest =>
    obtain ⟨-, hstart, hrest, hfirst⟩ := hfits
    obtain ⟨s, ss, rfl⟩ := List.exists_cons_of_ne_nil (List.ne_nil_of_length_eq_add_one hstart)
    have hy : y < (growingExtent (d :: ds)).headD 0 := hrow rfl
    have hfirst' : s < (growingExtent (d :: ds)).headD 0 := hfirst
    show (slabSpace (growingExtent (d :: ds)) (s :: ss) (((growingExtent (d :: ds)).headD 0 - s) :: rest)).selectsAt
      (y :: ys) = (decide (s ≤ y) && inSlab ss rest ys)
    have hext : growingExtent (d :: ds) ≠ [] := List.cons_ne_nil _ _
    have hlens : (((growingExtent (d :: ds)).headD 0 - s) :: rest).length = (s :: ss).length := hrest.trans hstart.symm
    rw [selectsAt_slabSpace hext hlens, inSlab]
    congr 1
    exact decide_eq_decide.mpr ⟨fun h => h.1, fun h => ⟨h, by omega⟩⟩

theorem length_growingExtent (dims : List Nat) : (growingExtent dims).length = dims.length := by
  cases dims with
  | nil => rfl
  | cons => rfl

theorem tail_growingExtent (dims : List Nat) : (growingExtent dims).tail = dims.tail := by
  cases dims with
  | nil => rfl
  | cons => rfl

/-- The extent sent to the writer differs from the dataset's in its first dimension at most. -/
theorem Asked.space_dims (asked : Asked) (dims : List Nat) (isAttr : Bool) :
    (asked.space dims isAttr).extent.dims.length = dims.length ∧
      (asked.space dims isAttr).extent.dims.tail = dims.tail := by
  have hslab : ∀ {ext start count : List Nat}, (slabSpace ext start count).extent.dims = ext := by
    intro ext start count
    unfold slabSpace
    split
    · rename_i hnil
      rw [hnil]
      rfl
    · split
      · rfl
      · rfl
  cases asked with
  | whole =>
    unfold Asked.space
    simp only
    split
    · rename_i hnil
      rw [hnil]
      exact ⟨rfl, rfl⟩
    · cases isAttr with
      | true => exact ⟨rfl, rfl⟩
      | false => exact ⟨length_growingExtent dims, tail_growingExtent dims⟩
  | box start count =>
    show (slabSpace dims start count).extent.dims.length = _ ∧ (slabSpace dims start count).extent.dims.tail = _
    rw [hslab]
    exact ⟨rfl, rfl⟩
  | rows start rest =>
    show (slabSpace (growingExtent dims) start _).extent.dims.length = _ ∧
      (slabSpace (growingExtent dims) start _).extent.dims.tail = _
    rw [hslab]
    exact ⟨length_growingExtent dims, tail_growingExtent dims⟩

theorem Asked.subscription_dims : (asked.subscription dims isAttr tail pred).dims = dims := by
  cases asked with
  | whole => rfl
  | box => rfl
  | rows => rfl

theorem Asked.subscription_lengths (hfits : asked.Fits dims) :
    (asked.subscription dims isAttr tail pred).start.length = dims.length ∧
      (asked.subscription dims isAttr tail pred).count.length = dims.length := by
  cases asked with
  | whole => exact ⟨List.length_map _, rfl⟩
  | box start count => exact hfits
  | rows start rest => exact ⟨hfits.2.1, hfits.2.2.1⟩

theorem forall₂_zip_of_boxIn {dims start count : List Nat} (hlen : count.length = start.length)
    (h : BoxIn dims start (List.zipWith (fun s c => s + c - 1) start count)) (hpos : 0 ∉ count) :
    List.Forall₂ (fun sc d => sc.1 + sc.2 ≤ d) (start.zip count) dims := by
  induction start generalizing dims count with
  | nil =>
    cases h
    exact .nil
  | cons s start ih =>
    cases count with
    | nil => cases hlen
    | cons c count =>
      rw [List.zipWith_cons_cons] at h
      cases h with
      | @cons d _ _ ds _ _ hbe hed hbox =>
        have hc : c ≠ 0 := fun h => hpos (h ▸ List.mem_cons_self)
        refine .cons ?_ (ih (Nat.succ.inj hlen) hbox fun h => hpos (List.mem_cons_of_mem _ h))
        show s + c ≤ d
        omega

/-- A subscription that selects anything lies in the trailing dimensions. -/
theorem Asked.boxed (hfits : asked.Fits dims) (hne : dims ≠ []) (hwf : (asked.space dims isAttr).WellFormed)
    (hpos : 0 < (asked.subscription dims isAttr tail pred).nelem) : (asked.subscription dims isAttr tail pred).Boxed := by
  unfold PySubscription.Boxed
  have hcounts : ∀ c ∈ (asked.subscription dims isAttr tail pred).count, 0 < c := pos_of_prod_pos hpos
  obtain ⟨d, ds, rfl⟩ := List.exists_cons_of_ne_nil hne
  have hslab : ∀ {ext start count : List Nat}, ext ≠ [] → 0 ∉ count → (slabSpace ext start count).WellFormed →
      BoxIn ext start (List.zipWith (fun s c => s + c - 1) start count) := by
    intro ext start count hext hzero h
    unfold slabSpace at h
    rw [if_neg hext, if_neg hzero] at h
    exact h.2.2.1 _ List.mem_cons_self
  cases asked with
  | whole =>
    show List.Forall₂ _ (((ds.map fun _ => 0)).zip ds) ds
    rw [show (ds.map fun _ => 0).zip ds = ds.map fun d => (0, d) from by
      rw [List.zip_map_left, List.zip_eq_zipWith, List.zipWith_self, List.map_map]; rfl]
    rw [List.forall₂_map_left_iff, List.forall₂_same]
    intro c _
    show 0 + c ≤ c
    omega
  | box start count =>
    have hzero : 0 ∉ count := fun h => absurd (hcounts 0 h) (Nat.lt_irrefl 0)
    have hbox := forall₂_zip_of_boxIn (hfits.2.trans hfits.1.symm) (hslab (List.cons_ne_nil _ _) hzero hwf) hzero
    obtain ⟨s, ss, rfl⟩ := List.exists_cons_of_ne_nil (List.ne_nil_of_length_eq_add_one hfits.1)
    obtain ⟨c, cs, rfl⟩ := List.exists_cons_of_ne_nil (List.ne_nil_of_length_eq_add_one hfits.2)
    rw [List.zip_cons_cons] at hbox
    cases hbox with
    | cons _ hbox => exact hbox
  | rows start rest =>
    obtain ⟨-, hstart, hrest, hfirst⟩ := hfits
    have hzero : 0 ∉ ((growingExtent (d :: ds)).headD 0 - start.headD 0) :: rest := by
      intro h
      rcases List.mem_cons.mp h with h | h
      · omega
      · exact absurd (hcounts 0 (List.mem_cons_of_mem _ h)) (Nat.lt_irrefl 0)
    have hext : growingExtent (d :: ds) ≠ [] := List.cons_ne_nil _ _
    have hlens : (((growingExtent (d :: ds)).headD 0 - start.headD 0) :: rest).length = start.length :=
      hrest.trans hstart.symm
    have hbox := forall₂_zip_of_boxIn hlens (hslab hext hzero hwf) hzero
    obtain ⟨s, ss, rfl⟩ := List.exists_cons_of_ne_nil (List.ne_nil_of_length_eq_add_one hstart)
    rw [List.zip_cons_cons, growingExtent] at hbox
    cases hbox with
    | cons _ hbox => exact hbox

end Selected

/-! ## The step's writes together -/

section Step

variable {cb : Callbacks α φ} {sem : ValueSem α} {dtype : Datatype} {sub : PySubscription α} {space : Dataspace}
  {e : Subscription} {dims : List Nat} {writes : List (CapturedWrite α)}

/-- The step's writes to the path, as far as they concern the reader: they go out in order, in the type it knows, in
extents of the dimensions it knows after the first. -/
structure Delivered (dtype : Datatype) (dims : List Nat) (writes : List (CapturedWrite α)) : Prop where
  inOrder : ∀ w ∈ writes, w.InOrder
  typed : ∀ w ∈ writes, w.type = dtype
  rank : ∀ w ∈ writes, w.space.extent.dims.length = dims.length
  trailing : ∀ w ∈ writes, w.space.extent.dims.tail = dims.tail

/-- Run by run: what is stored, and what is sent of it. -/
def CapturedWrite.runSends (cb : Callbacks α φ) (e : Subscription) (py : PyBytes α φ) (step : Nat) (path : Path)
    (w : CapturedWrite α) : List (List (Nat × α) × List (PyPush α)) :=
  (pushRuns w.values 0 w.runs).map fun p => (p.pairs, (w.sent cb e step path p).map (PushItem.push py))

theorem runSends_snd (py : PyBytes α φ) (step : Nat) (path : Path) :
    (writes.flatMap (CapturedWrite.runSends cb e py step path)).flatMap Prod.snd
      = (writes.flatMap (CapturedWrite.items cb e step path)).map (PushItem.push py) := by
  rw [List.flatMap_assoc, List.map_flatMap]
  refine List.flatMap_congr fun w _ => ?_
  unfold CapturedWrite.runSends CapturedWrite.items
  rw [List.flatMap_map, List.map_flatMap]

theorem runSends_fst (hdel : Delivered dtype dims writes) (py : PyBytes α φ) (step : Nat) (path : Path) :
    ((writes.flatMap (CapturedWrite.runSends cb e py step path)).map Prod.fst).flatten
      = writes.flatMap CapturedWrite.pairs := by
  rw [← List.flatMap_def, List.flatMap_assoc]
  refine List.flatMap_congr fun w hw => ?_
  unfold CapturedWrite.runSends
  rw [List.flatMap_map, ← CapturedWrite.pushes_pairs (hdel.inOrder w hw)]

/-- Every run sends what it should, and all of it can be read. -/
theorem runSends_spec (hmeets : cb.Meets sem) (hsub : Subscribed sem dtype sub space e)
    (hlen : space.extent.dims.length = dims.length) (htail : space.extent.dims.tail = dims.tail)
    (hdel : Delivered dtype dims writes) (py : PyBytes α φ) (step : Nat) (path : Path) :
    (∀ r ∈ writes.flatMap (CapturedWrite.runSends cb e py step path),
      Sends sub (fun k => space.selectsAt (unflat dims k) = true) r.1 r.2) ∧
      ∀ i ∈ writes.flatMap (CapturedWrite.items cb e step path), i.typeEnc = dtype := by
  have hrun : ∀ w ∈ writes, ∀ p ∈ pushRuns w.values 0 w.runs,
      Sends sub (fun k => space.selectsAt (unflat dims k) = true) p.pairs
          ((w.sent cb e step path p).map (PushItem.push py)) ∧
        ∀ i ∈ w.sent cb e step path p, i.typeEnc = dtype := by
    intro w hw p hp
    have hwlen := hlen.trans (hdel.rank w hw).symm
    have hwtail := htail.trans (hdel.trailing w hw).symm
    have hunflat : ∀ k, unflat w.space.extent.dims k = unflat dims k :=
      unflat_of_tail (hdel.rank w hw) (hdel.trailing w hw)
    unfold CapturedWrite.sent
    simp only [← hunflat]
    split
    · exact sends_items hmeets hsub py (hdel.inOrder w hw) (hdel.typed w hw) hwlen hwtail step path hp
    · exact sends_opaque hsub py (hdel.inOrder w hw) (hdel.typed w hw) hwlen hwtail step path hp
  refine ⟨fun r hr => ?_, fun i hi => ?_⟩
  · obtain ⟨w, hw, hr⟩ := List.mem_flatMap.mp hr
    obtain ⟨p, hp, rfl⟩ := List.mem_map.mp hr
    exact (hrun w hw p hp).1
  · obtain ⟨w, hw, hi⟩ := List.mem_flatMap.mp hi
    obtain ⟨p, hp, hi⟩ := List.mem_flatMap.mp hi
    exact (hrun w hw p hp).2 i hi

theorem mapM_readItem (py : PyBytes α φ) {items : List (PushItem α φ)} (h : ∀ i ∈ items, i.typeEnc = dtype) :
    items.mapM (readItem py dtype) = some (items.map (PushItem.push py)) := by
  induction items with
  | nil => rfl
  | cons i items ih =>
    rw [List.mapM_cons, readItem_eq py (h i List.mem_cons_self), ih fun j hj => h j (List.mem_cons_of_mem _ hj)]
    rfl

/-- A write leaves its own value of an element in the last run that holds it. -/
theorem noneOutlived_runs (hdel : Delivered dtype dims writes) (py : PyBytes α φ) (step : Nat) (path : Path) {k : Nat}
    (h : NoneOutlived sub (writes.map CapturedWrite.pairs) k) :
    NoneOutlived sub ((writes.flatMap (CapturedWrite.runSends cb e py step path)).map Prod.fst) k := by
  intro r hr v hv hholds v' hv'
  rw [runSends_fst hdel, List.flatMap_def] at hv'
  obtain ⟨⟨rp, rs⟩, hr', rfl⟩ := List.mem_map.mp hr
  obtain ⟨w, hw, hr'⟩ := List.mem_flatMap.mp hr'
  obtain ⟨p, hp, hrp⟩ := List.mem_map.mp hr'
  have horder := hdel.inOrder w hw
  refine h w.pairs (List.mem_map.mpr ⟨w, hw, rfl⟩) v ?_ hholds v' hv'
  refine lookupLast_of_mem ?_ ?_
  · unfold CapturedWrite.pairs
    rw [List.map_fst_zip (Nat.le_of_eq w.packed.symm)]
    exact CapturedWrite.packingOrder_nodup horder
  · rw [← CapturedWrite.pushes_pairs horder, List.mem_flatMap]
    have hfst : p.pairs = rp := congrArg Prod.fst hrp
    exact ⟨p, hp, hfst ▸ mem_of_lookupLast hv⟩

/-- By coordinates or by flat index, the step leaves the same values. -/
theorem committedAt_unflat (hdel : Delivered dtype dims writes) (hne : dims ≠ []) (hpos : 0 < dims.tail.prod) (k : Nat) :
    committedAt writes (unflat dims k) = lookupLast (writes.flatMap CapturedWrite.pairs) k := by
  have hstored : writes.flatMap CapturedWrite.stored
      = (writes.flatMap CapturedWrite.pairs).map fun p => (unflat dims p.1, p.2) := by
    rw [List.map_flatMap]
    refine List.flatMap_congr fun w hw => ?_
    unfold CapturedWrite.stored
    exact List.map_congr_left fun p _ => by rw [unflat_of_tail (hdel.rank w hw) (hdel.trailing w hw)]
  unfold committedAt
  rw [hstored]
  refine lookupLast_map fun p _ hp => ?_
  rw [← flat_unflat_rows hne hpos p.1, hp, flat_unflat_rows hne hpos]

/-- A write to a dataset without elements has none and sends nothing. -/
theorem CapturedWrite.empty {w : CapturedWrite α} (horder : w.InOrder) (hzero : w.space.extent.npoints = 0)
    (cb : Callbacks α φ) (e : Subscription) (step : Nat) (path : Path) :
    w.pairs = [] ∧ w.items cb e step path = [] := by
  have hpack : w.space.packingOrder = [] := by
    rw [List.eq_nil_iff_forall_not_mem]
    intro k hk
    have := CapturedWrite.packingOrder_lt k hk
    omega
  have hruns : w.runs = [] := by
    rw [List.eq_nil_iff_forall_not_mem]
    intro r hr
    have hpos := CapturedWrite.runs_pos r hr
    have hmem : r.start ∈ w.runs.flatMap Run.elems :=
      List.mem_flatMap.mpr ⟨r, hr, Run.mem_elems.mpr ⟨Nat.le_refl _, by omega⟩⟩
    rw [horder, hpack] at hmem
    cases hmem
  unfold CapturedWrite.pairs CapturedWrite.items
  rw [hpack, hruns]
  exact ⟨List.zip_nil_left, rfl⟩

section Array

variable [Zero α]

/-- Shortcut or not, the array is the loop's. -/
theorem PySubscription.assemble_unmasked (hne : sub.dims ≠ [])
    (hfast : ∀ p, sub.isBox p = true → SameArray (sub.reshaped p) (sub.general [p])) (pushes : List (PyPush α))
    (x : List Nat) (v : α) : (sub.assemble pushes).Unmasked sub x v ↔ (sub.general pushes).Unmasked sub x v := by
  unfold PySubscription.assemble
  rw [if_neg hne]
  split
  · split
    · rename_i p hbox
      exact (hfast p hbox).unmasked x v
    · rfl
  · rfl

/-- The array of a dataset with dimensions. -/
theorem exactArray_of_rank (hmeets : cb.Meets sem) (hsub : Subscribed sem dtype sub space e) (hdims : sub.dims = dims)
    (hranked : sub.Ranked) (hlen : space.extent.dims.length = dims.length)
    (htail : space.extent.dims.tail = dims.tail) (hdel : Delivered dtype dims writes)
    (htakes : ∀ w ∈ writes, ∀ k ∈ w.space.packingOrder,
      space.selectsAt (unflat dims k) = sub.takes (unflat dims k))
    (hout : ∀ k, space.selectsAt (unflat dims k) = true → NoneOutlived sub (writes.map CapturedWrite.pairs) k)
    (hfast : ∀ p, sub.isBox p = true → SameArray (sub.reshaped p) (sub.general [p])) (py : PyBytes α φ) (step : Nat)
    (path : Path) :
    ∃ result, stepArray py dtype sub (writes.flatMap (CapturedWrite.items cb e step path)) = some result ∧
      ExactArray sub space writes result := by
  obtain ⟨hsends, htyped⟩ := @runSends_spec _ _ cb _ _ _ _ _ _ _ hmeets hsub hlen htail hdel py step path
  have hfst := @runSends_fst _ _ cb _ e _ _ hdel py step path
  have hsnd := @runSends_snd _ _ cb e writes py step path
  have hne : dims ≠ [] := hdims ▸ hranked.ne
  have hpos : 0 < dims.tail.prod := hdims ▸ hranked.rows
  have hcoords : ∀ k, sub.coords k = unflat dims k := fun k => hdims ▸ sub.coords_eq k
  generalize hpushes : (writes.flatMap (CapturedWrite.items cb e step path)).map (PushItem.push py) = pushes at hsnd
  refine ⟨if pushes.isEmpty then none else some (sub.assemble pushes), ?_, fun x v => ?_⟩
  · unfold stepArray
    rw [mapM_readItem py htyped, hpushes]
    rfl
  -- the last cell of a selected element tells the value the step leaves
  have hlast : ∀ k, space.selectsAt (unflat dims k) = true → ∀ v,
      (lookupLast (cellPairs (pushes.flatMap (PyPush.cells sub))) k = some (v, true) ↔
        lookupLast (writes.flatMap CapturedWrite.pairs) k = some v ∧ sub.holds v = true) := by
    intro k hsel v
    rw [← hsnd, ← hfst]
    exact lastCell_iff hsends hsel (noneOutlived_runs hdel py step path (hout k hsel)) v
  -- a cell is of an element some write stores, so what the frame takes of it is what was selected
  have hcell : ∀ k q, lookupLast (cellPairs (pushes.flatMap (PyPush.cells sub))) k = some q →
      inSlab (sub.frame pushes).origin (sub.frame pushes).count (sub.coords k) = space.selectsAt (unflat dims k) := by
    intro k q hq
    obtain ⟨cell, hmem, hindex, -⟩ := lookupLast_cellPairs hq
    obtain ⟨p, hp, hmem⟩ := List.mem_flatMap.mp hmem
    obtain ⟨hlow, hhigh, -, -⟩ := PyPush.mem_cells hmem
    rw [hindex] at hlow hhigh
    rw [PySubscription.frame_takes hranked hp hlow hhigh, hcoords]
    rw [← hsnd] at hp
    obtain ⟨r, hr, hp⟩ := List.mem_flatMap.mp hp
    have hcarried := ((hsends r hr).carries p hp cell hmem).1
    rw [hindex] at hcarried
    have hmem' : (k, cell.value) ∈ writes.flatMap CapturedWrite.pairs := by
      rw [← hfst]
      exact List.mem_flatten.mpr ⟨r.1, List.mem_map.mpr ⟨r, hr, rfl⟩, mem_of_lookupLast hcarried⟩
    obtain ⟨w, hw, hk⟩ := List.mem_flatMap.mp hmem'
    exact (htakes w hw k (List.of_mem_zip hk).1).symm
  constructor
  · rintro ⟨a, ha, hun⟩
    have ha' : a = sub.assemble pushes := by
      split at ha
      · cases ha
      · exact (Option.some.inj ha).symm
    rw [ha', PySubscription.assemble_unmasked (hdims ▸ hne) hfast, PySubscription.general_unmasked hranked] at hun
    obtain ⟨k, hx, hslab, hk⟩ := hun
    rw [hx] at hslab
    have hsel : space.selectsAt (unflat dims k) = true := by
      rw [← hcell k _ hk]
      exact hslab
    obtain ⟨hv, hholds⟩ := (hlast k hsel v).mp hk
    rw [hx, hcoords]
    exact ⟨hsel, (committedAt_unflat hdel hne hpos k).trans hv, hholds⟩
  · rintro ⟨hsel, hcommitted, hholds⟩
    -- the element is one a write stores
    obtain ⟨k, rfl⟩ : ∃ k, x = unflat dims k := by
      obtain ⟨w, hw, hmem⟩ := List.mem_flatMap.mp (mem_of_lookupLast hcommitted)
      obtain ⟨p, -, hp⟩ := List.mem_map.mp hmem
      have hx : unflat w.space.extent.dims p.1 = x := congrArg Prod.fst hp
      exact ⟨p.1, by rw [← hx, unflat_of_tail (hdel.rank w hw) (hdel.trailing w hw)]⟩
    rw [committedAt_unflat hdel hne hpos] at hcommitted
    have hk := (hlast k hsel v).mpr ⟨hcommitted, hholds⟩
    have hnonempty : pushes.isEmpty = false := by
      cases hp : pushes with
      | nil =>
        rw [hp] at hk
        cases hk
      | cons p ps => rfl
    refine ⟨sub.assemble pushes, by rw [hnonempty]; rfl, ?_⟩
    rw [PySubscription.assemble_unmasked (hdims ▸ hne) hfast, PySubscription.general_unmasked hranked]
    refine ⟨k, (hcoords k).symm, ?_, hk⟩
    rw [← hcoords, hcell k _ hk]
    exact hsel

end Array

/-! ## A scalar -/

/-- The writer decides the predicate of a single value, if there is one. -/
def Decided (cb : Callbacks α φ) (sem : ValueSem α) (dtype : Datatype) (e : Subscription) : Prop :=
  ∀ predEnc, e.predEnc = some predEnc → dtype.vlKind = .none ∧ ∃ fn, cb.predicateFn = some fn ∧
    ∀ v, fn [v] predEnc dtype = some (if sem.holds predEnc dtype v then [⟨0, 1⟩] else [], false)

/-- A write of a scalar stores one element and is one push. -/
theorem CapturedWrite.scalar {w : CapturedWrite α} (horder : w.InOrder) (hrank : w.space.extent.dims.length = 0)
    {p : Push α} (hp : p ∈ pushRuns w.values 0 w.runs) :
    w.space = ⟨.scalar, .all⟩ ∧ p.start = 0 ∧ p.count = 1 ∧ ∃ v, p.data = [v] := by
  obtain ⟨r, hr, hstart, hcount, hdata⟩ := run_of_mem_pushRuns (by rw [CapturedWrite.length_runs horder]; omega) hp
  have hpos := CapturedWrite.runs_pos r hr
  have hmem : ∀ k ∈ r.elems, k ∈ w.space.packingOrder := fun k hk => by
    rw [← horder]
    exact List.mem_flatMap.mpr ⟨r, hr, hk⟩
  have hbound : ∀ k ∈ r.elems, k < w.space.extent.npoints := fun k hk => CapturedWrite.packingOrder_lt k (hmem k hk)
  have hspace : w.space = ⟨.scalar, .all⟩ := by
    have hfirst := hmem r.start (Run.mem_elems.mpr ⟨Nat.le_refl _, by omega⟩)
    have hlt := hbound r.start (Run.mem_elems.mpr ⟨Nat.le_refl _, by omega⟩)
    have hwf := w.wf
    generalize w.space = space at hfirst hlt hwf hrank
    obtain ⟨extent, sel⟩ := space
    cases extent with
    | null => cases hlt
    | scalar =>
      rcases hwf with h | h
      · have h' : sel = .all := h
        rw [h']
      · have h' : sel = .none := h
        subst h'
        cases hfirst
    | simple dims => exact absurd (List.eq_nil_of_length_eq_zero hrank) hwf.1
  have hone : w.space.extent.npoints = 1 := by
    rw [hspace]
    rfl
  have hlast := hbound (r.start + r.count - 1) (Run.mem_elems.mpr ⟨by omega, by omega⟩)
  refine ⟨hspace, by omega, by omega, ?_⟩
  obtain ⟨v, hv⟩ := List.length_eq_one_iff.mp (hdata.trans (by omega : p.count = 1))
  exact ⟨v, hv⟩

theorem Subscribed.scalarSpan (hsub : Subscribed sem dtype sub ⟨.scalar, .all⟩ e) : e.selStart = 0 ∧ e.subEnd = 1 := by
  have hstart : e.selStart = 0 := hsub.made.start
  have hcount : e.selCount = 1 := hsub.made.count
  refine ⟨hstart, ?_⟩
  unfold Subscription.subEnd
  rw [hstart, hcount]
  rfl

/-- Every push of a scalar is its value, with the predicate decided. -/
theorem scalar_push (hsub : Subscribed sem dtype sub ⟨.scalar, .all⟩ e) (hdec : Decided cb sem dtype e)
    (py : PyBytes α φ) {w : CapturedWrite α} (htype : w.type = dtype) (horder : w.InOrder)
    (hrank : w.space.extent.dims.length = 0) (step : Nat) (path : Path) {p : Push α}
    (hp : p ∈ pushRuns w.values 0 w.runs) :
    ∀ i ∈ w.sent cb e step path p, ∃ v, i.push py = ⟨0, [v], false⟩ := by
  obtain ⟨hspace, hstart, hcount, v, hdata⟩ := CapturedWrite.scalar horder hrank hp
  obtain ⟨hselStart, hsubEnd⟩ := hsub.scalarSpan
  intro i hi
  refine ⟨v, ?_⟩
  unfold CapturedWrite.sent at hi
  split at hi
  · -- one run, kept or not
    have hov : e.overlap (w.pushed step path p) = some ⟨0, 1⟩ := by
      unfold Subscription.overlap
      rw [hselStart, hsubEnd]
      show (if max 0 p.start ≥ min 1 ((p.start + p.count) % 2 ^ 64) then none
        else some (⟨max 0 p.start, min 1 ((p.start + p.count) % 2 ^ 64) - max 0 p.start⟩ : Run)) = some ⟨0, 1⟩
      rw [hstart, hcount]
      rfl
    have hselect : (cb.select e (w.pushed step path p) ⟨0, 1⟩).1 = [⟨0, 1⟩] := by
      have hsent : (w.pushed step path p).spaceEnc = some w.space := rfl
      unfold Callbacks.select
      rw [hsub.made.sent, hsent, hspace]
      cases cb.selecting with
      | true => rfl
      | false => rfl
    have hview : cb.view e (w.pushed step path p) ⟨0, 1⟩ = ⟨[v], 0, w.type.size, w.type, false⟩ := by
      unfold Callbacks.view
      rw [hsub.plain]
      show (⟨p.data, p.start, w.type.size, w.type, false⟩ : View α) = _
      rw [hdata, hstart]
    have hkeep : ∃ kept, cb.keep e ⟨[v], 0, w.type.size, w.type, false⟩ ⟨0, 1⟩ = (kept, false, false) ∧
        (kept = [] ∨ kept = [⟨0, 1⟩]) := by
      unfold Callbacks.keep
      cases hpred : e.predEnc with
      | none => exact ⟨_, rfl, .inr rfl⟩
      | some predEnc =>
        obtain ⟨-, fn, hfn, hans⟩ := hdec predEnc hpred
        have hans' := hans v
        rw [← htype] at hans'
        have hslice : (⟨[v], 0, w.type.size, w.type, false⟩ : View α).slice ⟨0, 1⟩ = [v] := rfl
        simp only [hfn, hslice, hans']
        refine ⟨_, rfl, ?_⟩
        split
        · exact .inr rfl
        · exact .inl rfl
    obtain ⟨kept, hkept, hcase⟩ := hkeep
    unfold Callbacks.items at hi
    rw [hov] at hi
    simp only at hi
    rw [hselect, hview, List.flatMap_singleton] at hi
    unfold Callbacks.selectedItems at hi
    rw [show (⟨0 + 0, 1⟩ : Run) = ⟨0, 1⟩ from rfl, hkept] at hi
    simp only at hi
    rcases hcase with rfl | rfl
    · cases hi
    · rw [List.flatMap_singleton] at hi
      unfold Callbacks.runItems Callbacks.slices at hi
      rw [hsub.unfiltered] at hi
      have hi' := List.mem_singleton.mp hi
      rw [hi']
      unfold PushItem.push PushItem.data Callbacks.refilter
      rw [hsub.unfiltered]
      rfl
  · rename_i hvl
    have hnone : e.predEnc = none := by
      cases hpred : e.predEnc with
      | none => rfl
      | some predEnc => exact absurd (htype ▸ (hdec predEnc hpred).1) hvl
    unfold CapturedWrite.opaqueItems at hi
    simp only at hi
    split at hi
    · cases hi
    · rw [List.mem_singleton.mp hi]
      unfold PushItem.push PushItem.data
      rw [hnone]
      show (⟨p.start, p.data, _⟩ : PyPush α) = _
      rw [hstart, hdata]
      rfl

section ScalarArray

variable [Zero α]

/-- The last push of a scalar is its last cell. -/
theorem assemble_scalar (hdims : sub.dims = []) (hstart : sub.start = []) {pushes : List (PyPush α)}
    (hone : ∀ p ∈ pushes, ∃ v, p = ⟨0, [v], false⟩) (hne : pushes ≠ []) (x : List Nat) (v : α) :
    (sub.assemble pushes).Unmasked sub x v ↔
      x = [] ∧ lookupLast (cellPairs (pushes.flatMap (PyPush.cells sub))) 0 = some (v, true) := by
  obtain ⟨before, p, rfl⟩ : ∃ before p, pushes = before ++ [p] := by
    rcases List.eq_nil_or_concat pushes with h | ⟨before, p, h⟩
    · exact absurd h hne
    · exact ⟨before, p, by rw [h, List.concat_eq_append]⟩
  obtain ⟨v', rfl⟩ := hone p (List.mem_append_right _ List.mem_cons_self)
  have hlast : lookupLast (cellPairs ((before ++ [(⟨0, [v'], false⟩ : PyPush α)]).flatMap (PyPush.cells sub))) 0
      = some (v', true) := by
    rw [List.flatMap_append, cellPairs, List.map_append]
    exact lookupLast_append _ _ 0
  have hassemble : sub.assemble (before ++ [⟨0, [v'], false⟩]) = ⟨[], fun _ => v', fun _ => true, none⟩ := by
    unfold PySubscription.assemble
    rw [if_pos hdims, List.getLast?_concat]
    rfl
  rw [hlast, hassemble]
  constructor
  · rintro ⟨c, -, -, hv, hx⟩
    have hv' : v' = v := hv
    have hx' : x = List.zipWith (· + ·) sub.start c := hx
    rw [hstart] at hx'
    exact ⟨hx', by rw [hv']⟩
  · rintro ⟨hx, hv⟩
    have hv' : v' = v := congrArg Prod.fst (Option.some.inj hv)
    refine ⟨[], rfl, rfl, hv', ?_⟩
    show x = List.zipWith (· + ·) sub.start []
    rw [hx, List.zipWith_nil_right]

theorem exactArray_of_scalar (hmeets : cb.Meets sem) (hsub : Subscribed sem dtype sub ⟨.scalar, .all⟩ e)
    (hdims : sub.dims = []) (hstart : sub.start = []) (hdec : Decided cb sem dtype e) (hdel : Delivered dtype [] writes)
    (hout : NoneOutlived sub (writes.map CapturedWrite.pairs) 0) (py : PyBytes α φ) (step : Nat) (path : Path) :
    ∃ result, stepArray py dtype sub (writes.flatMap (CapturedWrite.items cb e step path)) = some result ∧
      ExactArray sub ⟨.scalar, .all⟩ writes result := by
  obtain ⟨hsends, htyped⟩ := @runSends_spec _ _ cb _ _ _ _ _ _ _ hmeets hsub rfl rfl hdel py step path
  have hfst := @runSends_fst _ _ cb _ e _ _ hdel py step path
  have hsnd := @runSends_snd _ _ cb e writes py step path
  have hone : ∀ p ∈ (writes.flatMap (CapturedWrite.items cb e step path)).map (PushItem.push py),
      ∃ v, p = ⟨0, [v], false⟩ := by
    intro q hq
    obtain ⟨i, hi, rfl⟩ := List.mem_map.mp hq
    obtain ⟨w, hw, hi⟩ := List.mem_flatMap.mp hi
    obtain ⟨p, hp, hi⟩ := List.mem_flatMap.mp hi
    exact scalar_push hsub hdec py (hdel.typed w hw) (hdel.inOrder w hw) (hdel.rank w hw) step path hp i hi
  have hlast : ∀ v, (lookupLast (cellPairs (((writes.flatMap (CapturedWrite.items cb e step path)).map
      (PushItem.push py)).flatMap (PyPush.cells sub))) 0 = some (v, true) ↔
        lookupLast (writes.flatMap CapturedWrite.pairs) 0 = some v ∧ sub.holds v = true) := by
    intro v
    rw [← hsnd, ← hfst]
    exact lastCell_iff hsends rfl (noneOutlived_runs hdel py step path hout) v
  have hcommitted : ∀ x v, committedAt writes x = some v ↔
      x = [] ∧ lookupLast (writes.flatMap CapturedWrite.pairs) 0 = some v := by
    intro x v
    have hempty : ∀ w ∈ writes, ∀ k, unflat w.space.extent.dims k = [] := fun w hw k => by
      rw [List.eq_nil_of_length_eq_zero (hdel.rank w hw)]
      rfl
    have hzero : ∀ p ∈ writes.flatMap CapturedWrite.pairs, p.1 = 0 := by
      intro p hp
      rw [← hfst] at hp
      obtain ⟨l, hl, hp⟩ := List.mem_flatten.mp hp
      obtain ⟨r, hr, rfl⟩ := List.mem_map.mp hl
      obtain ⟨w, hw, hr⟩ := List.mem_flatMap.mp hr
      obtain ⟨q, hq, rfl⟩ := List.mem_map.mp hr
      obtain ⟨-, hs, hc, -⟩ := CapturedWrite.scalar (hdel.inOrder w hw) (hdel.rank w hw) hq
      have hmem : p.1 ∈ List.range' q.start q.count := (List.of_mem_zip hp).1
      rw [List.mem_range'_1] at hmem
      omega
    have hstored : writes.flatMap CapturedWrite.stored
        = (writes.flatMap CapturedWrite.pairs).map fun p => ([], p.2) := by
      rw [List.map_flatMap]
      refine List.flatMap_congr fun w hw => ?_
      unfold CapturedWrite.stored
      exact List.map_congr_left fun p _ => by rw [hempty w hw]
    unfold committedAt
    rw [hstored]
    constructor
    · intro h
      have hx : x = [] := by
        obtain ⟨p, -, hp⟩ := List.mem_map.mp (mem_of_lookupLast h)
        exact (congrArg Prod.fst hp).symm
      subst hx
      refine ⟨rfl, ?_⟩
      rw [← h]
      exact (@lookupLast_map _ _ _ _ _ (fun _ : Nat => ([] : List Nat)) _ 0 fun p hp _ => hzero p hp).symm
    · rintro ⟨rfl, h⟩
      rw [← h]
      exact @lookupLast_map _ _ _ _ _ (fun _ : Nat => ([] : List Nat)) _ 0 fun p hp _ => hzero p hp
  have hread := @mapM_readItem _ _ dtype py _ htyped
  generalize (writes.flatMap (CapturedWrite.items cb e step path)).map (PushItem.push py) = pushes at hone hlast hread
  refine ⟨if pushes.isEmpty then none else some (sub.assemble pushes), ?_, fun x v => ?_⟩
  · unfold stepArray
    rw [hread]
    rfl
  rw [hcommitted]
  cases hp : pushes with
  | nil =>
    rw [hp] at hlast
    refine ⟨?_, ?_⟩
    · rintro ⟨a, ha, -⟩
      cases ha
    · rintro ⟨-, ⟨-, hv⟩, hholds⟩
      have := (hlast v).mpr ⟨hv, hholds⟩
      cases this
  | cons p ps =>
    rw [hp] at hlast hone
    have hun := assemble_scalar hdims hstart hone (List.cons_ne_nil p ps) x v
    constructor
    · rintro ⟨a, ha, hunmasked⟩
      have ha' : sub.assemble (p :: ps) = a := Option.some.inj ha
      rw [← ha', hun] at hunmasked
      obtain ⟨rfl, hcell⟩ := hunmasked
      obtain ⟨hv, hholds⟩ := (hlast v).mp hcell
      exact ⟨rfl, ⟨rfl, hv⟩, hholds⟩
    · rintro ⟨-, ⟨hx, hv⟩, hholds⟩
      exact ⟨_, rfl, hun.mpr ⟨hx, (hlast v).mpr ⟨hv, hholds⟩⟩⟩

end ScalarArray

end Step

/-! ## Any subscription -/

theorem length_unflat (dims : List Nat) (k : Nat) : (unflat dims k).length = dims.length := by
  induction dims generalizing k with
  | nil => rfl
  | cons d ds ih => exact congrArg (· + 1) (ih _)

/-- The row of an element of an extent. -/
theorem headD_unflat_lt {extent : Extent} (hne : extent.dims ≠ []) {k : Nat} (hk : k < extent.npoints) :
    (unflat extent.dims k).headD 0 < extent.dims.headD 0 := by
  cases extent with
  | null => cases hk
  | scalar => exact absurd rfl hne
  | simple dims =>
    obtain ⟨d, ds, rfl⟩ := List.exists_cons_of_ne_nil hne
    have hk' : k < (d :: ds).prod := hk
    rw [List.prod_cons, Nat.mul_comm] at hk'
    exact Nat.div_lt_of_lt_mul hk'

/-- A box with elements lies in trailing dimensions that have some. -/
theorem PySubscription.rows_of_boxed {sub : PySubscription α} (hbox : sub.Boxed) (hpos : 0 < sub.nelem)
    (hlen : sub.count.length = sub.start.length) : 0 < sub.dims.tail.prod := by
  unfold PySubscription.Boxed at hbox
  unfold PySubscription.nelem at hpos
  have hlen' : sub.count.tail.length = sub.start.tail.length := by
    rw [List.length_tail, List.length_tail, hlen]
  have hcounts : ∀ c ∈ sub.count.tail, 0 < c := fun c hc => pos_of_prod_pos hpos c (List.mem_of_mem_tail hc)
  have hle := (contiguous_tail (forall₂_count hbox hlen' hcounts)).2.1
  have htail : 0 < sub.count.tail.prod := by
    cases hcount : sub.count with
    | nil => exact Nat.one_pos
    | cons c cs =>
      rw [hcount, List.prod_cons] at hpos
      exact Nat.pos_of_mul_pos_left hpos
  omega

/-- When a value of some element a step wrote satisfies the predicate, the one the step leaves there does, if it was
selected. -/
def StaysSelected (sub : PySubscription α) (space : Dataspace) (writes : List (CapturedWrite α)) : Prop :=
  ∀ k, space.selectsAt (unflat sub.dims k) = true → NoneOutlived sub (writes.map CapturedWrite.pairs) k

/-- A native integer. -/
def fourBytes : Datatype := ⟨[1, 4], 4, .none, false⟩

/-- Elements 1 and 2 of a dataset of four. -/
def middle : Dataspace := ⟨.simple [4], .hyperslab [⟨[1], [2]⟩]⟩

theorem middle_wellFormed : middle.WellFormed := by
  refine ⟨by decide, by decide, by decide, ?_, by decide, by decide⟩
  show List.Pairwise _ _
  unfold Block.apart
  decide

/-- The dataset written whole, then its middle once more. -/
def rewritten : List (CapturedWrite Nat) :=
  [⟨fourBytes, ⟨.simple [4], .all⟩, [5, 6, 7, 8], none,
      ⟨by decide, by decide, by decide, List.Pairwise.nil, by decide, by decide⟩, rfl, by decide⟩,
    ⟨fourBytes, middle, [9, 10], none, middle_wellFormed, rfl, by decide⟩]

/-- A reader of the numbers as they are. -/
def plainBytes : PyBytes Nat Unit := ⟨fun _ _ => [], fun _ _ v => v, fun _ _ => rfl⟩

/-- One element written as a point. -/
def pointWrite : CapturedWrite Nat :=
  ⟨fourBytes, ⟨.simple [2], .points [[1]]⟩, [7], none,
    ⟨by decide, by decide, by decide, List.Pairwise.nil, by decide, by decide⟩, rfl, by decide⟩

end VolStream
