import VolStream.Transport.Backfill
import VolStream.Space.Clipping
import VolStream.Transport.Predicate

/-!
# Routing one write to the subscribers of its path

`vs_tr_writer_push_data` narrows a contiguous run of written elements for each subscriber in
four steps: the overlap with the flat span the subscriber's reader computed, the runs of its
selection in that overlap, the runs of each of those that satisfy its predicate, and the slices of
the chunk its property list asks for. A step that cannot be applied leaves what it was given and
says so in the item's delivery bits.

The HDF5 side is reached through callbacks. The selection callback is the connector's own
(`selectionRuns`). Buffers are lists of elements, `α` being one element's bytes and `φ` a filtered
slice.
-/

namespace VolStream

open RowMajor

/-! ## Subscriptions -/

/-- `vs_tr_sub_entry_t`, as the push path reads it. A blob of length 0 is `none`. -/
structure Subscription where
  member : MemberId
  path : Path
  selStart : Nat
  selCount : Nat
  dcplEnc : Option Bytes
  predEnc : Option Bytes
  spaceEnc : Option Dataspace
  wantTypeEnc : Option Datatype
  backfill : BackfillState
deriving DecidableEq, Repr

/-- `H5Fsubscribe`: the span of the selection, in flat indices of its own extent, and the selection
itself. The whole object stands in for a span that has no bounds. -/
def Subscription.request (member : MemberId) (path : Path) (space : Dataspace) (dcplEnc : Option Bytes) :
    Subscription :=
  let span := (space1dBounds space).getD ⟨0, uint64Max⟩
  { member, path, selStart := span.start, selCount := span.count, dcplEnc, predEnc := none,
    spaceEnc := some space, wantTypeEnc := none, backfill := .live }

/-- What a reader asks of `vs_subscribe_ult`. -/
inductive SubRequest where
  | subscribe (space : Dataspace) (dcplEnc : Option Bytes) (staged : Bool)
  | predicate (predEnc : Option Bytes)
  | wantType (typeEnc : Option Datatype)
  | release
deriving DecidableEq, Repr

def Subscription.isFor (member : MemberId) (path : Path) (e : Subscription) : Bool :=
  decide (e.member = member ∧ e.path = path)

-- a plain re-subscribe starts from no predicate and no wanted type, and keeps its place in a backfill
def Subscription.renew (e : Subscription) (space : Dataspace) (dcplEnc : Option Bytes) (staged : Bool) :
    Subscription :=
  { Subscription.request e.member e.path space dcplEnc with
    backfill := if staged then .staged else e.backfill }

/-- `vs_subscribe_ult`. -/
def subscribeUlt (table : List Subscription) (member : MemberId) (path : Path) : SubRequest → List Subscription
  | .subscribe space dcplEnc staged =>
      if table.any (Subscription.isFor member path) then
        table.map fun e => if e.isFor member path then e.renew space dcplEnc staged else e
      else table ++ [(⟨member, path, 0, 0, none, none, none, none, .live⟩ : Subscription).renew space dcplEnc staged]
  | .predicate predEnc => table.map fun e => if e.isFor member path then { e with predEnc } else e
  | .wantType typeEnc => table.map fun e => if e.isFor member path then { e with wantTypeEnc := typeEnc } else e
  | .release =>
      table.map fun e =>
        if e.member = member ∧ e.backfill = .staged then { e with backfill := .released } else e

/-- What changes the table: a reader's request, a departure (`vs_membership_cb`), and
`vs_tr_writer_take_backfill` making the entries it took live. -/
inductive TableEvent where
  | request (member : MemberId) (path : Path) (r : SubRequest)
  | left (member : MemberId)
  | taken (member : MemberId) (paths : List Path)
deriving DecidableEq, Repr

def tableStep (table : List Subscription) : TableEvent → List Subscription
  | .request member path r => subscribeUlt table member path r
  | .left member => table.filter (·.member ≠ member)
  | .taken member paths =>
      table.map fun e =>
        if e.member = member ∧ e.backfill = .released ∧ e.path ∈ paths then { e with backfill := .live } else e

/-! ## The connector's callbacks -/

/-- `VS_TR_MAX_PRED_RUNS`. -/
def maxPredRuns : Nat := 64

/-- A flat index means the same in two extents that agree in rank and in every dimension after the
first. -/
def comparable (sub write : Dataspace) : Bool :=
  decide (sub.extent.dims.length = write.extent.dims.length ∧ sub.extent.dims.tail = write.extent.dims.tail)

/-- `H5VL__stream_selection_runs`; the runs are relative to the range, `none` declines. -/
def selectionRuns (sub : Dataspace) (write : Option Dataspace) (rangeStart rangeCount maxRuns : Nat) :
    Option (List Run) :=
  if maxRuns = 0 ∨ rangeCount = 0 then none
  else match write with
    | none => none
    | some write =>
        if comparable sub write then
          (spaceFlatRunsRange sub rangeStart (rangeStart + rangeCount) (min maxRuns maxPushRuns)).map
            (List.map fun r => ⟨r.start - rangeStart, r.count⟩)
        else none

/-- What H5T says of a value: whether an element of a type satisfies a predicate, and an element
converted from a type to another. -/
structure ValueSem (α : Type) where
  holds : Bytes → Datatype → α → Bool
  cast : Datatype → Datatype → α → α

/-- The callbacks registered with the transport. The selection callback is `selectionRuns` or none. -/
structure Callbacks (α φ : Type) where
  selecting : Bool
  convertFn : Option (List α → Datatype → Datatype → Option (List α × Nat))
  predicateFn : Option (List α → Bytes → Datatype → Option (List Run × Bool))
  refilterShapeFn : Option (Bytes → Nat → Nat → Nat)
  refilterFn : Option (List α → Bytes → Datatype → Option Bytes → Option φ)

/-! ## `vs_tr_writer_push_data` -/

/-- Its arguments. -/
structure PushedWrite (α : Type) where
  physicalStep : Nat
  path : Path
  buf : List α
  elemSize : Nat
  start : Nat
  count : Nat
  typeEnc : Datatype
  nativeDcplEnc : Option Bytes
  spaceEnc : Option Dataspace
deriving DecidableEq, Repr

/-- `VS_TR_DELIVERY_*`. -/
structure DeliveryFlags where
  selectionSpan : Bool
  predicateUnevaluated : Bool
  predicateSpan : Bool
  typeNative : Bool
deriving DecidableEq, Repr

inductive PushPayload (α φ : Type) where
  | raw (data : List α)
  | filtered (dcplEnc : Bytes) (data : φ)
deriving DecidableEq, Repr

/-- `vs_data_push_in_t`. -/
structure PushItem (α φ : Type) where
  physicalStep : Nat
  path : Path
  elemStart : Nat
  elemCount : Nat
  payload : PushPayload α φ
  typeEnc : Datatype
  delivery : DeliveryFlags
deriving DecidableEq, Repr

/-- One subscriber's view of the data (the `s_*` locals); `base` is the element its first value is. -/
structure View (α : Type) where
  buf : List α
  base : Nat
  elemSize : Nat
  typeEnc : Datatype
  converted : Bool
deriving DecidableEq, Repr

-- the values of a run, by their offset in the view
def View.slice {α : Type} (v : View α) (r : Run) : List α := (v.buf.drop (r.start - v.base)).take r.count

variable {α φ : Type}

/-- `sub_end`. -/
def Subscription.subEnd (e : Subscription) : Nat :=
  if e.selCount = uint64Max then uint64Max else (e.selStart + e.selCount) % 2 ^ 64

/-- What the subscriber's span and the write share. -/
def Subscription.overlap (e : Subscription) (w : PushedWrite α) : Option Run :=
  let first := max e.selStart w.start
  let past := min e.subEnd ((w.start + w.count) % 2 ^ 64)
  if first ≥ past then none else some ⟨first, past - first⟩

/-- The selection's runs in the overlap, relative to it, and whether the span stands in for them. -/
def Callbacks.select (cb : Callbacks α φ) (e : Subscription) (w : PushedWrite α) (overlap : Run) :
    List Run × Bool :=
  match e.spaceEnc with
  | none => ([⟨0, overlap.count⟩], false)
  | some space =>
      if cb.selecting then
        match selectionRuns space w.spaceEnc overlap.start overlap.count maxPredRuns with
        | some runs => (runs, false)
        | none => ([⟨0, overlap.count⟩], true)
      else ([⟨0, overlap.count⟩], true)

def PushedWrite.native (w : PushedWrite α) : View α := ⟨w.buf, w.start, w.elemSize, w.typeEnc, false⟩

/-- The overlap as the type the subscriber wants, or the write's own data. -/
def Callbacks.view (cb : Callbacks α φ) (e : Subscription) (w : PushedWrite α) (overlap : Run) : View α :=
  match e.wantTypeEnc, cb.convertFn with
  | some want, some fn =>
      match fn (w.native.slice overlap) w.typeEnc want with
      | some (conv, convSize) => if 0 < convSize then ⟨conv, overlap.start, convSize, want, true⟩ else w.native
      | none => w.native
  | _, _ => w.native

/-- The runs of a selected run that the predicate keeps, relative to it, with the two predicate bits:
not evaluated, coalesced. -/
def Callbacks.keep (cb : Callbacks α φ) (e : Subscription) (v : View α) (run : Run) : List Run × Bool × Bool :=
  match e.predEnc with
  | none => ([⟨0, run.count⟩], false, false)
  | some predEnc =>
      match cb.predicateFn with
      | none => ([⟨0, run.count⟩], true, false)
      | some fn =>
          match fn (v.slice run) predEnc v.typeEnc with
          | some (runs, coalesced) => (runs, false, coalesced)
          | none => ([⟨0, run.count⟩], true, false)

/-- The `while (off < run_count)` loop over a run's chunks. -/
def chunkLoop (run : Run) (chunkElems : Nat) : Nat → Nat → List Run
  | 0, _ => []
  | fuel + 1, off =>
      if off < run.count then
        let thisCount := min (run.count - off) chunkElems
        ⟨run.start + off, thisCount⟩ :: chunkLoop run chunkElems fuel (off + thisCount)
      else []

/-- The slices a run goes out in, one item each. -/
def Callbacks.slices (cb : Callbacks α φ) (e : Subscription) (v : View α) (run : Run) : List Run :=
  match e.dcplEnc, cb.refilterShapeFn with
  | some dcplEnc, some fn =>
      let chunkElems := fn dcplEnc run.count v.elemSize
      if 0 < chunkElems ∧ chunkElems < run.count then chunkLoop run chunkElems run.count 0 else [run]
  | _, _ => [run]

/-- The slice through the subscriber's own filters, or as it is. -/
def Callbacks.refilter (cb : Callbacks α φ) (e : Subscription) (w : PushedWrite α) (v : View α)
    (data : List α) : PushPayload α φ :=
  match e.dcplEnc, cb.refilterFn with
  | some dcplEnc, some fn =>
      match fn data dcplEnc v.typeEnc (if v.converted then none else w.nativeDcplEnc) with
      | some filtered => .filtered dcplEnc filtered
      | none => .raw data
  | _, _ => .raw data

/-- The items of one run that is to go out. -/
def Callbacks.runItems (cb : Callbacks α φ) (e : Subscription) (w : PushedWrite α) (v : View α)
    (delivery : DeliveryFlags) (run : Run) : List (PushItem α φ) :=
  (cb.slices e v run).map fun r =>
    ⟨w.physicalStep, w.path, r.start, r.count, cb.refilter e w v (v.slice r), v.typeEnc, delivery⟩

/-- The items of one selected run. -/
def Callbacks.selectedItems (cb : Callbacks α φ) (e : Subscription) (w : PushedWrite α) (v : View α)
    (selectionSpan : Bool) (run : Run) : List (PushItem α φ) :=
  let (kept, unevaluated, coalesced) := cb.keep e v run
  let typeNative := e.wantTypeEnc.isSome && !v.converted
  kept.flatMap fun r =>
    cb.runItems e w v ⟨selectionSpan, unevaluated, coalesced, typeNative⟩ ⟨run.start + r.start, r.count⟩

/-- Everything one subscriber is to be sent of a write. -/
def Callbacks.items (cb : Callbacks α φ) (e : Subscription) (w : PushedWrite α) : List (PushItem α φ) :=
  match e.overlap w with
  | none => []
  | some overlap =>
      let (selected, span) := cb.select e w overlap
      selected.flatMap fun r =>
        cb.selectedItems e w (cb.view e w overlap) span ⟨overlap.start + r.start, r.count⟩

/-- What the push path reads of `vs_tr_t`, and the group's answers: whether a member has an address,
and whether it turns out unreachable at an item. -/
structure Transport (α φ : Type) where
  inGroup : Bool
  selfId : MemberId
  pushOnly : Option MemberId
  subTable : List Subscription
  callbacks : Callbacks α φ
  hasAddr : MemberId → Bool
  unreachable : MemberId → PushItem α φ → Bool

-- a member found unreachable is given up for the rest of the write
def issue (unreachable : PushItem α φ → Bool) : List (PushItem α φ) → List (PushItem α φ)
  | [] => []
  | item :: rest => if unreachable item then [item] else item :: issue unreachable rest

/-- Whether the snapshot for a write of `path` takes the entry. -/
def Transport.targets (tr : Transport α φ) (path : Path) (e : Subscription) : Bool :=
  decide (e.path = path ∧ (∀ only ∈ tr.pushOnly, e.member = only) ∧ e.backfill = .live)

-- the body of the loop over the snapshot
def Transport.serve (tr : Transport α φ) (w : PushedWrite α) (e : Subscription) : List (MemberId × PushItem α φ) :=
  if e.member = tr.selfId ∨ tr.hasAddr e.member = false then []
  else (issue (tr.unreachable e.member) (tr.callbacks.items e w)).map (e.member, ·)

/-- `vs_tr_writer_push_data`: the items issued, each with the member it goes to. -/
def Transport.pushData (tr : Transport α φ) (w : PushedWrite α) : List (MemberId × PushItem α φ) :=
  if w.elemSize = 0 ∨ tr.inGroup = false then []
  else (tr.subTable.filter (tr.targets w.path)).flatMap (tr.serve w)

/-- The items issued to one member. -/
def Transport.itemsTo (tr : Transport α φ) (member : MemberId) (w : PushedWrite α) : List (PushItem α φ) :=
  (tr.pushData w).filterMap fun p => if p.1 = member then some p.2 else none

end VolStream
