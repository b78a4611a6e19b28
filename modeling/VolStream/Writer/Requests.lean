import VolStream.Writer.FailedStep
import VolStream.Writer.Landed

/-!
# Deferred requests

A write that is captured into the open step may hand the caller a request. All requests of a step share one
completion cell, which the file state refers to as `current_completion` from the step's first such write on;
`H5Fend_step` gives it its status, calls back whoever asked, and lets go of it. The cell is counted: it goes
with the last reference, the file state's or a request's.

`Requests` is that bookkeeping, `AsyncWriter` a writer with it. `Followed` adds what there is to say about a
run: which step each request was captured in, how the `H5Fend_step` of each step ended, and which callbacks
were accepted.
-/

namespace VolStream

/-! ## Completion cells -/

-- where a completion cell, or a request object, is
abbrev Addr := Nat

/-- A callback with its context. -/
abbrev Callback := Nat

/-- `H5VL_request_status_t`, as far as these requests use it. -/
inductive RequestStatus where
  | inProgress
  | succeed
  | fail
  | cantCancel
deriving DecidableEq, Repr

/-- `H5VL_stream_step_completion_t`: the status is 0 while the step is open, then 1 or -1. -/
structure StepCompletion where
  refcount : Nat
  status : Int
  notifyList : List Callback
deriving DecidableEq, Repr

-- a resolved status as a callback is told it
def toldStatus (status : Int) : RequestStatus := if 0 < status then .succeed else .fail

/-- The cells, the file state's own, the live request objects with their `deferred_completion`, and the
callbacks made so far. -/
structure Requests where
  cells : Addr → Option StepCompletion
  currentCompletion : Option Addr
  live : Table Addr Addr
  called : List (Callback × RequestStatus)

namespace Requests

def init : Requests := ⟨fun _ => none, none, [], []⟩

def put (q : Requests) (c : Addr) (cell : Option StepCompletion) : Requests :=
  { q with cells := Function.update q.cells c cell }

/-- `H5VL__stream_step_completion_incref`. -/
def stepCompletionIncref (q : Requests) (c : Addr) : Requests :=
  match q.cells c with
  | none => q
  | some cell => q.put c (some { cell with refcount := cell.refcount + 1 })

/-- `H5VL__stream_step_completion_decref`: the last reference takes the cell, and what is still on its list,
along. -/
def stepCompletionDecref (q : Requests) (c : Addr) : Requests :=
  match q.cells c with
  | none => q
  | some cell =>
      q.put c (if cell.refcount - 1 = 0 then none else some { cell with refcount := cell.refcount - 1 })

/-- The answers of the two allocations in `H5VL__stream_make_deferred_request`: the cell's, asked for only
when the step has none, and the request's. -/
structure Allocs where
  cell : Option Addr
  request : Option Addr
deriving DecidableEq, Repr

/-- The step's cell, made if there is none; a new one counts the file state. An address in use is no answer. -/
def stepCell (q : Requests) (answer : Option Addr) : Option (Requests × Addr) :=
  match q.currentCompletion with
  | some c => some (q, c)
  | none =>
      match answer.filter fun a => (q.cells a).isNone with
      | none => none
      | some a => some ({ q.put a (some ⟨1, 0, []⟩) with currentCompletion := some a }, a)

/-- `H5VL__stream_make_deferred_request` for a caller that wants a request: the state, and the request if it
returned success. A cell made for a request that could not be made stays. -/
def makeDeferredRequest (q : Requests) (a : Allocs) : Requests × Option Addr :=
  match q.stepCell a.cell with
  | none => (q, none)
  | some (q, c) =>
      match a.request.filter fun r => (q.live.find? r).isNone with
      | none => (q, none)
      | some r => ({ q.stepCompletionIncref c with live := q.live.set r c }, some r)

/-- `H5VL__stream_deferred_request_free`. -/
def deferredRequestFree (q : Requests) (r c : Addr) : Requests :=
  { q.stepCompletionDecref c with live := q.live.filter fun p => p.1 ≠ r }

/-- `H5VL_stream_request_wait`; `none` on what is not a live request. -/
def requestWait (q : Requests) (r : Addr) : Option RequestStatus :=
  (q.live.find? r).bind fun c => (q.cells c).map fun cell =>
    if cell.status = 0 then .inProgress else toldStatus cell.status

/-- `H5VL_stream_request_notify`. -/
def requestNotify (q : Requests) (r : Addr) (cb : Callback) (mallocFails : Bool) : Outcome Requests :=
  match q.live.find? r with
  | none => .fail q
  | some c =>
      match q.cells c with
      | none => .fail q
      | some cell =>
          if cell.status = 0 then
            if mallocFails then .fail q
            else .ok ((q.put c (some { cell with notifyList := cb :: cell.notifyList })).deferredRequestFree r c)
          else .ok ({ q with called := q.called ++ [(cb, toldStatus cell.status)] }.deferredRequestFree r c)

/-- `H5VL_stream_request_cancel`, which answers `CANT_CANCEL`. -/
def requestCancel (q : Requests) (r : Addr) : Requests × Option RequestStatus :=
  match q.live.find? r with
  | none => (q, none)
  | some c => (q.deferredRequestFree r c, some .cantCancel)

/-- `H5VL_stream_request_free`. -/
def requestFree (q : Requests) (r : Addr) : Requests :=
  match q.live.find? r with
  | none => q
  | some c => q.deferredRequestFree r c

/-- `H5Fend_step` resolves the step's cell: the status, the callbacks in list order, its own reference. -/
def resolve (q : Requests) (replayed : Bool) : Requests :=
  match q.currentCompletion with
  | none => q
  | some c =>
      match q.cells c with
      | none => { q with currentCompletion := none }
      | some cell =>
          let status : Int := if replayed then 1 else -1
          let q := { q.put c (some { cell with status := status, notifyList := [] }) with
            called := q.called ++ cell.notifyList.map fun cb => (cb, toldStatus status) }
          { q.stepCompletionDecref c with currentCompletion := none }

/-- `H5VL__stream_file_state_decref`, the last time: an open step's cell is let go of unresolved. -/
def abandon (q : Requests) : Requests :=
  match q.currentCompletion with
  | none => q
  | some c => { q.stepCompletionDecref c with currentCompletion := none }

end Requests

/-! ## A writer with requests -/

/-- `fileClosed` once `H5VL_stream_file_close` has succeeded, `stateFreed` once the last reference to the file
state is gone. -/
structure AsyncWriter where
  writer : Writer
  requests : Requests
  fileClosed : Bool
  stateFreed : Bool

/-- What an application does. `call` is any operation that takes no request of the connector's. The file state
goes when the last object of a closed file does, which is the environment's to say. -/
inductive AsyncEvent where
  | call (ev : Event)
  | datasetWrite (args : List WriteArg) (allocs : Requests.Allocs)
  | attrWrite (h : Handle) (value : Option Bytes) (under : Option ObjInfo) (allocs : Requests.Allocs)
  | notify (r : Addr) (cb : Callback) (mallocFails : Bool)
  | cancel (r : Addr)
  | free (r : Addr)
  | fileClose (underFails : Bool)
  | stateFree

namespace AsyncWriter

def init (config : Config) : AsyncWriter := ⟨.init config, .init, false, false⟩

/-- The captured branch of `H5VL__stream_dataset_write_impl` is taken for all datasets of the call. -/
def capturesAll (w : Writer) (args : List WriteArg) : Bool :=
  !args.isEmpty && args.all fun arg => ((w.wrappers arg.handle).map (dsetCapture w.core)).getD false

-- the same for `H5VL__stream_attr_write_impl`
def capturesAttr (w : Writer) (h : Handle) : Bool := ((w.wrappers h).map (dsetCapture w.core)).getD false

/-- A write that was captured makes its request last; without one it fails after all. -/
def withRequest (s : AsyncWriter) (captured : Bool) (written : Outcome Writer) (a : Requests.Allocs) :
    AsyncWriter × Option Addr :=
  match written with
  | .fail w => ({ s with writer := w }, none)
  | .ok w =>
      if captured then
        let (q, r) := s.requests.makeDeferredRequest a
        ({ s with writer := w, requests := q }, r)
      else ({ s with writer := w }, none)

/-- `H5VL_stream_file_close`: an open step is discarded first, whether or not the file then closes. -/
def close (s : AsyncWriter) (underFails : Bool) : AsyncWriter :=
  { s with writer := VolStream.fileClose s.writer, fileClosed := s.fileClosed || !underFails }

/-- `H5Fend_step`; in a step it resolves the requests by what the commit returned. -/
def endStep (s : AsyncWriter) (env : EndEnv) : AsyncWriter :=
  let o := VolStream.endStep env s.writer
  { s with
    writer := o.state
    requests := if s.writer.core.stepState = .inStep then s.requests.resolve o.isOk else s.requests }

/-- Operations on the file itself, which need it open. -/
def onFile : Event → Bool
  | .beginStep _ _ => true
  | .setQueuePolicy _ _ => true
  | .endStep _ => true
  | .fileClose => true
  | _ => false

/-- The operation is there to be called. -/
def reachable (s : AsyncWriter) : AsyncEvent → Bool
  | .call ev => !s.stateFreed && !(onFile ev && s.fileClosed)
  | .datasetWrite _ _ => !s.stateFreed
  | .attrWrite _ _ _ _ => !s.stateFreed
  | .fileClose _ => !s.stateFreed && !s.fileClosed
  | .stateFree => !s.stateFreed && s.fileClosed
  | _ => true

/-- An operation that takes no request. -/
def call (s : AsyncWriter) : Event → AsyncWriter
  | .endStep env => s.endStep env
  | .fileClose => s.close false
  | ev => { s with writer := (s.writer.apply ev).state }

/-- One event: the state it leaves, and the request it hands out. -/
def apply (s : AsyncWriter) (ev : AsyncEvent) : AsyncWriter × Option Addr :=
  if !s.reachable ev then (s, none)
  else match ev with
    | .call ev => (s.call ev, none)
    | .datasetWrite args a => s.withRequest (capturesAll s.writer args) (VolStream.datasetWrite args s.writer) a
    | .attrWrite h value under a =>
        s.withRequest (capturesAttr s.writer h) (VolStream.attrWrite s.writer h value under) a
    | .notify r cb mallocFails => ({ s with requests := (s.requests.requestNotify r cb mallocFails).state }, none)
    | .cancel r => ({ s with requests := (s.requests.requestCancel r).1 }, none)
    | .free r => ({ s with requests := s.requests.requestFree r }, none)
    | .fileClose underFails => (s.close underFails, none)
    | .stateFree => ({ s with requests := s.requests.abandon, stateFreed := true }, none)

end AsyncWriter

end VolStream
