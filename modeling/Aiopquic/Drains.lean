import Aiopquic.Lib.Atomic
import Aiopquic.Lib.Traced
import Aiopquic.RxWake
import Aiopquic.ScRefs
import Aiopquic.StreamCtx

/-!
# The two drains (`_transport.pyx`)

`TransportContext.drain_rx` returns a list of events, `drain_rx_callback` calls a handler for each
event. Both take the entries off the RX event ring, read the stream rings, keep the snapshot cache
and push credit. They treat the references of an entry differently: `drain_rx` holds them until the
batch is released, `drain_rx_callback` drops them entry by entry.

Each drain is a program over `DrainCtx` that records what it does to reference counts and to the
objects these keep alive (`RefOp`). `RefTable.act` gives the record its meaning. It is undefined
where memory is touched that has been freed.

Nothing else runs during a drain, so the operations on the rings are run in one piece. The counters
that only statistics read and the wake trace are left out.
-/

namespace Aiopquic

open Interleave Circular Traced

/-! ## Reference counts -/

/-- `batch_ref_t`. -/
structure BatchRef where
  ptr : ℕ
  isLink : Bool
  deriving DecidableEq, Repr

/-- What a drain does to stream contexts and WT links: a context is read or written, given a
reference or relieved of one, a link is destroyed, a reference is added to the batch. `wild` is the
use of a pointer that is not of the kind the code takes it for. -/
inductive RefOp
  | use (sc : ℕ)
  | ref (sc : ℕ)
  | destroy (sc : ℕ)
  | destroyLink (link : ℕ)
  | hold (b : BatchRef)
  | wild
  deriving DecidableEq, Repr

/-- How `_release_batch_refs` drops a reference. -/
def BatchRef.drop (b : BatchRef) : RefOp := if b.isLink then .destroyLink b.ptr else .destroy b.ptr

/-- The drop that an operation puts off. -/
def RefOp.held : RefOp → Option RefOp
  | .hold b => some b.drop
  | _ => none

/-- `refs` is the `refcount` of each stream context, `0` once it is freed, and `links` the context
of each WT link that has not been destroyed. `linkFrees` is
`cnt_sc_destroy_wt_link_callback_free`. -/
structure RefTable where
  refs : ℕ → ℕ
  links : ℕ → Option ℕ
  linkFrees : ℕ := 0

namespace RefTable

/-- `aiopquic_stream_ctx_destroy`. -/
def destroy (r : RefTable) (sc : ℕ) : Option RefTable :=
  if sc = 0 then some r
  else if 0 < r.refs sc then some { r with refs := Function.update r.refs sc (r.refs sc - 1) }
  else none

/-- `aiopquic_wt_stream_link_destroy`, counted. -/
def destroyLink (r : RefTable) (link : ℕ) : Option RefTable :=
  (r.links link).bind fun sc =>
    destroy { r with links := Function.update r.links link none, linkFrees := r.linkFrees + 1 } sc

/-- The effect of an operation, where it touches nothing that is freed. -/
def act (r : RefTable) : RefOp → Option RefTable
  | .use sc => if 0 < r.refs sc then some r else none
  | .ref sc =>
    if 0 < r.refs sc then some { r with refs := Function.update r.refs sc (r.refs sc + 1) }
      else none
  | .destroy sc => r.destroy sc
  | .destroyLink link => r.destroyLink link
  | .hold _ => some r
  | .wild => none

end RefTable

/-! ## The context -/

/-- A snapshot in the cache. `object` is the identity of the `bytes` object. -/
structure Snapshot where
  object : ℕ
  bytes : List UInt8
  deriving DecidableEq, Repr

/-- A `memoryview` of a `StreamChunk`, and the context that the chunk holds a reference to. -/
structure ChunkView where
  bytes : List UInt8
  sc : Option ℕ
  deriving DecidableEq, Repr

/-- The tuple of an event, and the arguments of the handler. -/
structure DrainedEvent where
  eventType : EventType
  streamId : ℕ
  data : Option ChunkView
  isFin : ℕ
  errorCode : ℕ
  cnxPtr : ℕ
  streamCtxPtr : ℕ
  scPtr : ℕ
  deriving DecidableEq, Repr

/-- The part of the `TransportContext` and its `aiopquic_ctx_t` that a drain uses. `pendingFc` is
the local dictionary of the cycle, in insertion order. `mallocs` are the answers `malloc` has in
store, `objects` counts the `bytes` objects made. `hung` records that
`aiopquic_dgram_ring_release_flush` did not come to an end. -/
structure DrainCtx where
  rx : WakeCtx
  tx : SpscRing
  scs : ℕ → StreamCtx
  threadCtx : Bool
  txWorkerIdle : Bool
  workerWakes : ℕ
  txEventRingDrainPending : Bool
  txEventRingLowWater : ℕ
  dgramReleaseOwed : List (ℕ × ℕ)
  rxDataRingCap : ℕ
  snapshotSize : ℕ
  cnxSnapshots : ℕ → Option Snapshot
  snapshotDrops : List (ℕ × Snapshot)
  refreshPosted : List ℕ
  txEventRingDrainEvent : Option Bool
  objects : ℕ
  mallocs : ℕ → Bool
  pendingFc : List (ℕ × ℕ × ℕ)
  hung : Bool

/-- A part of a drain. -/
abbrev Drain := Traced DrainCtx RefOp

namespace DrainCtx

/-- Run a program of the RX queue. -/
def onRx {α : Type} (p : Prog RxQueue α) : Drain α :=
  compute fun s => ((p.exec s.rx.q).1, { s with rx := { s.rx with q := (p.exec s.rx.q).2 } })

def setSc (s : DrainCtx) (sc : ℕ) (f : StreamCtx → StreamCtx) : DrainCtx :=
  { s with scs := Function.update s.scs sc (f (s.scs sc)) }

/-- The answer of `malloc`. -/
def malloc : Drain Bool :=
  compute fun s => (s.mallocs 0, { s with mallocs := fun n => s.mallocs (n + 1) })

/-! ### The TX event ring -/

/-- `aiopquic_tx_wake_needed` and the wake. -/
def wakeWorker (s : DrainCtx) : DrainCtx :=
  if s.txWorkerIdle then { s with txWorkerIdle := false, workerWakes := s.workerWakes + 1 } else s

/-- `spsc_ring_push` of a command without a payload. -/
def txPush (s : DrainCtx) (e : Entry) : ℤ × DrainCtx :=
  (((SpscRing.push e []).exec s.tx).1, { s with tx := ((SpscRing.push e []).exec s.tx).2 })

/-- `aiopquic_dgram_ring_release_post`. -/
def dgramRingReleasePost (s : DrainCtx) (cnx db : ℕ) : Bool × DrainCtx :=
  let (rc, s) := s.txPush { eventType := .txDgramRingRelease, cnx := cnx, streamCtx := db }
  if rc = 0 then (true, s.wakeWorker) else (false, s)

/-- The inner loop of a flush: post releases until one is refused. Returns those that stay owed. -/
def postReleases (s : DrainCtx) : List (ℕ × ℕ) → List (ℕ × ℕ) × DrainCtx
  | [] => ([], s)
  | (cnx, db) :: owed =>
    let (posted, s) := s.dgramRingReleasePost cnx db
    if posted then s.postReleases owed else ((cnx, db) :: owed, s)

/-- `aiopquic_arm_tx_event_ring_drain_pending`. -/
def armTxEventRingDrainPending (s : DrainCtx) : Bool × DrainCtx :=
  (decide (s.txEventRingLowWater < (SpscRing.count.exec s.tx).1),
    { s with txEventRingDrainPending := true })

/-- The outer loop of a flush, for at most `fuel` rounds. -/
def flushReleases : ℕ → DrainCtx → DrainCtx
  | 0, s => { s with hung := true }
  | fuel + 1, s =>
    let (owed, s) := s.postReleases s.dgramReleaseOwed
    let s := { s with dgramReleaseOwed := owed }
    if owed = [] then s
    else
      let (armed, s) := s.armTxEventRingDrainPending
      if armed then s else flushReleases fuel s

/-- `aiopquic_dgram_ring_release_flush`. With nobody taking commands off the ring, a round that
leaves releases owed has filled it. -/
def dgramRingReleaseFlush (s : DrainCtx) : DrainCtx :=
  if s.threadCtx then flushReleases (s.dgramReleaseOwed.length + 1) s else s

/-! ### Snapshots -/

/-- `_store_snapshot`. -/
def storeSnapshot (cnx : ℕ) (buf : List UInt8) (length : ℕ) (s : DrainCtx) : DrainCtx :=
  if length = s.snapshotSize then
    { s with
      cnxSnapshots := Function.update s.cnxSnapshots cnx (some ⟨s.objects, buf⟩)
      objects := s.objects + 1 }
  else s

/-- `_forget_snapshot`. -/
def forgetSnapshot (cnx : ℕ) (s : DrainCtx) : DrainCtx :=
  match s.cnxSnapshots cnx with
  | some snap => { s with snapshotDrops := s.snapshotDrops ++ [(cnx, snap)] }
  | none => s

/-- One deferred drop: the snapshot goes if it is still the one noted. -/
def dropSnapshot (s : DrainCtx) (drop : ℕ × Snapshot) : DrainCtx :=
  if (s.cnxSnapshots drop.1).map (·.object) = some drop.2.object then
    { s with cnxSnapshots := Function.update s.cnxSnapshots drop.1 none }
  else s

/-- `_begin_drain_cycle`. -/
def beginDrainCycle (s : DrainCtx) : DrainCtx :=
  let s := if s.dgramReleaseOwed = [] then s else s.dgramRingReleaseFlush
  let s := { s with refreshPosted := [] }
  { s.snapshotDrops.foldl dropSnapshot s with snapshotDrops := [] }

/-! ### Received bytes -/

/-- `_pending_fc_add`. -/
def pendingFcAdd (sc cnx streamId : ℕ) : Drain Unit := do
  let s ← get
  if sc ∈ s.pendingFc.map (·.1) then pure ()
  else do
    emit (.ref sc)
    modify fun s => { s with pendingFc := s.pendingFc ++ [(sc, cnx, streamId)] }

/-- What both drains do for an entry that announces stream bytes: clear the notification flag, pop
all of `sc->rx` into a `StreamChunk`, whose `_wrap` takes a reference and adds the length to
`bytes_pending_release`; take a `memoryview` of it, whose `__getbuffer__` subtracts the length
again; count the bytes and note the context. -/
def popChunk (sc cnx streamId : ℕ) : Drain (Option ChunkView) := do
  emit (.use sc)
  modify fun s => s.setSc sc fun c => { c with rxEventPending := false }
  let s ← get
  match (s.scs sc).rx with
  | none => pure none
  | some rx =>
    let avail := (StreamBuf.used.exec rx).1
    if avail = 0 then pure none
    else do
      let buf ← malloc
      if buf = false then pure none
      else do
        let popped := (StreamBuf.pop avail).exec rx
        modify fun s => s.setSc sc fun c => { c with rx := some popped.2 }
        emit (.ref sc)
        modify fun s => s.setSc sc fun c =>
          { c with bytesPendingRelease := c.bytesPendingRelease + avail }
        modify fun s => s.setSc sc fun c =>
          { c with bytesPendingRelease := c.bytesPendingRelease - avail }
        modify fun s => s.setSc sc fun c => { c with rxConsumed := c.rxConsumed + avail }
        pendingFcAdd sc cnx streamId
        pure (some ⟨StreamBuf.fillBuffer avail popped.1, some sc⟩)

/-! ### Credit -/

/-- The hysteresis of `_push_fc_credit`. -/
def fcHysteresis (s : DrainCtx) : ℕ := if 0 < s.rxDataRingCap then s.rxDataRingCap >>> 4
    else 1 <<< 18

/-- `aiopquic_push_fc_credit`. -/
def pushFcCreditEvent (cnx streamId sc : ℕ) : Drain Unit := do
  if cnx = 0 ∨ sc = 0 then pure ()
  else do
    emit (.ref sc)
    let rc ← compute (·.txPush
      { eventType := .txOpenFlowControl, streamId := streamId, cnx := cnx, streamCtx := sc })
    if rc = 0 then modify fun s => if s.threadCtx then s.wakeWorker else s
    else emit (.destroy sc)

/-- `_push_fc_credit`. -/
def pushFcCredit (cnx streamId sc : ℕ) : Drain Unit := do
  emit (.use sc)
  let s ← get
  let consumed := (s.scs sc).rxConsumed
  if diff64 consumed (s.scs sc).lastFcPushConsumed < s.fcHysteresis then pure ()
  else do
    modify fun s => s.setSc sc fun c => { c with lastFcPushConsumed := consumed }
    pushFcCreditEvent cnx streamId sc

/-- The loop of `_flush_pending_fc`. -/
def flushNotes : List (ℕ × ℕ × ℕ) → Drain Unit
  | [] => pure ()
  | (sc, cnx, streamId) :: notes => do
    pushFcCredit cnx streamId sc
    emit (.destroy sc)
    flushNotes notes

/-- `_flush_pending_fc`. -/
def flushPendingFc : Drain Unit := do
  let s ← get
  flushNotes s.pendingFc
  modify fun s => { s with pendingFc := [] }

/-- `aiopquic_clear_rx`. -/
def clearRx (s : DrainCtx) : DrainCtx := { s with rx := (WakeCtx.clearRx.exec s.rx).2 }

/-- `self._tx_event_ring_drain_event.set()`, if there is one. -/
def setDrainEvent (s : DrainCtx) : DrainCtx :=
  { s with txEventRingDrainEvent := s.txEventRingDrainEvent.map fun _ => true }

/-- `spsc_ring_take_data`: the payload, if the entry owns one. -/
def takeData (e : Entry) : Drain (List UInt8) := do
  (match e.dataBuf with
    | .borrowed _ => emit .wild
    | _ => pure ())
  onRx (RxQueue.takeData e)
  pure e.payload

/-- The events that carry a snapshot of their connection. -/
def CarriesSnapshot (t : EventType) : Prop :=
  t = .ready ∨ t = .almostReady ∨ t = .cnxStack ∨ t = .wtSessionReady

instance (t : EventType) : Decidable (CarriesSnapshot t) := inferInstanceAs (Decidable (_ ∨ _))

/-- The events after which the snapshot of their connection is forgotten. -/
def Ends (t : EventType) : Prop :=
  t = .close ∨ t = .appClose ∨ t = .wtSessionClosed ∨ t = .wtSessionRefused

instance (t : EventType) : Decidable (Ends t) := inferInstanceAs (Decidable (_ ∨ _))

/-! ## `drain_rx` -/

/-- The event of an entry. -/
def eventOf (e : Entry) (data : Option ChunkView) (scPtr : ℕ) : DrainedEvent :=
  ⟨e.eventType, e.streamId, data, e.isFin, e.errorCode, e.cnx, e.streamCtx, scPtr⟩

/-- The event that tells Python that a stream is gone. -/
def destroyEventOf (e : Entry) : DrainedEvent :=
  ⟨e.eventType, e.streamId, none, 0, 0, e.cnx, e.streamCtx, 0⟩

/-- The data and the `sc_ptr` of an entry in `drain_rx`. -/
def drainRxData (e : Entry) : Drain (Option ChunkView × ℕ) := do
  if 0 < e.dataLength ∧ e.dataBuf ≠ .null then do
    let buf ← takeData e
    if CarriesSnapshot e.eventType then do
      modify (storeSnapshot e.cnx buf e.dataLength)
      pure (none, 0)
    else pure (some ⟨buf, none⟩, 0)
  else if (e.eventType = .streamData ∨ e.eventType = .streamFin) ∧ e.streamCtx ≠ 0 then do
    let data ← popChunk e.streamCtx e.cnx e.streamId
    pure (data, 0)
  else
    match e.dataBuf with
    | .null => pure (none, 0)
    | .owned _ => do
      emit .wild
      pure (none, 0)
    | .borrowed sc =>
      if e.dataLength ≠ 0 then pure (none, 0)
      else if e.eventType = .wtStreamData ∨ e.eventType = .wtStreamFin then do
        let data ← popChunk sc e.cnx e.streamId
        pure (data, sc)
      else pure (none, sc)

/-- `aiopquic_rx_event_release`. -/
def rxEventRelease (e : Entry) : Drain Unit :=
  if e.streamCtx ≠ 0 ∧ rxEventOwnsSc e.eventType then emit (.destroy e.streamCtx) else pure ()

/-- `_hold_batch_ref`, which finds room for the reference. -/
def holdBatchRef (ptr : ℕ) (isLink : Bool) : Drain Unit := emit (.hold ⟨ptr, isLink⟩)

/-- One entry in the loop of `drain_rx`. Returns the event appended to the list. -/
def drainRxEntry (e : Entry) : Drain (Option DrainedEvent) := do
  if e.eventType = .wtStreamLinkRelease then do
    (match e.dataBuf with
      | .null => pure ()
      | .owned _ => emit .wild
      | .borrowed link => holdBatchRef link true)
    onRx RxQueue.pop
    pure none
  else if e.eventType = .wtStreamDestroy then do
    onRx RxQueue.pop
    pure (some (destroyEventOf e))
  else if e.eventType = .streamDestroy then do
    (if e.streamCtx ≠ 0 then holdBatchRef e.streamCtx false else pure ())
    onRx RxQueue.pop
    pure (some (destroyEventOf e))
  else if e.eventType = .txEventRingDrained then do
    modify setDrainEvent
    onRx RxQueue.pop
    pure none
  else if e.eventType = .cnxSnapshot then do
    (if 0 < e.dataLength ∧ e.dataBuf ≠ .null then do
        let buf ← takeData e
        modify (storeSnapshot e.cnx buf e.dataLength)
      else pure ())
    onRx RxQueue.pop
    pure none
  else do
    let (data, scPtr) ← drainRxData e
    if data = none ∧ (e.eventType = .streamData ∨ e.eventType = .wtStreamData) then do
      rxEventRelease e
      onRx RxQueue.pop
      pure none
    else do
      (if Ends e.eventType then modify (forgetSnapshot e.cnx) else pure ())
      (if e.streamCtx ≠ 0 ∧ rxEventOwnsSc e.eventType then holdBatchRef e.streamCtx false
        else pure ())
      onRx RxQueue.pop
      pure (some (eventOf e data scPtr))

/-- The loop of `drain_rx`, with the events so far. -/
def drainRxLoop : ℕ → List DrainedEvent → Drain (List DrainedEvent)
  | 0, events => pure events
  | n + 1, events => do
    let entry ← onRx RxQueue.peek
    match entry with
    | none => do
      let moved ← onRx RxQueue.refill
      if moved = 0 then pure events else drainRxLoop n events
    | some e => do
      let event ← drainRxEntry e
      drainRxLoop n (events ++ event.toList)

/-- `drain_rx`, from `_begin_drain_cycle` on. -/
def drainRx (maxEvents : ℤ) : Drain (List DrainedEvent) := do
  modify fun s => { s with pendingFc := [] }
  modify beginDrainCycle
  let _ ← onRx RxQueue.refill
  let events ← drainRxLoop maxEvents.toNat []
  flushPendingFc
  modify clearRx
  pure events

/-! ## `drain_rx_callback` -/

/-- The local variables of `drain_rx_callback` that an entry changes, with the calls of the handler
so far. `data` is the context of the chunk that only the variable `data` still keeps. -/
structure CallbackLoop where
  calls : List DrainedEvent := []
  count : ℕ := 0
  data : Option ℕ := none

namespace CallbackLoop

/-- An assignment to `data`, or the return: a chunk that nothing else keeps gives up its context. -/
def clearData (v : CallbackLoop) : Drain CallbackLoop := do
  (match v.data with
    | some sc => emit (.destroy sc)
    | none => pure ())
  pure { v with data := none }

/-- The handler is called. `keeps` tells of the calls so far whether it keeps the view that the last
one passed. -/
def call (keeps : List DrainedEvent → Bool) (v : CallbackLoop) (ev : DrainedEvent) : CallbackLoop :=
  { v with
    calls := v.calls ++ [ev]
    data := if keeps (v.calls ++ [ev]) then none else ev.data.bind (·.sc) }

def counted (v : CallbackLoop) : CallbackLoop := { v with count := v.count + 1 }

end CallbackLoop

/-- The data and the `sc_ptr` of an entry in `drain_rx_callback`. -/
def drainRxCallbackData (e : Entry) : Drain (Option ChunkView × ℕ) := do
  if 0 < e.dataLength ∧ e.dataBuf ≠ .null then do
    let buf ← takeData e
    if CarriesSnapshot e.eventType then do
      modify (storeSnapshot e.cnx buf e.dataLength)
      pure (none, 0)
    else pure (some ⟨buf, none⟩, 0)
  else if (e.eventType = .streamData ∨ e.eventType = .streamFin) ∧ e.streamCtx ≠ 0 then do
    let data ← popChunk e.streamCtx e.cnx e.streamId
    pure (data, 0)
  else
    match e.dataBuf with
    | .null => pure (none, 0)
    | .owned _ => do
      emit .wild
      pure (none, 0)
    | .borrowed sc =>
      if e.dataLength ≠ 0 then pure (none, 0)
      else if e.eventType = .wtStreamData ∨ e.eventType = .wtStreamFin then do
        let data ← popChunk sc e.cnx e.streamId
        pure (data, sc)
      else pure (none, sc)

/-- The two loops read the data of an entry alike. -/
theorem drainRxCallbackData_eq (e : Entry) : drainRxCallbackData e = drainRxData e := rfl

/-- One entry in the loop of `drain_rx_callback`. -/
def drainRxCallbackEntry (keeps : List DrainedEvent → Bool) (e : Entry) (v : CallbackLoop) :
    Drain CallbackLoop := do
  if e.eventType = .wtStreamLinkRelease then do
    (match e.dataBuf with
      | .null => pure ()
      | .owned _ => emit .wild
      | .borrowed link => emit (.destroyLink link))
    onRx RxQueue.pop
    pure v.counted
  else if e.eventType = .wtStreamDestroy then do
    let v := { v with calls := v.calls ++ [destroyEventOf e] }
    onRx RxQueue.pop
    pure v.counted
  else if e.eventType = .streamDestroy then do
    let v := { v with calls := v.calls ++ [destroyEventOf e] }
    (if e.streamCtx ≠ 0 then emit (.destroy e.streamCtx) else pure ())
    onRx RxQueue.pop
    pure v.counted
  else if e.eventType = .txEventRingDrained then do
    modify setDrainEvent
    onRx RxQueue.pop
    pure v.counted
  else if e.eventType = .cnxSnapshot then do
    (if 0 < e.dataLength ∧ e.dataBuf ≠ .null then do
        let buf ← takeData e
        modify (storeSnapshot e.cnx buf e.dataLength)
      else pure ())
    onRx RxQueue.pop
    pure v.counted
  else do
    let v ← v.clearData
    let (data, scPtr) ← drainRxCallbackData e
    if data = none ∧ (e.eventType = .streamData ∨ e.eventType = .wtStreamData) then do
      rxEventRelease e
      onRx RxQueue.pop
      pure v
    else do
      let v := v.call keeps (eventOf e data scPtr)
      (if Ends e.eventType then modify (forgetSnapshot e.cnx) else pure ())
      rxEventRelease e
      onRx RxQueue.pop
      pure v.counted

/-- The loop of `drain_rx_callback`. -/
def drainRxCallbackLoop (keeps : List DrainedEvent → Bool) : ℕ → CallbackLoop → Drain CallbackLoop
  | 0, v => pure v
  | n + 1, v => do
    let entry ← onRx RxQueue.peek
    match entry with
    | none => do
      let moved ← onRx RxQueue.refill
      if moved = 0 then pure v else drainRxCallbackLoop keeps n v
    | some e => do
      let v ← drainRxCallbackEntry keeps e v
      drainRxCallbackLoop keeps n v

/-- `drain_rx_callback`, for a handler that returns and leaves the transport alone. The variable
`data` is let go of on return. -/
def drainRxCallback (keeps : List DrainedEvent → Bool) (maxEvents : ℤ) : Drain CallbackLoop := do
  modify fun s => { s with pendingFc := [] }
  modify beginDrainCycle
  let _ ← onRx RxQueue.refill
  let v ← drainRxCallbackLoop keeps maxEvents.toNat {}
  flushPendingFc
  modify clearRx
  v.clearData

end DrainCtx

/-! ## The transport -/

/-- The `TransportContext` between two calls, with the references that the last `drain_rx` batch
holds. -/
structure DrainTransport where
  ctx : DrainCtx
  table : RefTable
  batchRefs : List BatchRef

namespace DrainTransport

/-- `release_batch`. -/
def releaseBatch (t : DrainTransport) : Option DrainTransport :=
  (Steps.run RefTable.act t.table (t.batchRefs.map BatchRef.drop)).map fun table =>
    { t with table := table, batchRefs := [] }

/-- The references that a recorded list adds to the batch. -/
def heldBy (ops : List RefOp) : List BatchRef :=
  ops.filterMap fun
    | .hold b => some b
    | _ => none

/-- A drain: its result, and the transport it leaves. -/
def perform {α : Type} (t : DrainTransport) (x : Drain α) : Option (α × DrainTransport) :=
  (Steps.run RefTable.act t.table (x t.ctx).2.2).map fun table =>
    ((x t.ctx).1, { ctx := (x t.ctx).2.1, table := table, batchRefs := t.batchRefs ++ heldBy (x t.ctx).2.2 })

/-- `drain_rx`. -/
def drainRx (maxEvents : ℤ) (t : DrainTransport) : Option (List DrainedEvent × DrainTransport) :=
  t.releaseBatch.bind fun t => t.perform (DrainCtx.drainRx maxEvents)

/-- `drain_rx_callback`: the arguments of each call of the handler, and the count returned. -/
def drainRxCallback (keeps : List DrainedEvent → Bool) (maxEvents : ℤ) (t : DrainTransport) :
    Option ((List DrainedEvent × ℕ) × DrainTransport) :=
  (t.perform (DrainCtx.drainRxCallback keeps maxEvents)).map fun out =>
    ((out.1.calls, out.1.count), out.2)

/-- The contexts of the views that `keeps` lets go of, among the events from the call after `calls`
on. -/
def letGo (keeps : List DrainedEvent → Bool) : List DrainedEvent → List DrainedEvent → List ℕ
  | _, [] => []
  | calls, ev :: events =>
    (if keeps (calls ++ [ev]) then [] else (ev.data.bind (·.sc)).toList) ++ letGo keeps
      (calls ++ [ev]) events

/-- The consumer of a list of events lets go of the views it does not keep. -/
def dropViews (keeps : List DrainedEvent → Bool) (events : List DrainedEvent) (t : DrainTransport) :
    Option DrainTransport :=
  (Steps.run RefTable.act t.table ((letGo keeps [] events).map .destroy)).map fun table =>
    { t with table := table }

end DrainTransport

end Aiopquic
