import Aiopquic.RxWake
import Aiopquic.StreamCtx
import Aiopquic.Threads

/-!
# Receiving on a stream

The worker's `stream_data` and `stream_fin` callbacks push bytes into `sc->rx` and a notification
into the RX event queue; `drain_rx` pops the notifications and with each one all bytes of the ring.
At most one `STREAM_DATA` notification is out: the worker pushes one only when it turns
`rx_event_pending` from 0 to 1, and the drain clears the flag before it pops. `STREAM_FIN` is always
pushed.

`RxStream` is one stream with its connection's RX queue. The queue carries everybody's events; those
of other streams are pushed and processed here only for what they do to the queue. The credit that
the first callback and the drain give to the peer touches none of this.
-/

namespace Aiopquic

open Interleave Interleave.Prog Circular RxQueue

/-- Where the receive side of a stream lives: its connection, its id, the address of its context,
and the capacity and hash switch its RX ring is created with. -/
structure RxSite where
  cnx : ℕ
  streamId : ℕ
  ptr : ℕ
  ringCap : UInt32
  hash : Bool
  ptr_ne : ptr ≠ 0

/-- An event of the stream as `drain_rx` returns it. -/
structure RxEvent where
  eventType : EventType
  data : Option (List UInt8)
  deriving DecidableEq, Repr

/-- The bytes a sequence of events delivers. -/
def deliveredBytes (events : List RxEvent) : List UInt8 := events.flatMap (·.data.getD [])

theorem deliveredBytes_snoc (events : List RxEvent) (ev : RxEvent) :
    deliveredBytes (events ++ [ev]) = deliveredBytes events ++ ev.data.getD [] := by
  simp [deliveredBytes]

/-- A stream's receive side. `attached` says that picoquic passes the context to the callbacks;
`overflows` is `worker_rx_byte_ring_overflow`. The fields from `events` on are the record of the
run: the events returned, the payloads and the FIN of the callbacks begun, the number of
`stream_data` callbacks without a byte, and how far the notifications have got: `arming` is the
number that the entry the worker owes the queue will get, `owes` says that the worker has still to
see to the bytes it pushes, `seen` and `recorded` count the queue's entries up to the last one of
the stream whose flag was cleared and whose event was returned, and `covered` is the tail of the
ring at the last clear. -/
structure RxStream where
  sc : StreamCtx
  attached : Bool
  rx : WakeCtx
  overflows : ℕ
  events : List RxEvent
  started : List (List UInt8)
  finStarted : Bool
  emptyData : ℕ
  arming : Option ℕ
  owes : Bool
  seen : ℕ
  recorded : ℕ
  covered : ℕ

namespace RxStream

/-- A stream that nothing was received on, with or without a context. -/
def init (geo : Geometry) (attached : Bool) : RxStream :=
  ⟨{}, attached, .create geo, 0, [], [], false, 0, none, false, 0, 0, 0⟩

/-- The stream's context. -/
def scLoc : Loc RxStream StreamCtx where
  get := (·.sc)
  set := fun sc s => { s with sc := sc }
  get_set := fun _ _ => rfl

/-- The wake side of the event queue. -/
def rxLoc : Loc RxStream WakeCtx where
  get := (·.rx)
  set := fun rx s => { s with rx := rx }
  get_set := fun _ _ => rfl

/-- The event queue. -/
def qLoc : Loc RxStream RxQueue := rxLoc.comp WakeCtx.qLoc

/-- The RX byte ring. -/
def ringLoc : Loc RxStream StreamBuf := scLoc.comp StreamCtx.rxLoc

/-- Every entry pushed to the queue. -/
def accepted (s : RxStream) : List Entry := s.rx.q.accepted

/-- The number of entries popped from it. -/
def head (s : RxStream) : ℕ := s.rx.q.ring.head

/-! ## The callback -/

/-- The record at the start of a callback. -/
def start (data : List UInt8) (fin : Bool) (s : RxStream) : RxStream :=
  { s with
    started := s.started ++ StreamCtx.chunk data
    finStarted := s.finStarted || fin
    emptyData := s.emptyData + (decide (data = [] ∧ fin = false)).toNat
    owes := decide (data ≠ []) }

/-- `aiopquic_stream_ctx_rx_event_pending_arm`. The caller owes a notification if it set the
flag. -/
def armEvent (s : RxStream) : RxStream :=
  { s with
    sc := { s.sc with rxEventPending := true }
    arming := if s.sc.rxEventPending then none else some s.accepted.length
    owes := false }

/-- The worker turns to the push of the FIN notification. -/
def armFin (s : RxStream) : RxStream := { s with arming := some s.accepted.length, owes := false }

/-- The entry a callback pushes. -/
def entryOf (r : RxSite) (fin attached : Bool) : Entry where
  eventType := if fin then .streamFin else .streamData
  streamId := r.streamId
  cnx := r.cnx
  streamCtx := if attached then r.ptr else 0

/-- Pushing a notification. -/
def notify (e : Entry) : Prog RxStream Unit := do
  let _ ← (WakeCtx.rxPush e []).on rxLoc
  modify fun s => { s with arming := none }

/-- A callback whose bytes are in the ring. -/
def announce (r : RxSite) (fin : Bool) : Prog RxStream Unit :=
  if fin then do
    StreamBuf.setFin.on ringLoc
    modify armFin
    notify (entryOf r true true)
  else do
    let won ← rmw armEvent (! ·.sc.rxEventPending)
    when won <| notify (entryOf r false true)

/-- The `stream_data` and `stream_fin` branches of `aiopquic_stream_cb`; `fin` tells them apart. A
callback without bytes pushes its entry as it is. -/
def streamCb (r : RxSite) (data : List UInt8) (fin : Bool) : Prog RxStream Unit := do
  modify (start data fin)
  let attached ← load (·.attached)
  if data = [] then notify (entryOf r fin attached)
  else do
    when (attached = false) <| modify fun s => { s with attached := true }
    let rx ← load (·.sc.rx)
    when (rx.isNone) <| modify fun s =>
      { s with sc := { s.sc with rx := some (.create r.ringCap r.hash) } }
    let pushed ← (StreamBuf.push data).on ringLoc
    if pushed ≠ data.length then modify fun s => { s with overflows := s.overflows + 1 }
    else announce r fin

/-- Any other event the worker pushes. -/
def otherCb (e : Entry) (data : List UInt8) : Prog RxStream Unit := do
  let _ ← (WakeCtx.rxPush e data).on rxLoc
  pure ()

/-! ## The drain -/

/-- `STREAM_DATA` or `STREAM_FIN`. -/
def IsStream (e : Entry) : Prop := e.eventType = .streamData ∨ e.eventType = .streamFin

/-- An entry of the stream. -/
def Ours (r : RxSite) (e : Entry) : Prop := IsStream e ∧ e.cnx = r.cnx ∧ e.streamId = r.streamId

/-- An entry with which the drain takes the bytes of the stream's context. -/
def Notes (r : RxSite) (e : Entry) : Prop := IsStream e ∧ e.streamCtx = r.ptr

instance (e : Entry) : Decidable (IsStream e) := inferInstanceAs (Decidable (_ ∨ _))

instance (r : RxSite) (e : Entry) : Decidable (Ours r e) := inferInstanceAs (Decidable (_ ∧ _))

instance (r : RxSite) (e : Entry) : Decidable (Notes r e) := inferInstanceAs (Decidable (_ ∧ _))

/-- `aiopquic_stream_ctx_rx_event_pending_clear`, for the entry at the head of the queue. -/
def clearEvent (s : RxStream) : RxStream :=
  { s with
    sc := { s.sc with rxEventPending := false }
    seen := s.head + 1
    covered := s.sc.rxBuf.tail }

/-- Returning an event for the entry at the head of the queue. -/
def record (ev : RxEvent) (s : RxStream) : RxStream :=
  { s with events := s.events ++ [ev], recorded := s.head + 1 }

/-- A `STREAM_DATA` without data is skipped. -/
def deliver (e : Entry) (data : Option (List UInt8)) : Prog RxStream Unit :=
  if data = none ∧ e.eventType = .streamData then pure () else modify (record ⟨e.eventType, data⟩)

/-- What `drain_rx` does with an entry. An entry that owns a payload is delivered with it. -/
def process (r : RxSite) (e : Entry) : Prog RxStream Unit :=
  if e.Frees then do
    (takeData e).on qLoc
    when (Ours r e) <| modify (record ⟨e.eventType, some e.payload⟩)
    pop.on qLoc
  else if Notes r e then do
    modify clearEvent
    let data ← StreamCtx.popRx.on scLoc
    deliver e data
    pop.on qLoc
  else do
    when (Ours r e) <| deliver e none
    pop.on qLoc

/-- `drain_rx`. -/
def drain (r : RxSite) (maxEvents : ℕ) : Prog RxStream Unit := do
  let _ ← refill.on qLoc
  drainLoop qLoc (process r) maxEvents
  WakeCtx.clearRx.on rxLoc

/-- The room in the RX ring, which the first callback with bytes creates. -/
def room (r : RxSite) (s : RxStream) : ℕ :=
  if s.sc.rx.isSome then s.sc.rxBuf.geo.capacity - (s.sc.rxBuf.tail - s.sc.rxBuf.head)
  else ceilPow2U32 r.ringCap

/-- An event of another stream, or of another kind. Live streams have different contexts. -/
def Foreign (r : RxSite) (e : Entry) : Prop := ¬ Ours r e ∧ ¬ Notes r e

/-- Callbacks whose bytes fit the ring, none after `stream_fin`; other events; drains. -/
inductive Menu (r : RxSite) : Thread → RxStream → Prog RxStream Unit → Prop
  | stream (s : RxStream) (data : List UInt8) (fin : Bool) (hroom : data.length ≤ room r s)
      (hfin : s.finStarted = false) : Menu r .worker s (streamCb r data fin)
  | other (s : RxStream) (e : Entry) (data : List UInt8) (he : Foreign r e) :
      Menu r .worker s (otherCb e data)
  | drain (s : RxStream) (maxEvents : ℕ) : Menu r .asyncio s (drain r maxEvents)

end RxStream

end Aiopquic
