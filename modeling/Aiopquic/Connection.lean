import Aiopquic.SpscRing
import Mathlib.Data.Finset.Basic

/-!
# `QuicConnection` (`quic/connection.py`)

What a connection does with the events drained for it. A client's connection handles them in
`_handle_raw_event`, a server's in `_enqueue_raw`, called by the engine; both turn them into events
for the protocol and keep the contexts, drain events and the datagram ring of the connection.

An `asyncio.Event` is its flag. A dict is the partial function it stands for. `Transport` records
what the connections of a transport asked of it: the stream contexts whose reference they gave up
and the datagram rings they released.
-/

namespace Aiopquic

/-! ## Events -/

/-- One drained event, as `drain_rx` hands it over. -/
structure RawEvent where
  evtType : EventType
  streamId : ℕ := 0
  data : Option (List UInt8) := none
  isFin : ℕ := 0
  errorCode : ℕ := 0
  cnxPtr : ℕ := 0
  streamCtxPtr : ℕ := 0
  deriving DecidableEq, Repr

namespace RawEvent

/-- `evt_type in (_EVT_CLOSE, _EVT_APP_CLOSE)`. -/
def isClose (ev : RawEvent) : Bool := ev.evtType = .close ∨ ev.evtType = .appClose

end RawEvent

/-- `ConnectionTerminated`; the reasons are the bytes that Python decodes as UTF-8. -/
structure ConnectionTerminated where
  errorCode : ℕ := 0
  frameType : Option ℕ := some 0
  reasonPhrase : List UInt8 := []
  localError : ℕ := 0
  localReason : List UInt8 := []
  deriving DecidableEq, Repr

/-- `QuicEvent`. -/
inductive QuicEvent
  | handshakeCompleted (alpn : Option String) (sessionResumed : Bool)
  | protocolNegotiated (alpn : Option String)
  | streamDataReceived (streamId : ℕ) (data : List UInt8) (endStream : Bool)
  | streamReset (streamId errorCode : ℕ)
  | stopSendingReceived (streamId errorCode : ℕ)
  | datagramFrameReceived (data : List UInt8)
  | connectionTerminated (event : ConnectionTerminated)
  deriving DecidableEq, Repr

/-- Whether an event is a `ConnectionTerminated`. -/
def QuicEvent.isTerminated : QuicEvent → Bool
  | .connectionTerminated _ => true
  | _ => false

/-! ## Connections -/

/-- What the transport answers while an event is handled: the negotiated ALPN, whether the session
was resumed, and whether `dgram_mark_ready` posts its mark. -/
structure Answers where
  alpn : Option String := none
  sessionResumed : Bool := false
  markPosts : Bool := true

/-- What the connections of a transport asked of it. `ringDrainEvent` is
`_tx_event_ring_drain_event` once somebody has asked for it. -/
structure Transport where
  scDestroyed : Finset ℕ := ∅
  dgramReleased : List (ℕ × ℕ) := []
  ringDrainEvent : Option Bool := none

/-- `QuicConnection`. -/
structure QuicConnection where
  cnxPtr : ℕ
  connected : Bool
  created : Bool
  closed : Bool := false
  terminated : Bool := false
  events : List QuicEvent := []
  streamCtxs : ℕ → Option ℕ := fun _ => none
  scOwned : Finset ℕ := ∅
  streamCtxsDropped : Bool := false
  dgramRing : ℕ := 0
  dgramMarkOwed : Bool := false
  dgramTxDrainEvent : Bool := true
  datagramsAcked : ℕ := 0
  datagramsLost : ℕ := 0
  streamTxDrainEvents : ℕ → Option Bool := fun _ => none
  /-- The events that `_EVT_STREAM_DESTROY` took out of the dict. -/
  retiredEvents : List Bool := []

namespace QuicConnection

/-- `QuicConnection(configuration=cfg)`. -/
def client : QuicConnection := { cnxPtr := 0, connected := false, created := false }

/-- `QuicConnection(configuration=cfg, engine=engine, cnx_ptr=cnx_ptr)`. -/
def ofEngine (cnxPtr : ℕ) : QuicConnection :=
  { cnxPtr := cnxPtr, connected := true, created := true }

/-- `self._events.append(event)`. -/
def append (c : QuicConnection) (event : QuicEvent) : QuicConnection :=
  { c with events := c.events ++ [event] }

/-- `_CLOSE_LOCAL`. -/
def closeLocal : ℕ := 0x80

/-- `_append_terminated`. -/
def appendTerminated (c : QuicConnection) (ev : RawEvent) : QuicConnection :=
  if c.terminated then c
  else
    let text := ev.data.getD []
    let event : ConnectionTerminated :=
      if ev.isFin &&& closeLocal ≠ 0 then { localError := ev.errorCode, localReason := text }
      else
        { errorCode := ev.errorCode
          frameType := if ev.evtType = .appClose then none else some 0
          reasonPhrase := text }
    { c with terminated := true }.append (.connectionTerminated event)

/-- `_adopt_stream_ctx`. -/
def adoptStreamCtx (c : QuicConnection) (streamId sc : ℕ) : QuicConnection :=
  if sc ≠ 0 ∧ c.streamCtxsDropped = false then
    { c with
      scOwned := insert sc c.scOwned
      streamCtxs := if c.streamCtxs streamId = none then Function.update c.streamCtxs
        streamId (some sc)
        else c.streamCtxs }
  else c

/-- `_destroy_stream_ctxs`. -/
def destroyStreamCtxs (c : QuicConnection) (t : Transport) : QuicConnection × Transport :=
  ({ c with streamCtxsDropped := true, streamCtxs := fun _ => none, scOwned := ∅ },
    { t with scDestroyed := t.scDestroyed ∪ c.scOwned })

/-- `_release_dgram_ring`. -/
def releaseDgramRing (c : QuicConnection) (t : Transport) : QuicConnection × Transport :=
  if c.dgramRing ≠ 0 then
    ({ c with dgramRing := 0 },
      { t with dgramReleased := t.dgramReleased ++ [(c.dgramRing, c.cnxPtr)] })
  else (c, t)

theorem releaseDgramRing_fst (c : QuicConnection) (t : Transport) :
    (c.releaseDgramRing t).1 = { c with dgramRing := 0 } := by
  unfold releaseDgramRing
  split
  · rfl
  · rename_i h
    cases c
    simp_all

theorem releaseDgramRing_ringDrainEvent (c : QuicConnection) (t : Transport) :
    (c.releaseDgramRing t).2.ringDrainEvent = t.ringDrainEvent := by
  unfold releaseDgramRing
  split <;> rfl

/-- Setting every event of a dict. -/
def setAll (events : ℕ → Option Bool) : ℕ → Option Bool := fun k => (events k).map fun _ => true

/-- The branch of both handlers for `_EVT_CLOSE` and `_EVT_APP_CLOSE`. -/
def handleClose (c : QuicConnection) (t : Transport) (ev : RawEvent) : QuicConnection × Transport :=
  let c := { c with closed := true }.appendTerminated ev
  let c := { c with streamTxDrainEvents := setAll c.streamTxDrainEvents }
  let t := { t with ringDrainEvent := t.ringDrainEvent.map fun _ => true }
  let dropped := c.destroyStreamCtxs t
  let released := { dropped.1 with dgramTxDrainEvent := true }.releaseDgramRing dropped.2
  ({ released.1 with cnxPtr := 0 }, released.2)

/-- The branch of both handlers for `_EVT_DATAGRAM_TX_DRAINED`. -/
def handleDatagramDrained (c : QuicConnection) (a : Answers) : QuicConnection :=
  { c with
    dgramTxDrainEvent := true
    dgramMarkOwed :=
      if c.dgramMarkOwed ∧ c.dgramRing ≠ 0 ∧ c.cnxPtr ≠ 0 ∧ a.markPosts then false
        else c.dgramMarkOwed }

/-- The branch of both handlers for `_EVT_STREAM_DESTROY`. -/
def handleStreamDestroy (c : QuicConnection) (ev : RawEvent) : QuicConnection :=
  { c with
    scOwned := c.scOwned.erase ev.streamCtxPtr
    streamCtxs := Function.update c.streamCtxs ev.streamId none
    streamTxDrainEvents := Function.update c.streamTxDrainEvents ev.streamId none
    retiredEvents := c.retiredEvents ++
      ((c.streamTxDrainEvents ev.streamId).map fun _ => true).toList }

/-- The branches in which `_handle_raw_event` and `_enqueue_raw` agree. -/
def handleCommon (c : QuicConnection) (t : Transport) (a : Answers) (ev : RawEvent) :
    QuicConnection × Transport :=
  match ev.evtType with
  | .streamData =>
    ((c.adoptStreamCtx ev.streamId ev.streamCtxPtr).append
      (.streamDataReceived ev.streamId (ev.data.getD []) false), t)
  | .streamFin =>
    ((c.adoptStreamCtx ev.streamId ev.streamCtxPtr).append
      (.streamDataReceived ev.streamId (ev.data.getD []) true), t)
  | .streamReset =>
    ((c.adoptStreamCtx ev.streamId ev.streamCtxPtr).append (.streamReset ev.streamId ev.errorCode),
      t)
  | .stopSending =>
    ((c.adoptStreamCtx ev.streamId ev.streamCtxPtr).append
      (.stopSendingReceived ev.streamId ev.errorCode), t)
  | .close | .appClose => c.handleClose t ev
  | .datagram => (c.append (.datagramFrameReceived (ev.data.getD [])), t)
  | .streamTxDrained =>
    ({ c with streamTxDrainEvents := Function.update c.streamTxDrainEvents ev.streamId (some true) }, t)
  | .datagramTxDrained => (c.handleDatagramDrained a, t)
  | .datagramAcked => ({ c with datagramsAcked := c.datagramsAcked + 1 }, t)
  | .datagramLost => ({ c with datagramsLost := c.datagramsLost + 1 }, t)
  | .streamDestroy => (c.handleStreamDestroy ev, t)
  | _ => (c, t)

/-- `_enqueue_raw`. -/
def enqueueRaw (c : QuicConnection) (t : Transport) (a : Answers) (ev : RawEvent) :
    QuicConnection × Transport :=
  match ev.evtType with
  | .ready =>
    ((c.append (.handshakeCompleted a.alpn a.sessionResumed)).append (.protocolNegotiated a.alpn),
      t)
  | _ => c.handleCommon t a ev

/-- `_handle_raw_event`. -/
def handleRawEvent (c : QuicConnection) (t : Transport) (a : Answers) (ev : RawEvent) :
    QuicConnection × Transport :=
  match ev.evtType with
  | .ready =>
    if ev.cnxPtr = 0 then (c, t)
    else
      (({ c with cnxPtr := ev.cnxPtr, connected := true, created := true }.append
        (.handshakeCompleted a.alpn a.sessionResumed)).append (.protocolNegotiated a.alpn), t)
  | .almostReady =>
    if ev.cnxPtr = 0 then (c, t) else ({ c with cnxPtr := ev.cnxPtr, created := true }, t)
  | _ => c.handleCommon t a ev

end QuicConnection

end Aiopquic
