import Aiopquic.Lib.Steps
import Aiopquic.StreamCb

/-!
# Two stacks on one port (`aiopquic_dispatch_cb`, `_DualRouter`)

The worker gives a server connection to one of two stacks when its ALPN is known, and announces the
choice ahead of the connection's events. The router reads the announcements back from the RX ring
and hands every event to a stack.

Connections are numbered in the order picoquic makes them, and an address may come again once its
connection is freed. The RX ring with its overflow is a list, and a push may be refused for want of
memory. What an `h3` connection queues is any list of the events that its sessions push.
-/

namespace Aiopquic

/-- The number of an event's type (`spsc_event_type_t`). -/
def EventType.code : EventType → ℕ
  | .streamData => 0
  | .streamFin => 1
  | .streamReset => 2
  | .stopSending => 3
  | .close => 4
  | .appClose => 5
  | .ready => 6
  | .almostReady => 7
  | .datagram => 8
  | .datagramAcked => 9
  | .datagramLost => 10
  | .pathAvailable => 11
  | .pathSuspended => 12
  | .pathDeleted => 13
  | .pacingChanged => 14
  | .streamTxDrained => 15
  | .txEventRingDrained => 16
  | .streamDestroy => 17
  | .wtStreamDestroy => 18
  | .datagramTxDrained => 19
  | .cnxStack => 20
  | .cnxSnapshot => 21
  | .wtSessionReady => 64
  | .wtSessionRefused => 65
  | .wtSessionClosed => 66
  | .wtSessionDraining => 67
  | .wtStreamData => 68
  | .wtStreamFin => 69
  | .wtStreamReset => 70
  | .wtStopSending => 71
  | .wtDatagram => 72
  | .wtNewStream => 73
  | .wtStreamCreated => 74
  | .wtNewSession => 75
  | .wtStreamLinkRelease => 76
  | .wtCnxClosed => 77
  | .txClose => 131
  | .txStreamReset => 132
  | .txStopSending => 133
  | .txMarkActive => 134
  | .txConnect => 135
  | .txWtOpen => 136
  | .txWtCreateStream => 137
  | .txWtClose => 138
  | .txWtDrain => 139
  | .txWtResetStream => 140
  | .txWtDeregister => 141
  | .txWtStopSending => 142
  | .txOpenFlowControl => 143
  | .txSetAppFlowControl => 144
  | .txWtSessionCleanup => 145
  | .txMarkDatagramReady => 146
  | .txCnxRefresh => 147
  | .txMarkWtDatagramReady => 148
  | .txSetStreamPriority => 149
  | .txWtSetStreamPriority => 150
  | .txWtFin => 151
  | .txDgramRingRelease => 152
  | .txSetDatagramPriority => 153
  | .txWtSetDatagramPriority => 154
  | .txSetMaxConnections => 155

/-- The stack that owns a connection. -/
inductive Stack
  | raw
  | h3
  deriving DecidableEq, Repr

/-! ## The router -/

/-- `_DualRouter`: its `_is_h3`. -/
structure DualRouter where
  isH3 : ℕ → Option Bool := fun _ => none

/-- `_DualRouter.route_event`, with the stack whose `route_event` it calls. `raises` is whether that
call raises. -/
def DualRouter.routeEvent (r : DualRouter) (ev : RawEvent) (raises : Bool) :
    DualRouter × Option Stack :=
  if ev.cnxPtr = 0 then (r, some .h3)
  else if ev.evtType = .cnxStack then
    (⟨Function.update r.isH3 ev.cnxPtr (some (ev.isFin ≠ 0))⟩, none)
  else
    -- without an announcement, the type alone decides
    let isH3 := (r.isH3 ev.cnxPtr).getD (EventType.wtSessionReady.code ≤ ev.evtType.code)
    (if ev.isClose ∧ ¬ raises then ⟨Function.update r.isH3 ev.cnxPtr none⟩ else r,
      some (if isH3 then .h3 else .raw))

/-! ## The worker -/

/-- The callback that picoquic has for a connection. -/
inductive CnxCallback
  | dispatch
  | wt
  | raw
  deriving DecidableEq, Repr

/-- A connection of the server. `alpn` is `picoquic_tls_get_negotiated_alpn`. -/
structure DualCnx where
  ptr : ℕ
  alpn : Option String := none
  callback : CnxCallback := .dispatch
  /-- `picoquic_close` was called on it. -/
  closed : Bool := false
  freed : Bool := false
  /-- History: its announcement is in the RX ring, or was. -/
  told : Bool := false

/-- What a callback finds outside: whether `h3zero_callback_create_context` has memory, what
`h3zero_protocol_init_safe` and the stack's callback return, which pushes succeed, and what an `h3`
connection queues. -/
structure DispatchAnswers where
  created : Bool := true
  init : ℤ := 0
  ret : ℤ := 0
  announces : Bool := true
  queues : Bool := true
  wt : List RawEvent := []

/-- The worker, the RX ring and the router. An event in the ring is beside its connection's
number. -/
structure DualStack where
  /-- `dual_wt_params` is set. -/
  dualWtParams : Bool
  made : ℕ := 0
  cnx : ℕ → DualCnx := fun _ => { ptr := 0 }
  rx : List (ℕ × RawEvent) := []
  router : DualRouter := {}
  /-- History: what the router took from the ring, and the stacks it called. -/
  routed : List ((ℕ × RawEvent) × Option Stack) := []

namespace DualStack

def setCnx (s : DualStack) (i : ℕ) (c : DualCnx) : DualStack :=
  { s with cnx := Function.update s.cnx i c }

/-- The pushes of connection `i` that succeed. -/
def push (s : DualStack) (i : ℕ) (evs : List RawEvent) : DualStack :=
  { s with rx := s.rx ++ evs.map fun ev => (i, ev) }

/-- `picoquic_set_callback` and `aiopquic_dispatch_announce`. -/
def announce (s : DualStack) (i : ℕ) (stack : Stack) (announces : Bool) : DualStack :=
  let c := s.cnx i
  let callback := match stack with
    | .raw => .raw
    | .h3 => .wt
  (s.setCnx i { c with callback, told := announces }).push i
    (if announces then
      [{ evtType := .cnxStack, cnxPtr := c.ptr, isFin := if stack = .h3 then 1 else 0 }]
    else [])

/-- `aiopquic_stream_cb`, with the event it queues. -/
def rawCb (s : DualStack) (i : ℕ) (cb : Callback) (d : DispatchAnswers) : DualStack × ℤ :=
  (s.push i (if d.queues then (streamCb (s.cnx i).ptr cb).toList else []), d.ret)

/-- `aiopquic_wt_cnx_cb`, with what the connection's sessions queue. -/
def wtCb (s : DualStack) (i : ℕ) (d : DispatchAnswers) : DualStack × ℤ := (s.push i d.wt, d.ret)

/-- `aiopquic_dispatch_cb`. -/
def dispatchCb (s : DualStack) (i : ℕ) (cb : Callback) (d : DispatchAnswers) : DualStack × ℤ :=
  match (s.cnx i).alpn with
  | none => (s, 0)
  | some alpn =>
    if s.dualWtParams ∧ alpn = "h3" then
      if ¬ d.created then (s.setCnx i { s.cnx i with closed := true }, -1)
      else if d.init ≠ 0 then (s.setCnx i { s.cnx i with callback := .wt }, d.init)
      else (s.announce i .h3 d.announces).wtCb i d
    else (s.announce i .raw d.announces).rawCb i cb d

/-- picoquic calls the callback of connection `i`. -/
def call (s : DualStack) (i : ℕ) (cb : Callback) (d : DispatchAnswers) : DualStack × ℤ :=
  match (s.cnx i).callback with
  | .dispatch => s.dispatchCb i cb d
  | .wt => s.wtCb i d
  | .raw => s.rawCb i cb d

/-- The router takes the next event. -/
def route (s : DualStack) (raises : Bool) : DualStack :=
  match s.rx with
  | [] => s
  | e :: rest =>
    { s with
      rx := rest
      router := (s.router.routeEvent e.2 raises).1
      routed := s.routed ++ [(e, (s.router.routeEvent e.2 raises).2)] }

/-- The events of the sessions on the connection at `ptr`; a session that lost it names none. -/
def WtEvent (ptr : ℕ) (ev : RawEvent) : Prop :=
  (ev.cnxPtr = ptr ∨ ev.cnxPtr = 0) ∧
    (EventType.wtSessionReady.code ≤ ev.evtType.code ∨ ev.evtType = .streamTxDrained ∨
      ev.evtType = .datagramTxDrained ∨ ev.evtType = .wtStreamDestroy)

instance (ptr : ℕ) : DecidablePred (WtEvent ptr) := fun _ => inferInstanceAs (Decidable (_ ∧ _))

inductive Act
  | opened (ptr : ℕ)
  | negotiated (i : ℕ) (alpn : String)
  | called (i : ℕ) (cb : Callback) (d : DispatchAnswers)
  /-- Pushes for a session outside a callback. -/
  | pushed (i : ℕ) (evs : List RawEvent)
  | freed (i : ℕ)
  | routed (raises : Bool)

/-- A step. A new connection has an address that no live one has, and picoquic calls back on live
connections. -/
def step (s : DualStack) : Act → Option DualStack
  | .opened ptr =>
    if ptr ≠ 0 ∧ ∀ i < s.made, (s.cnx i).freed = false → (s.cnx i).ptr ≠ ptr then
      some { s.setCnx s.made { ptr } with made := s.made + 1 }
    else none
  | .negotiated i alpn =>
    if i < s.made ∧ (s.cnx i).alpn = none then
      some (s.setCnx i { s.cnx i with alpn := some alpn })
    else none
  | .called i cb d =>
    if (i < s.made ∧ (s.cnx i).freed = false) ∧ ∀ ev ∈ d.wt, WtEvent (s.cnx i).ptr ev then
      some (s.call i cb d).1
    else none
  | .pushed i evs =>
    if (i < s.made ∧ (s.cnx i).callback = .wt) ∧
        ∀ ev ∈ evs, WtEvent (if (s.cnx i).freed then 0 else (s.cnx i).ptr) ev then
      some (s.push i evs)
    else none
  | .freed i =>
    if i < s.made then some (s.setCnx i { s.cnx i with freed := true }) else none
  | .routed raises => some (s.route raises)

end DualStack

end Aiopquic
