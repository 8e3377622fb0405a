import Aiopquic.Lib.Counted
import Aiopquic.TxCommands

/-!
# References to stream contexts

A stream context counts the references to it (`stream_ctx.h`). Its first one is the stream's own,
which `STREAM_DESTROY` hands to the drain batch, or which the connection gives up on a close or
`stop()`. Queued events and commands, `StreamChunk`s, credit notes of a drain, held resets and the
drain batch hold the others (`callback.h`, `_transport.pyx`, `quic/connection.py`).

The contexts made are numbered from `1`, and `0` is `NULL`. The two threads move by turns: a step is
one callback, one command, one drained entry, one routed event or one call of the application.
picoquic is a list of connections with the context attached to each stream. Of it we rely on this: a
released stream gets no further callback and takes no context, a connection's close is reported once
it is closing, and a closing connection sends no stream data.
-/

namespace Aiopquic

open Counted

/-- `aiopquic_rx_event_owns_sc`. -/
def rxEventOwnsSc (t : EventType) : Bool :=
  t = .streamData ∨ t = .streamFin ∨ t = .streamReset ∨ t = .stopSending

/-- `aiopquic_tx_event_owns_sc`. -/
def txEventOwnsSc (t : EventType) : Bool :=
  t = .txStreamReset ∨ t = .txStopSending ∨ t = .txMarkActive ∨ t = .txOpenFlowControl

/-- The context that a queued RX event holds a reference to. -/
def RawEvent.ref (ev : RawEvent) : Option ℕ :=
  if ev.streamCtxPtr ≠ 0 ∧ rxEventOwnsSc ev.evtType then some ev.streamCtxPtr else none

/-- The context that a queued TX command holds a reference to. -/
def Entry.ref (e : Entry) : Option ℕ :=
  if e.streamCtx ≠ 0 ∧ txEventOwnsSc e.eventType then some e.streamCtx else none

/-- A connection in picoquic's list: `closing` is `aiopquic_cnx_closing`, `attached` the context of
each stream and `released` whether picoquic is done with the stream. -/
structure ScCnx where
  closing : Bool := false
  attached : ℕ → ℕ := fun _ => 0
  released : ℕ → Bool := fun _ => false

namespace ScCnx

/-- picoquic takes a context for a stream. -/
def attach (c : ScCnx) (streamId sc : ℕ) : ScCnx :=
  { c with attached := Function.update c.attached streamId sc }

/-- What a call leaves attached. A reset and a stop-sending detach the context; `accepts` is false
when picoquic does not know the stream. -/
def call (accepts : Bool) (c : ScCnx) : Call → ScCnx
  | .markActiveStream streamId sc => if accepts ∧ c.released streamId = false
    then c.attach streamId sc else c
  | .setAppStreamCtx streamId sc => if accepts ∧ c.released streamId = false
    then c.attach streamId sc else c
  | .resetStream streamId _ => c.attach streamId 0
  | .stopSending streamId _ => c.attach streamId 0
  | _ => c

/-- The callbacks that picoquic may make. -/
def Calls (c : ScCnx) (cb : Callback) : Prop :=
  (cb.onStream ∨ cb.event = .prepareToSend → c.released cb.streamId = false) ∧
    (cb.event = .prepareToSend → c.closing = false) ∧ (cb.closes → c.closing = true)

instance (c : ScCnx) (cb : Callback) : Decidable (c.Calls cb) := inferInstanceAs (Decidable (_ ∧ _))

end ScCnx

/-- `_get_or_create_stream_ctx` on a connection that is not closed, with the context it would
make. -/
def QuicConnection.getOrCreateStreamCtx (c : QuicConnection) (streamId fresh : ℕ) :
    QuicConnection :=
  if c.streamCtxs streamId = none then
    { c with
      streamCtxs := Function.update c.streamCtxs streamId (some fresh)
      scOwned := insert fresh c.scOwned }
  else c

/-- The Python connection that the events of an address go to: a server's has the address, a client
has one. -/
def Role.key (role : Role) (cnx : ℕ) : ℕ :=
  match role with
  | .server => cnx
  | .client => 0

/-- How `tx_send_atomic` ends: a ring was full, the event ring's before the context is looked at, or
the bytes were committed. -/
inductive SendAnswer
  | eventRingFull
  | streamRingFull
  | committed
  deriving DecidableEq, Repr

/-- Whether the transport runs, was stopped, or is gone. -/
inductive TransportPhase
  | running
  | stopped
  | gone
  deriving DecidableEq, Repr

/-- The holders of references. A client's `QuicConnection` is connection `0` of `engine`, whose
tables it does not use. `events` are the drained events not routed yet and `notes` the credit pushes
that the drain owes, as the commands they are. -/
structure ScHolders where
  role : Role := .server
  phase : TransportPhase := .running
  txCap : ℕ := 1
  made : ℕ := 0
  /-- History: the contexts whose stream reference was not given up. -/
  lifetime : Finset ℕ := ∅
  /-- History: the Python connection and the stream that a context was made for. -/
  home : ℕ → ℕ × ℕ := fun _ => (0, 0)
  live : List ℕ := []
  cnxs : ℕ → ScCnx := fun _ => {}
  rx : List RawEvent := []
  tx : List Entry := []
  deferred : List Entry := []
  engine : QuicEngine := {}
  events : List RawEvent := []
  batch : List ℕ := []
  notes : List Entry := []
  chunks : List ℕ := []

namespace ScHolders

/-- Connection `i` exists and has a transport to push to: a client's lets go of it in `stop()`, the
engine's connections keep theirs. -/
def Pushes (s : ScHolders) (i : ℕ) : Prop :=
  i < s.engine.made ∧ (s.phase = .running ∨ s.phase = .stopped ∧ s.role = .server)

instance (s : ScHolders) (i : ℕ) : Decidable (s.Pushes i) := inferInstanceAs (Decidable (_ ∧ _))

/-- The first component of the homes of connection `i`'s contexts. -/
def keyOf (s : ScHolders) (i : ℕ) : ℕ := s.role.key (s.engine.conns i).cnxPtr

/-- The context that connection `i` has for a stream, `0` for none. -/
def ctxOf (s : ScHolders) (i streamId : ℕ) : ℕ := ((s.engine.conns i).streamCtxs streamId).getD 0

/-- A command of connection `i` for a stream, with the stream's context. -/
def command (s : ScHolders) (i : ℕ) (t : EventType) (streamId : ℕ) : Entry :=
  { eventType := t, streamId := streamId, cnx := (s.engine.conns i).cnxPtr, streamCtx := s.ctxOf i streamId }

/-- The references held to a context: the stream's own, and those of queued events, queued commands,
chunks, notes, held resets and the batch. -/
def holders (s : ScHolders) (sc : ℕ) : ℕ :=
  (if sc ∈ s.lifetime then 1 else 0) + (s.rx.filterMap RawEvent.ref).count sc +
    (s.tx.filterMap Entry.ref).count sc + s.chunks.count sc + (s.notes.map (·.streamCtx)).count sc +
    (s.deferred.map (·.streamCtx)).count sc + s.batch.count sc

end ScHolders

/-- The holders, and the contexts with their counts. -/
structure ScRefs extends ScHolders where
  refs : ℕ → Counted := fun _ => {}

namespace ScRefs

/-- The values of `refcount`, a `uint32_t`. -/
def word : ℕ := 2 ^ 32

/-- A server with its engine, or a client with its connection, before any connection of picoquic. -/
def init (role : Role) (txCap : ℕ) : ScRefs :=
  match role with
  | .server => { role := .server, txCap := txCap }
  | .client => { role := .client, txCap := txCap, engine := { conns := fun _ => .client, made := 1 } }

/-! ## Counts -/

/-- `aiopquic_stream_ctx_ref`. -/
def take (s : ScRefs) (sc : Option ℕ) : ScRefs :=
  match sc with
  | none => s
  | some sc => { s with refs := takeAt word s.refs sc }

/-- `aiopquic_stream_ctx_destroy`. -/
def drop (s : ScRefs) (sc : Option ℕ) : ScRefs :=
  match sc with
  | none => s
  | some sc => { s with refs := dropAt word s.refs sc }

/-- A field of the context is read or written. -/
def touch (s : ScRefs) (sc : Option ℕ) : ScRefs :=
  match sc with
  | none => s
  | some sc => { s with refs := touchAt s.refs sc }

/-- `aiopquic_stream_ctx_create`. -/
def create (s : ScRefs) (home : ℕ × ℕ) : ScRefs :=
  { s with
    refs := Function.update s.refs (s.made + 1) Counted.make
    made := s.made + 1
    lifetime := insert (s.made + 1) s.lifetime
    home := Function.update s.home (s.made + 1) home }

/-- Stream references are given up. -/
def giveUp (s : ScRefs) (scs : Finset ℕ) : ScRefs :=
  { s with refs := dropSet word s.refs scs, lifetime := s.lifetime \ scs }

/-- `aiopquic_rx_push_sc`, which never refuses an event. -/
def rxPush (s : ScRefs) (ev : RawEvent) : ScRefs :=
  let t := s.take ev.ref
  { t with rx := t.rx ++ [ev] }

/-- `aiopquic_tx_push_sc`. -/
def txPush (s : ScRefs) (e : Entry) : ScRefs :=
  let t := s.take e.ref
  if t.tx.length < t.txCap then { t with tx := t.tx ++ [e] } else t.drop e.ref

/-! ## The worker -/

/-- The connection at an address after some calls. -/
def calls (s : ScRefs) (accepts : Bool) (cnx : ℕ) (l : List Call) : ScRefs :=
  { s with cnxs := Function.update s.cnxs cnx (l.foldl (ScCnx.call accepts) (s.cnxs cnx)) }

/-- `aiopquic_deferred_resets_drop_cnx`. -/
def dropDeferred (s : ScRefs) (cnx : ℕ) : ScRefs :=
  { s with
    refs := dropAll word s.refs ((s.deferred.filter (·.cnx = cnx)).map (·.streamCtx))
    deferred := s.deferred.filter (·.cnx ≠ cnx) }

/-- The context that a callback works on, `0` for none: the stream's, or one made for its first
bytes. -/
def callbackCtx (s : ScRefs) (cnx : ℕ) (cb : Callback) : ScRefs × ℕ :=
  let c := s.cnxs cnx
  if (cb.onStream ∨ cb.event = .prepareToSend) ∧ c.closing = false then
    if cb.hasPayload ∧ c.attached cb.streamId = 0 then
      let t := s.create (s.role.key cnx, cb.streamId)
      ({ t with cnxs := Function.update t.cnxs cnx (c.attach cb.streamId t.made) }, t.made)
    else (s, c.attached cb.streamId)
  else (s, 0)

/-- The event of a callback is queued. -/
def notify (s : ScRefs) (cnx : ℕ) (cb : Callback) : ScRefs :=
  match streamCb cnx cb with
  | none => s
  | some ev => s.rxPush ev

/-- picoquic is done with a stream. -/
def retire (s : ScRefs) (cnx streamId : ℕ) : ScRefs :=
  let c := s.cnxs cnx
  { s with
    cnxs := Function.update s.cnxs cnx
      { c.attach streamId 0 with released := Function.update c.released streamId true } }

/-- `aiopquic_stream_cb`. -/
def callback (s : ScRefs) (cnx : ℕ) (cb : Callback) : Option ScRefs :=
  if s.phase = .running ∧ cnx ∈ s.live ∧ (s.cnxs cnx).Calls cb then
    let (t, sc) := s.callbackCtx cnx cb
    let t := t.touch (if sc = 0 then none else some sc)
    let t := t.notify cnx { cb with closing := (s.cnxs cnx).closing, streamCtx := sc }
    let t := if cb.event = .streamReleased then t.retire cnx cb.streamId else t
    some (if cb.closes ∨ cb.event = .statelessReset then t.dropDeferred cnx else t)
  else none

/-- A command behind the stale-cnx guard. -/
def handle (s : ScRefs) (v : CnxView) (accepts : Bool) (e : Entry) : ScRefs :=
  if e.cnx ∈ s.live then
    let v := { v with closing := (s.cnxs e.cnx).closing }
    let t := (s.touch (if e.eventType = .txStreamReset ∨ e.eventType = .txOpenFlowControl then e.ref
      else none)).calls
      accepts e.cnx (loopCalls v e)
    if Defers v e then { t.take (some e.streamCtx) with deferred := t.deferred ++ [e] } else t
  else s

/-- The worker pops one command. -/
def pop (s : ScRefs) (v : CnxView) (accepts : Bool) : Option ScRefs :=
  match s.tx with
  | [] => none
  | e :: tx =>
    if s.phase = .running then some (({ s with tx := tx }.handle v accepts e).drop e.ref) else none

/-- `aiopquic_run_deferred_resets` sends or forgets the `k`-th held reset. -/
def afterSend (s : ScRefs) (k : ℕ) (v : CnxView) (accepts : Bool) : Option ScRefs :=
  match s.deferred[k]? with
  | none => none
  | some e =>
    if s.phase = .running then
      let t := { s.touch (some e.streamCtx) with deferred := s.deferred.eraseIdx k }
      let t := if e.cnx ∈ s.live ∧ (s.cnxs e.cnx).closing = false then
        t.calls accepts e.cnx (resetCalls { v with closing := false } e) else t
      some (t.drop (some e.streamCtx))
    else none

/-! ## Drains -/

/-- `StreamChunk._wrap` and `_pending_fc_add` for the bytes popped from a stream's ring. -/
def wrap (s : ScRefs) (ev : RawEvent) : ScRefs :=
  let sc := ev.streamCtxPtr
  let t := s.take (some sc)
  let t := { t with chunks := t.chunks ++ [sc] }
  if sc ∈ t.notes.map (·.streamCtx) then t
  else
    let t := t.take (some sc)
    { t with
      notes := t.notes ++
        [{ eventType := .txOpenFlowControl, streamId := ev.streamId, cnx := ev.cnxPtr, streamCtx := sc }] }

/-- `drain_rx` for one entry; `popped` says whether the stream's ring had bytes. A data event that
finds none is not delivered. -/
def drainEntry (s : ScRefs) (popped : Bool) : Option ScRefs :=
  match s.rx with
  | [] => none
  | ev :: rx =>
    let s := { s with rx := rx }
    if s.phase ≠ .running then none
    else if ev.evtType = .streamDestroy then
      some
        { s with
          events := s.events ++ [ev]
          batch := s.batch ++ if ev.streamCtxPtr ≠ 0 then [ev.streamCtxPtr] else []
          lifetime := s.lifetime.erase ev.streamCtxPtr }
    else
      let reads := (ev.evtType = .streamData ∨ ev.evtType = .streamFin) ∧ ev.streamCtxPtr ≠ 0
      let t := if reads then s.touch (some ev.streamCtxPtr) else s
      let t := if reads ∧ popped then t.wrap ev else t
      if ev.evtType = .streamData ∧ ¬ (reads ∧ popped) then some (t.drop ev.ref)
      else some { t with events := t.events ++ [ev], batch := t.batch ++ ev.ref.toList }

/-- `release_batch`; also the start of the next `drain_rx`. -/
def releaseBatch (s : ScRefs) : ScRefs :=
  { s with refs := dropAll word s.refs s.batch, batch := [] }

/-- The transport that a handler starts with: nothing given up by it yet. -/
def handlerTransport (s : ScRefs) : Transport := { s.engine.transport with scDestroyed := ∅ }

/-- `route_event` of the engine. -/
def routeServer (s : ScRefs) (ev : RawEvent) (raises : Bool) (answers : Answers) : ScRefs :=
  let g := ({ s.engine with transport := s.handlerTransport }.routeEvent ⟨ev, raises, answers⟩).1
  { s with engine := g }.giveUp g.transport.scDestroyed

/-- `_handle_raw_event` of a client's connection. -/
def routeClient (s : ScRefs) (ev : RawEvent) (answers : Answers) : ScRefs :=
  let (c, t) := (s.engine.conns 0).handleRawEvent s.handlerTransport answers ev
  { s with engine := { s.engine with conns := Function.update s.engine.conns 0 c, transport := t } }.giveUp
    t.scDestroyed

/-- The next drained event is handled. -/
def route (s : ScRefs) (raises : Bool) (answers : Answers) : Option ScRefs :=
  match s.events with
  | [] => none
  | ev :: events =>
    let t := { s with events := events }
    if s.phase ≠ .running then none
    else
      match s.role with
      | .server => some (t.routeServer ev raises answers)
      | .client => some (t.routeClient ev answers)

/-- `drain_rx_callback` for one entry: the handler runs before the references of the entry are given
back. -/
def drainCallback (s : ScRefs) (popped : Bool) (answers : Answers) : Option ScRefs :=
  match s.drainEntry popped with
  | none => none
  | some t =>
    match t.route false answers with
    | none => some t
    | some t => some t.releaseBatch

/-- `_flush_pending_fc` for one note; `pushes` says whether enough was consumed for a push. -/
def flush (s : ScRefs) (pushes : Bool) : Option ScRefs :=
  match s.notes with
  | [] => none
  | e :: notes =>
    if s.phase = .running then
      let t := (s.touch (some e.streamCtx))
      let t := if pushes then t.txPush e else t
      some ({ t with notes := notes }.drop (some e.streamCtx))
    else none

/-- `StreamChunk.__dealloc__`. -/
def dropChunk (s : ScRefs) (k : ℕ) : Option ScRefs :=
  match s.chunks[k]? with
  | none => none
  | some sc => some ({ s with chunks := s.chunks.eraseIdx k }.drop (some sc))

/-! ## The application -/

/-- `_get_or_create_stream_ctx`. -/
def getOrCreate (s : ScRefs) (i streamId : ℕ) : ScRefs :=
  let t := if (s.engine.conns i).streamCtxs streamId = none then s.create (s.keyOf i, streamId)
    else s
  let c := (s.engine.conns i).getOrCreateStreamCtx streamId (s.made + 1)
  { t with engine := { s.engine with conns := Function.update s.engine.conns i c } }

/-- `send_stream_data`. -/
def send (s : ScRefs) (i streamId : ℕ) (answer : SendAnswer) : Option ScRefs :=
  if s.Pushes i ∧ (s.engine.conns i).closed = false then
    let t := s.getOrCreate i streamId
    let e := t.command i .txMarkActive streamId
    match answer with
    | .eventRingFull => some t
    | .streamRingFull => some (t.touch e.ref)
    | .committed => some ((t.touch e.ref).txPush e)
  else none

/-- `reset_stream` and `stop_stream`. -/
def request (s : ScRefs) (i : ℕ) (t : EventType) (streamId : ℕ) : Option ScRefs :=
  if s.Pushes i then some (s.txPush (s.command i t streamId)) else none

/-- `QuicConnection.close`. -/
def close (s : ScRefs) (i : ℕ) : Option ScRefs :=
  let c := s.engine.conns i
  if s.Pushes i ∧ c.closed = false ∧ s.tx.length < s.txCap then
    some
      { s with
        engine := { s.engine with conns := Function.update s.engine.conns i { c with closed := true } }
        tx := s.tx ++ [{ eventType := .txClose, cnx := c.cnxPtr }] }
  else none

/-- Any other command, which references no context. -/
def other (s : ScRefs) (e : Entry) : Option ScRefs :=
  if e.ref = none ∧ s.phase ≠ .gone ∧ s.tx.length < s.txCap then some { s with tx := s.tx ++ [e] }
    else none

/-! ## Teardown -/

/-- `aiopquic_tx_sc_release_undrained` clears the contexts of the entries it swept. -/
def swept (e : Entry) : Entry := if txEventOwnsSc e.eventType then { e with streamCtx := 0 } else e

/-- `_shutdown`: the TX ring is swept, the batch released, and picoquic freed, which closes every
connection in its list. -/
def shutdown (s : ScRefs) : ScRefs :=
  let s := { s with refs := dropAll word s.refs (s.tx.filterMap Entry.ref), tx := s.tx.map swept }
  let s := s.releaseBatch
  { s with
    phase := .stopped
    refs := dropAll word s.refs ((s.deferred.filter (·.cnx ∈ s.live)).map (·.streamCtx))
    deferred := s.deferred.filter (·.cnx ∉ s.live)
    rx := s.rx ++ s.live.map fun cnx => { evtType := .close, cnxPtr := cnx }
    live := [] }

/-- The rest of `QuicEngine.close`: the connections in the table release their datagram rings, and
the tables are cleared. -/
def closeServer (s : ScRefs) : ScRefs :=
  let g := s.engine
  let conns := fun i =>
    if g.connections (g.conns i).cnxPtr = some i then { g.conns i with dgramRing := 0 }
      else g.conns i
  { s with engine := { g with conns := conns, connections := fun _ => none, protocols := fun _ => none } }

/-- The rest of a client's `stop()`. -/
def closeClient (s : ScRefs) : ScRefs :=
  let (c, t) := { s.engine.conns 0 with closed := true }.destroyStreamCtxs s.handlerTransport
  { s with engine := { s.engine with conns := Function.update s.engine.conns 0 c, transport := t } }.giveUp
    t.scDestroyed

/-- `QuicEngine.close` of a server, `QuicConnection.stop` of a client. -/
def stop (s : ScRefs) : Option ScRefs :=
  if s.phase = .running then
    match s.role with
    | .server => some s.shutdown.closeServer
    | .client => some s.shutdown.closeClient
  else none

/-- `TransportContext.__dealloc__`. -/
def dealloc (s : ScRefs) : Option ScRefs :=
  if s.phase = .gone then none
  else
    let t := s.shutdown
    some
      { t with
        phase := .gone
        refs := dropAll word t.refs (t.rx.filterMap RawEvent.ref ++ t.deferred.map (·.streamCtx))
        rx := []
        deferred := [] }

/-! ## Steps -/

inductive Act
  /-- picoquic makes a connection. -/
  | connect (cnx : ℕ)
  /-- A connection starts to close. -/
  | disconnect (cnx : ℕ)
  /-- picoquic frees a connection. -/
  | free (cnx : ℕ)
  | callback (cnx : ℕ) (cb : Callback)
  | pop (v : CnxView) (accepts : Bool)
  | afterSend (k : ℕ) (v : CnxView) (accepts : Bool)
  | drainEntry (popped : Bool)
  | route (raises : Bool) (answers : Answers)
  | releaseBatch
  | drainCallback (popped : Bool) (answers : Answers)
  | flush (pushes : Bool)
  | dropChunk (k : ℕ)
  | send (i streamId : ℕ) (answer : SendAnswer)
  | reset (i streamId : ℕ)
  | stopStream (i streamId : ℕ)
  | close (i : ℕ)
  | other (e : Entry)
  | stop
  | dealloc

/-- One step. A server drains into a batch and routes it, a client handles each entry as it drains
it. A client has one connection at a time. -/
def step (s : ScRefs) : Act → Option ScRefs
  | .connect cnx =>
    if s.phase = .running ∧ cnx ≠ 0 ∧ cnx ∉ s.live ∧ (s.role = .client → s.live = []) then
      some { s with live := cnx :: s.live, cnxs := Function.update s.cnxs cnx {} }
    else none
  | .disconnect cnx =>
    if cnx ∈ s.live then
      some { s with cnxs := Function.update s.cnxs cnx { s.cnxs cnx with closing := true } }
    else none
  | .free cnx => if cnx ∈ s.live then some { s with live := s.live.filter (· ≠ cnx) } else none
  | .callback cnx cb => s.callback cnx cb
  | .pop v accepts => s.pop v accepts
  | .afterSend k v accepts => s.afterSend k v accepts
  | .drainEntry popped => if s.role = .server then s.drainEntry popped else none
  | .route raises answers => if s.role = .server then s.route raises answers else none
  | .releaseBatch => if s.phase = .running then some s.releaseBatch else none
  | .drainCallback popped answers => if s.role = .client then s.drainCallback popped answers
      else none
  | .flush pushes => s.flush pushes
  | .dropChunk k => s.dropChunk k
  | .send i streamId answer => s.send i streamId answer
  | .reset i streamId => s.request i .txStreamReset streamId
  | .stopStream i streamId => s.request i .txStopSending streamId
  | .close i => s.close i
  | .other e => s.other e
  | .stop => s.stop
  | .dealloc => s.dealloc

/-! ## Conservation -/

/-- Every context made counts its holders, was freed once if it has none and not at all otherwise,
and was never used after that. -/
def Conserved (s : ScRefs) : Prop :=
  ∀ sc ≤ s.made, 0 < sc → (s.refs sc).count = s.holders sc ∧
    (s.refs sc).frees = (if s.holders sc = 0 then 1 else 0) ∧ (s.refs sc).stale = false

instance (s : ScRefs) : Decidable s.Conserved := inferInstanceAs (Decidable (∀ sc ≤ _, _))

end ScRefs

/-- Whether an event names a context that its handler takes over or lets go. -/
def RawEvent.Carries (ev : RawEvent) : Prop :=
  ev.streamCtxPtr ≠ 0 ∧ (rxEventOwnsSc ev.evtType ∨ ev.evtType = .streamDestroy)

instance (ev : RawEvent) : Decidable ev.Carries := inferInstanceAs (Decidable (_ ∧ _))

/-- Whether the worker may hand the context of a command to picoquic. -/
def Entry.Attaches (e : Entry) : Prop :=
  e.streamCtx ≠ 0 ∧ (e.eventType = .txStreamReset ∨ e.eventType = .txStopSending ∨ e.eventType =
    .txMarkActive)

instance (e : Entry) : Decidable e.Attaches := inferInstanceAs (Decidable (_ ∧ _))

namespace ScRefs

/-- Nothing is left of an earlier connection at an address that could hand its contexts to a new
one: no event that names a context or a close is queued or not yet routed, and no command with a
context is queued or held back. -/
def Forgotten (s : ScRefs) (cnx : ℕ) : Prop :=
  (∀ ev ∈ s.events ++ s.rx, ev.Carries ∨ ev.isClose → s.role.key ev.cnxPtr ≠ s.role.key cnx) ∧
    (∀ e ∈ s.tx, e.Attaches → e.cnx ≠ cnx) ∧ ∀ e ∈ s.deferred, e.cnx ≠ cnx

instance (s : ScRefs) (cnx : ℕ) : Decidable (s.Forgotten cnx) := inferInstanceAs (Decidable (_ ∧ _))

/-- Two more references to any context fit in its count. -/
def Room (s : ScRefs) : Prop := ∀ sc ≤ s.made, s.holders sc + 2 < word

instance (s : ScRefs) : Decidable s.Room := inferInstanceAs (Decidable (∀ sc ≤ _, _))

/-- The steps that keep the references: picoquic makes a connection only at a forgotten address, and
a batch is released, by `stop()` too, only when all its events have been routed. -/
def Ok (s : ScRefs) (act : Act) : Prop :=
  s.Room ∧
    match act with
    | .connect cnx => s.Forgotten cnx
    | .releaseBatch => s.events = []
    | .stop => s.events = []
    | _ => True

instance (s : ScRefs) : ∀ act, Decidable (s.Ok act)
  | .connect _ => inferInstanceAs (Decidable (_ ∧ _))
  | .releaseBatch => inferInstanceAs (Decidable (_ ∧ _))
  | .stop => inferInstanceAs (Decidable (_ ∧ _))
  | .disconnect _ | .free _ | .callback _ _ | .pop _ _ | .afterSend _ _ _ | .drainEntry
    _ | .route _ _
  | .drainCallback _ _ | .flush _ | .dropChunk _ | .send _ _ _ | .reset _ _ | .stopStream _
    _ | .close _
  | .other _ | .dealloc => inferInstanceAs (Decidable (_ ∧ True))

end ScRefs

end Aiopquic
