import Aiopquic.PeerStreams

/-!
# The stream contexts that a WebTransport session borrows

Each stream of a session has a link, and the link owns the stream's context. Events carry the
context's address to Python, which keeps it in `_stream_tx_ctxs`. Neither takes a reference. What
keeps the address valid is an order: the worker never frees a link itself, but sends it to asyncio
with a `LINK_RELEASE`, behind all events that name the context. When h3zero frees the stream, a
`WT_STREAM_DESTROY` goes ahead of the release, and the session forgets the address. When the session
cleans up, nothing goes ahead: by then it has forgotten all of them, and takes in no new ones.

The model is one session, with its streams, its link structs, the RX ring, the batch that asyncio is
routing and the TX commands. Pushes to the RX ring succeed. Nothing reaches the session struct once
it is freed.
-/

namespace Aiopquic

/-- `aiopquic_wt_stream_link_t`, at the address `addr`. -/
structure WtLink where
  addr : ℕ
  sid : ℕ
  sc : ℕ
  deriving DecidableEq, Repr

/-- What the RX ring has of a session: events for Python, and `LINK_RELEASE`s. -/
inductive RxItem
  | event (e : SessionTuple)
  | release (link : ℕ)
  deriving DecidableEq, Repr

namespace RxItem

def event? : RxItem → Option SessionTuple
  | event e => some e
  | release _ => none

def release? : RxItem → Option ℕ
  | event _ => none
  | release k => some k

end RxItem

/-- How `TX_WT_CREATE_STREAM` ends: without a stream, without a link, or with both. -/
inductive CreateOutcome
  | failed
  | unlinked (sid : ℕ)
  | linked (l : WtLink)
  deriving DecidableEq, Repr

structure WtContexts where
  session : WebTransportSession := {}
  /-- Python has no session object any more. -/
  gone : Bool := false
  /-- The worker has freed the session struct. -/
  freed : Bool := false
  /-- `s->cnx` and `s->h3_ctx` are set. -/
  cnx : Bool := true
  /-- The stream ids that were used. -/
  used : ℕ → Bool := fun _ => false
  /-- The streams in h3zero's tree whose callback is the session's. -/
  tree : List ℕ := []
  /-- The links in `path_callback_ctx`, and those in memory. -/
  link : ℕ → Option ℕ := fun _ => none
  links : List WtLink := []
  rx : List RxItem := []
  /-- What asyncio has drained and not routed yet, and the links of its batch. -/
  batch : List SessionTuple := []
  held : List ℕ := []

namespace WtContexts

variable {s t : WtContexts}

/-! ## The worker -/

def push (s : WtContexts) (e : SessionTuple) : WtContexts := { s with rx := s.rx ++ [.event e] }

/-- `aiopquic_wt_push_link_release`. -/
def pushLinkRelease (s : WtContexts) (k : ℕ) : WtContexts := { s with rx := s.rx ++ [.release k] }

/-- A link can be allocated: its address and its context's are not in use. -/
def Fresh (s : WtContexts) (l : WtLink) : Prop :=
  l.sc ≠ 0 ∧ ∀ l' ∈ s.links, l'.addr ≠ l.addr ∧ l'.sc ≠ l.sc

instance (l : WtLink) : Decidable (s.Fresh l) := inferInstanceAs (Decidable (_ ∧ _))

/-- A stream gets a link. -/
def addLink (s : WtContexts) (l : WtLink) : WtContexts :=
  { s with
    link := Function.update s.link l.sid (some l.addr)
    links := l :: s.links }

/-- The context of a stream's link. -/
def scOf (s : WtContexts) (sid : ℕ) : ℕ :=
  ((s.link sid).bind fun k => (s.links.find? (·.addr = k)).map (·.sc)).getD 0

/-- `aiopquic_wt_ensure_link`, for data that the ring takes or not; `l` is the link it allocates. A
first touch announces the stream, unless the callback fails before. -/
def ensureLink (s : WtContexts) (l : WtLink) (ok : Bool) : WtContexts :=
  match s.link l.sid with
  | some _ => s
  | none =>
    let s := s.addLink l
    if ok then s.push { evtType := .wtNewStream, sid := l.sid, scPtr := l.sc } else s

/-- `picohttp_callback_free`: the end of the stream, and behind it the link. -/
def free (s : WtContexts) (sid : ℕ) : WtContexts :=
  let s := { s with tree := s.tree.erase sid }
  match s.link sid with
  | none => s
  | some k =>
    ({ s with link := Function.update s.link sid none }.push
      { evtType := .wtStreamDestroy, sid }).pushLinkRelease k

/-- `aiopquic_wt_path_callback` on a data stream. `ok` is whether `sc->rx` can be made and takes the
bytes. -/
def pathCallback (s : WtContexts) (l : WtLink) (ok : Bool) : PathCallback → WtContexts
  | .postData bytes merged =>
    let s := s.ensureLink l ok
    if ok = false ∨ merged then s
    else s.push
      { evtType := .wtStreamData, sid := l.sid, data := some bytes, scPtr := s.scOf l.sid }
  | .postFin bytes =>
    let s := s.ensureLink l ok
    if ok = false then s
    else s.push
      { evtType := .wtStreamFin, sid := l.sid, data := some bytes, isFin := 1,
        scPtr := s.scOf l.sid }
  | .reset errorCode => s.push { evtType := .wtStreamReset, sid := l.sid, errorCode }
  | .stopSending errorCode => s.push { evtType := .wtStopSending, sid := l.sid, errorCode }
  | .free => s.free l.sid

/-- One node of the walks of `TX_WT_SESSION_CLEANUP` and `TX_WT_DEREGISTER`: a stream with a link
loses its callback, and the link goes to asyncio. -/
def detach (s : WtContexts) (sid : ℕ) : WtContexts :=
  match s.link sid with
  | none => s
  | some k =>
    { s with
      tree := s.tree.erase sid
      link := Function.update s.link sid none }.pushLinkRelease k

/-- The walk over h3zero's tree. -/
def walk (s : WtContexts) : WtContexts := s.tree.foldl detach s

/-- `TX_WT_CREATE_STREAM`. -/
def createStream (s : WtContexts) (outcome : CreateOutcome) : WtContexts :=
  if s.cnx = false then s.push { evtType := .wtStreamCreated, errorCode := 1 }
  else
    match outcome with
    | .failed => s.push { evtType := .wtStreamCreated, errorCode := 1 }
    | .unlinked sid =>
      { s with used := Function.update s.used sid true }.push
        { evtType := .wtStreamCreated, sid, errorCode := 2 }
    | .linked l =>
      ({ s with
        used := Function.update s.used l.sid true
        tree := s.tree ++ [l.sid] }.addLink l).push
          { evtType := .wtStreamCreated, sid := l.sid, scPtr := l.sc }

/-- What the worker makes is new. -/
def Makes (s : WtContexts) : CreateOutcome → Prop
  | .failed => True
  | .unlinked sid => s.used sid = false
  | .linked l => s.used l.sid = false ∧ s.Fresh l

instance : ∀ outcome, Decidable (s.Makes outcome)
  | .failed => .isTrue trivial
  | .unlinked _ => inferInstanceAs (Decidable (_ = _))
  | .linked _ => inferInstanceAs (Decidable (_ ∧ _))

/-- The worker handles the next command of the session. -/
def handleTx (s : WtContexts) (outcome : CreateOutcome) : Option WtContexts :=
  match s.session.tx with
  | [] => none
  | c :: rest =>
    let s := { s with session := { s.session with tx := rest } }
    match c with
    | .createStream _ => if s.Makes outcome then some (s.createStream outcome) else none
    | .sessionCleanup => some (if s.cnx then s.walk else s)
    | .deregister => some { (if s.cnx then s.walk else s) with freed := true, tree := [] }
    | _ => some s

/-- The connection is retired: the deregister callback of the session, and the streams' ends. -/
def retire (s : WtContexts) (closed : Option SessionTuple) : WtContexts :=
  let s := (closed.elim s s.push)
  s.tree.foldl free { s with cnx := false }

/-! ## Asyncio -/

/-- `aiopquic_wt_stream_link_destroy` of each link; it must be there. -/
def destroyLinks : List ℕ → List WtLink → Option (List WtLink)
  | [], links => some links
  | k :: held, links =>
    if k ∈ links.map (·.addr) then destroyLinks held (links.filter (·.addr ≠ k)) else none

/-- `_release_batch_refs`. -/
def releaseBatchRefs (s : WtContexts) : Option WtContexts :=
  (destroyLinks s.held s.links).map fun links => { s with links := links, held := [] }

/-- `drain_rx` takes `n` items of the session off the ring. -/
def drainRx (s : WtContexts) (n : ℕ) : Option WtContexts :=
  s.releaseBatchRefs.map fun s =>
    { s with
      rx := s.rx.drop n
      batch := (s.rx.take n).filterMap RxItem.event?
      held := (s.rx.take n).filterMap RxItem.release? }

/-- The next event of the batch goes to the session, if the dispatcher has it. -/
def route (s : WtContexts) (room : SessionCommand → Bool) : Option WtContexts :=
  match s.batch with
  | [] => none
  | e :: rest =>
    some { s with
      session := if s.gone = false ∧ s.session.attached then s.session.onEvent room e else s.session
      batch := rest }

/-- `create_stream` submits a request. -/
def submit (s : WebTransportSession) (call : ℕ) (bidir : Bool) : WebTransportSession :=
  { s with
    tx := s.tx ++ [.createStream bidir]
    pendingCreates := s.pendingCreates ++ [call]
    futures := Function.update s.futures call .pending }

/-- A `_retry_push` task ends. -/
def retryPush (s : WtContexts) (k : ℕ) (pushed : Bool) : Option WtContexts :=
  (s.session.retries[k]?).map fun c =>
    { s with session := { s.session with
        retries := s.session.retries.eraseIdx k
        tx := if pushed then s.session.tx ++ [c] else s.session.tx } }

/-- `WebTransportSessionState.__dealloc__`. The tasks that retry hold the object. -/
def dealloc (s : WtContexts) (pushed : Bool) : WtContexts :=
  { s with
    gone := true
    session := { s.session with
      tx := if pushed then s.session.tx ++ [.deregister] else s.session.tx } }

inductive Act
  | opened (sid : ℕ)
  | pathCallback (l : WtLink) (ok : Bool) (event : PathCallback)
  | sessionEvent (e : SessionTuple)
  | retire (closed : Option SessionTuple)
  | handleTx (outcome : CreateOutcome)
  | drainRx (n : ℕ)
  | route (room : SessionCommand → Bool)
  | releaseBatch
  | submit (call : ℕ) (bidir : Bool)
  | cancel (call : ℕ)
  | command (c : SessionCommand)
  | retryPush (k : ℕ) (pushed : Bool)
  | close (errorCode : ℕ) (reason : List UInt8) (room : SessionCommand → Bool)
  | dealloc (pushed : Bool)

/-- An event of the session or its connection, which names no context. -/
def Plain (e : SessionTuple) : Prop := e.ofStream = false ∧ e.scPtr = 0

instance (e : SessionTuple) : Decidable (Plain e) := inferInstanceAs (Decidable (_ ∧ _))

/-- A step. `drain_and_route` drains only when the batch before is routed. -/
def step (s : WtContexts) : Act → Option WtContexts
  | .opened sid =>
    if s.used sid = false ∧ s.cnx ∧ s.freed = false then
      some { s with used := Function.update s.used sid true, tree := s.tree ++ [sid] }
    else none
  | .pathCallback l ok event =>
    if l.sid ∈ s.tree ∧ (s.link l.sid = none → s.Fresh l) then some (s.pathCallback l ok event)
    else none
  | .sessionEvent e => if Plain e ∧ s.freed = false then some (s.push e) else none
  | .retire closed =>
    if s.cnx ∧ s.freed = false ∧ ∀ e ∈ closed, Plain e then some (s.retire closed) else none
  | .handleTx outcome => if s.freed = false then s.handleTx outcome else none
  | .drainRx n => if s.batch = [] then s.drainRx n else none
  | .route room => s.route room
  | .releaseBatch => if s.batch = [] then s.releaseBatchRefs else none
  | .submit call bidir =>
    if s.gone = false ∧ s.session.sessionClosed = false then
      some { s with session := submit s.session call bidir }
    else none
  | .cancel call =>
    some { s with session := { s.session with
      futures := Function.update s.session.futures call .cancelled } }
  | .command c =>
    if s.gone = false ∧ c ≠ .sessionCleanup ∧ c ≠ .deregister ∧ c.isCreate = false then
      some { s with session := { s.session with tx := s.session.tx ++ [c] } }
    else none
  | .retryPush k pushed => s.retryPush k pushed
  | .close errorCode reason room =>
    if s.gone = false then some { s with session := s.session.close room errorCode reason }
    else none
  | .dealloc pushed =>
    if s.gone = false ∧ s.session.retries = [] then some (s.dealloc pushed) else none

end WtContexts

end Aiopquic
