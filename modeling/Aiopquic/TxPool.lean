import Aiopquic.Lib.Atomic
import Aiopquic.Lib.Steps
import Aiopquic.TxPath
import Mathlib.Algebra.BigOperators.Group.List.Basic

/-!
# Every stream's send side, in whole operations

The contexts of any number of raw and WebTransport streams with the process-wide byte counters, and
the worker's deferred resets. A step is one call of the asyncio thread, one picoquic callback, one
TX command of the worker or one `after_send` pass, run in one piece; the ring operations inside are
those of `StreamBuf` and `StreamCtx`.

A context is known by the number of its allocation, so that none is ever taken for an earlier one.
What picoquic and h3zero answer is the argument of the step, and an `after_send` pass is one step
for each entry. No function reads a history.
-/

namespace Aiopquic

open Interleave Interleave.Prog Circular

/-- What a picoquic reset call returns; `other` is every other error. -/
inductive ResetRc
  | ok
  | invalidStreamId
  | offsetTooBig
  | illegalTransportExtension
  | other
  deriving DecidableEq, Repr

/-- A reset call: `picoquic_reset_stream_at` of so many bytes, `picoquic_reset_stream`, or
`picowt_reset_stream`, which keeps the stream's header. -/
inductive ResetCall
  | resetStreamAt (reliable : ℕ)
  | resetStream
  | picowtResetStream
  deriving DecidableEq, Repr

/-- What a reset handler reads of picoquic: the stream's direction, whether both ends advertised
`reset_stream_at`, whether the session has its connection, whether `calloc` succeeds, the
WebTransport header's length, and the answers to the three calls. -/
structure ResetView where
  canSend : Bool := true
  negotiated : Bool := true
  session : Bool := true
  allocates : Bool := true
  preamble : ℕ := 0
  resetStreamAt : ResetRc := .ok
  resetStream : ResetRc := .ok
  picowtResetStream : ResetRc := .ok

/-- `aiopquic_deferred_reset_t`; the error code decides nothing. -/
structure Deferred where
  cnx : ℕ
  sc : ℕ
  streamId : ℕ
  preamble : ℕ
  isWt : Bool
  deriving DecidableEq, Repr

/-- History: a reset was deferred, to keep `size` bytes, when `before` frames had been handed. -/
structure Held where
  size : ℕ
  before : ℕ
  deriving DecidableEq, Repr

/-- History: an `after_send` pass took an entry for ready. Its reliable size, the bytes handed by
then, whether its connection was closing, the calls made with their answers, and how many bytes were
queued after them. -/
structure Done where
  size : ℕ
  handed : ℕ
  cleaned : Bool
  closing : Bool
  calls : List (ResetCall × ResetRc)
  queued : ℕ
  deriving DecidableEq, Repr

/-- A context with the stream it belongs to. `linked` says that h3zero's stream has the context's
link, `tracked` that h3zero has the stream; both are about WebTransport streams. The rest is
history: the frames handed to picoquic, whether a session cleanup has been through the stream, and
its resets. -/
structure TxCtx where
  sc : StreamCtx := {}
  refcount : ℕ := 1
  cnx : ℕ
  streamId : ℕ
  isWt : Bool
  session : ℕ := 0
  linked : Bool := true
  tracked : Bool := true
  frames : List Frame := []
  cleaned : Bool := false
  held : List Held := []
  told : List (ResetCall × ResetRc) := []
  done : List Done := []

/-- The bytes handed to picoquic. -/
def TxCtx.handed (c : TxCtx) : ℕ := (handedBytes c.frames).length

structure TxPool where
  made : ℕ := 0
  live : List ℕ := []
  ctxs : ℕ → TxCtx := fun _ => { cnx := 0, streamId := 0, isWt := false }
  /-- `aiopquic_cnt_tx_data_bytes_pushed`, `_pulled` and `_discarded`; `uint64_t`, unbounded
  here. -/
  pushed : ℕ := 0
  pulled : ℕ := 0
  discarded : ℕ := 0
  /-- `deferred_resets`. -/
  deferred : List Deferred := []
  /-- The connections at `disconnecting` or later, and those deleted. -/
  closing : ℕ → Bool := fun _ => false
  deleted : ℕ → Bool := fun _ => false
  rx : List Entry := []

/-- The consumer's side after it gave up all that is queued. -/
def StreamBuf.skip (b : StreamBuf) : StreamBuf := { b with head := b.tail }

namespace StreamCtx

/-- The bytes in `sc->tx`. -/
def txQueued (sc : StreamCtx) : ℕ := sc.txBuf.tail - sc.txBuf.head

end StreamCtx

namespace TxPool

variable {s : TxPool} {x : ℕ}

/-- `aiopquic_tx_data_bytes_queued`. -/
def queuedBytes (s : TxPool) : ℕ :=
  if s.pulled + s.discarded < s.pushed then s.pushed - (s.pulled + s.discarded) else 0

def modifyCtx (s : TxPool) (x : ℕ) (f : TxCtx → TxCtx) : TxPool :=
  { s with ctxs := Function.update s.ctxs x (f (s.ctxs x)) }

@[simp] theorem modifyCtx_self {f : TxCtx → TxCtx} : (s.modifyCtx x f).ctxs x = f (s.ctxs x) :=
  Function.update_self x _ s.ctxs

theorem modifyCtx_of_ne {f : TxCtx → TxCtx} {y : ℕ} (h : y ≠ x) :
    (s.modifyCtx x f).ctxs y = s.ctxs y :=
  Function.update_of_ne h _ s.ctxs

/-- What `f` keeps of every context, a change of one context by `f` keeps of all. -/
theorem modifyCtx_keeps {α : Type} {f : TxCtx → TxCtx} {g : TxCtx → α}
    (h : g (f (s.ctxs x)) = g (s.ctxs x))
    (y : ℕ) : g ((s.modifyCtx x f).ctxs y) = g (s.ctxs y) := by
  by_cases hy : y = x
  · rw [hy, modifyCtx_self, h]
  · rw [modifyCtx_of_ne hy]

def modifySc (s : TxPool) (x : ℕ) (f : StreamCtx → StreamCtx) : TxPool :=
  s.modifyCtx x fun c => { c with sc := f c.sc }

/-! ## Contexts -/

/-- `aiopquic_stream_ctx_create`. -/
def create (s : TxPool) (cnx streamId : ℕ) (isWt : Bool) (session : ℕ) : TxPool :=
  { s with
    made := s.made + 1
    live := s.made :: s.live
    ctxs := Function.update s.ctxs s.made
      { cnx := cnx, streamId := streamId, isWt := isWt, session := session } }

/-- `aiopquic_stream_ctx_ref`. -/
def ref (s : TxPool) (x : ℕ) : TxPool := s.modifyCtx x fun c =>
    { c with refcount := c.refcount + 1 }

/-- `aiopquic_stream_ctx_destroy`: the last reference counts what is still queued as discarded and
frees. -/
def destroy (s : TxPool) (x : ℕ) : TxPool :=
  let s' := s.modifyCtx x fun c => { c with refcount := c.refcount - 1 }
  if (s.ctxs x).refcount = 1 then
    { s' with discarded := s.discarded + (s.ctxs x).sc.txQueued, live := s.live.erase x }
  else s'

@[simp] theorem destroy_deferred : (s.destroy x).deferred = s.deferred := by
  rw [destroy]
  split <;> rfl

/-- `aiopquic_stream_ctx_tx_abandon`. -/
def abandon (s : TxPool) (x : ℕ) : TxPool :=
  let b := (s.ctxs x).sc.txBuf
  if (s.ctxs x).sc.tx.isSome ∧ b.head < b.tail then
    { s.modifySc x fun sc => { sc with tx := some b.skip } with
      discarded := s.discarded + (b.tail - b.head) }
  else s

/-! ## Writes and pulls -/

/-- `TransportContext.tx_send_atomic` and `WebTransportSessionState.send_stream_data` up to the push
of their command. The length goes into a `uint32_t`. -/
def send (s : TxPool) (x : ℕ) (data : List UInt8) (capacity : UInt32) (setFin hash : Bool) :
    TxPool :=
  let data := data.take (data.length % 2 ^ 32)
  let sent := (StreamCtx.sendData data capacity setFin hash).exec (s.ctxs x).sc
  let s := s.modifySc x fun _ => sent.2
  if sent.1 = 1 then { s with pushed := s.pushed + data.length } else s

/-- `picoquic_provide_stream_data_buffer`, and the bytes that fill its buffer. -/
def hand (s : TxPool) (x : ℕ) (frame : Frame) : TxPool :=
  s.modifyCtx x fun c => { c with frames := c.frames ++ [frame] }

/-- The drain signal at the end of a pull; `pushes` is whether the event could be queued. A raw
stream has session `0`. -/
def signalDrained (s : TxPool) (x : ℕ) (pushes : Bool) : TxPool :=
  let c := s.ctxs x
  if c.sc.txDrainPending ∧ pushes then
    { s.modifySc x fun sc => { sc with txDrainPending := false } with
      rx := s.rx ++ [{ eventType := .streamTxDrained, streamId := c.streamId, cnx := c.cnx, streamCtx := c.session }] }
  else s

/-- The bytes a pull may take, `aiopquic_stream_ctx_tx_sendable` of what is there. -/
def sendable (sc : StreamCtx) : ℕ :=
  ((StreamCtx.txSendable (StreamBuf.used.exec sc.txBuf).1).exec sc).1

/-- The `prepare_to_send` branch of `aiopquic_stream_cb` and the `provide_data` branch of
`aiopquic_wt_path_callback`, which needs the link. `buffer` is whether picoquic gave a buffer for
the bytes. -/
def pull (s : TxPool) (x length : ℕ) (buffer pushes : Bool) : TxPool :=
  let c := s.ctxs x
  if (c.isWt ∧ c.linked = false) ∨ c.sc.tx.isNone then s.hand x ⟨[], false⟩
  else
    let avail := (StreamBuf.used.exec c.sc.txBuf).1
    let toSend := min (sendable c.sc) (length % 2 ^ 32)
    let isFin := c.sc.txBuf.finPending && !c.sc.txResetPending && toSend == avail
    let popped := (StreamBuf.pop toSend).exec c.sc.txBuf
    let s :=
      if 0 < toSend then
        if buffer then
          ({ s.modifySc x fun sc => { sc with tx := some popped.2 } with
            pulled := s.pulled + toSend } : TxPool).hand x
              ⟨StreamBuf.fillBuffer toSend popped.1, isFin⟩
        else s
      else s.hand x ⟨[], isFin⟩
    s.signalDrained x pushes

/-! ## Resets -/

/-- `aiopquic_reset_reliable_size`. -/
def resetReliableSize (v : ResetView) (sc : StreamCtx) (requested : ℕ) : ℕ :=
  if requested = 0 ∨ sc.tx.isNone ∨ v.negotiated = false then 0 else min requested sc.txBuf.tail

/-- `aiopquic_reset_stream_reliable`: the calls it makes with their answers, and its result. -/
def resetStreamReliable (v : ResetView) (reliable : ℕ) : List (ResetCall × ResetRc) × ResetRc :=
  if 0 < reliable then
    if v.resetStreamAt ≠ .offsetTooBig ∧ v.resetStreamAt ≠ .illegalTransportExtension then
      ([(.resetStreamAt reliable, v.resetStreamAt)], v.resetStreamAt)
    else ([(.resetStreamAt reliable, v.resetStreamAt), (.resetStream, v.resetStream)],
      v.resetStream)
  else ([(.resetStream, v.resetStream)], v.resetStream)

/-- `aiopquic_wt_reset_stream`. -/
def wtReset (v : ResetView) : List (ResetCall × ResetRc) × ResetRc :=
  if v.picowtResetStream = .ok then ([(.picowtResetStream, .ok)], .ok)
  else ([(.picowtResetStream, v.picowtResetStream), (.resetStream, v.resetStream)], v.resetStream)

def tell (s : TxPool) (x : ℕ) (calls : List (ResetCall × ResetRc)) : TxPool :=
  s.modifyCtx x fun c => { c with told := c.told ++ calls }

/-- `aiopquic_defer_reset`. -/
def deferReset (s : TxPool) (x reliable preamble : ℕ) : TxPool :=
  let c := s.ctxs x
  let s := (s.ref x).modifyCtx x fun c =>
    { c with
      sc := { c.sc with txResetPending := true, txReliableSize := reliable }
      held := c.held ++ [⟨reliable, c.frames.length⟩] }
  { s with deferred := ⟨c.cnx, x, c.streamId, preamble, c.isWt⟩ :: s.deferred }

/-- `aiopquic_deferred_reset_free`. -/
def deferredResetFree (s : TxPool) (d : Deferred) : TxPool :=
  (s.modifySc d.sc fun sc => { sc with txResetPending := false }).destroy d.sc

/-- `aiopquic_stream_reattach_sc` returns the context. -/
def Reattaches (s : TxPool) (x : ℕ) (rc : ResetRc) : Prop :=
  rc ≠ .invalidStreamId ∧ s.closing (s.ctxs x).cnx = false

instance (s : TxPool) (x : ℕ) (rc : ResetRc) : Decidable (s.Reattaches x rc) :=
  inferInstanceAs (Decidable (_ ∧ _))

/-- The reset of a raw stream, and what follows it. -/
def sendReset (s : TxPool) (x : ℕ) (v : ResetView) (reliable : ℕ) : TxPool :=
  let result := resetStreamReliable v reliable
  if s.Reattaches x result.2 then (s.tell x result.1).abandon x else s.tell x result.1

/-- The reset of a WebTransport stream, and what follows it. `own` is whether its link has the
context. -/
def wtSendReset (s : TxPool) (x : ℕ) (own : Bool) (result : List (ResetCall × ResetRc) × ResetRc) :
    TxPool :=
  if result.2 = .ok ∧ own then (s.tell x result.1).abandon x else s.tell x result.1

/-- The handler of `TX_STREAM_RESET`. -/
def streamReset (s : TxPool) (x requested : ℕ) (v : ResetView) : TxPool :=
  let c := s.ctxs x
  let reliable := resetReliableSize v c.sc requested
  if c.sc.txResetPending then s
  else if v.canSend = false then s
  else if 0 < reliable ∧ c.sc.txBuf.head < reliable ∧ v.allocates then s.deferReset x reliable 0
  else s.sendReset x v reliable

/-- The handler of `TX_WT_RESET_STREAM`. -/
def wtResetStream (s : TxPool) (x requested : ℕ) (v : ResetView) : TxPool :=
  let c := s.ctxs x
  let reliable := if c.linked then resetReliableSize v c.sc requested else 0
  if v.session = false ∨ c.tracked = false ∨ v.canSend = false then s
  else if c.linked ∧ c.sc.txResetPending then s
  else if reliable = 0 then s.wtSendReset x c.linked (wtReset v)
  else if c.sc.txBuf.head < reliable ∧ v.allocates then s.deferReset x reliable v.preamble
  else s.wtSendReset x c.linked (resetStreamReliable v (v.preamble + reliable))

/-! ## The deferred resets -/

/-- `aiopquic_wt_deferred_reset`. -/
def wtDeferredReset (s : TxPool) (d : Deferred) (v : ResetView) : TxPool :=
  if (s.ctxs d.sc).tracked = false then s
  else s.wtSendReset d.sc true
    (resetStreamReliable v (d.preamble + (s.ctxs d.sc).sc.txReliableSize))

/-- The reset of an entry that comes off the list, if its connection is still open. -/
def sendDeferred (s : TxPool) (d : Deferred) (v : ResetView) : TxPool :=
  if s.deleted d.cnx = false ∧ s.closing d.cnx = false then
    let s := s.modifySc d.sc fun sc => { sc with txResetPending := false }
    if d.isWt then s.wtDeferredReset d v else s.sendReset d.sc v (s.ctxs d.sc).sc.txReliableSize
  else s

/-- The reliable bytes of an entry are sent. -/
def Ready (s : TxPool) (d : Deferred) : Prop :=
  (s.ctxs d.sc).sc.txReliableSize ≤ (s.ctxs d.sc).sc.txBuf.head

instance (s : TxPool) (d : Deferred) : Decidable (s.Ready d) := inferInstanceAs (Decidable (_ ≤ _))

/-- The record of an entry that was ready at `s`, with its reset sent at `t`. -/
def record (s t : TxPool) (d : Deferred) : TxPool :=
  let c := s.ctxs d.sc
  t.modifyCtx d.sc fun c' =>
    { c' with
      done := c'.done ++ [{
        size := c.sc.txReliableSize
        handed := c.handed
        cleaned := c.cleaned
        closing := s.closing d.cnx
        calls := c'.told.drop c.told.length
        queued := c'.sc.txQueued }] }

/-- `aiopquic_run_deferred_resets` at one entry; `sweep` is the second's pass over connections that
went away. -/
def runDeferred (s : TxPool) (sweep : Bool) (d : Deferred) (v : ResetView) : TxPool :=
  if ¬ s.Ready d ∧ sweep = false then s
  else if s.deleted d.cnx = false ∧ ¬ s.Ready d then s
  else
    let s' : TxPool := { s with deferred := s.deferred.erase d }
    let t := s'.sendDeferred d v
    (if s.Ready d then s.record t d else t).deferredResetFree d

/-- `aiopquic_deferred_resets_drop_cnx` at one entry. -/
def dropDeferred (cnx : ℕ) (s : TxPool) (d : Deferred) : TxPool :=
  if d.cnx = cnx then ({ s with deferred := s.deferred.erase d } : TxPool).deferredResetFree d
    else s

/-- `aiopquic_deferred_resets_drop_cnx`. -/
def dropCnx (s : TxPool) (cnx : ℕ) : TxPool := s.deferred.foldl (dropDeferred cnx) s

/-! ## The end of a session -/

/-- The contexts of the session's links on h3zero's stream tree. -/
def links (s : TxPool) (session : ℕ) : List ℕ :=
  s.live.filter fun x => (s.ctxs x).isWt && (s.ctxs x).linked && (s.ctxs x).session == session

/-- `TX_WT_SESSION_CLEANUP` at one link. -/
def cleanupLink (v : ℕ → ResetView) (s : TxPool) (x : ℕ) : TxPool :=
  let s := if (v x).canSend then s.tell x (wtReset (v x)).1 else s
  (s.modifyCtx x fun c => { c with linked := false, cleaned := true }).abandon x

/-- The handler of `TX_WT_SESSION_CLEANUP`. -/
def sessionCleanup (s : TxPool) (session : ℕ) (v : ℕ → ResetView) : TxPool :=
  (s.links session).foldl (cleanupLink v) s

/-- `TX_WT_DEREGISTER` at one link. -/
def deregisterLink (s : TxPool) (x : ℕ) : TxPool :=
  (s.modifyCtx x fun c => { c with linked := false }).abandon x

/-- The handler of `TX_WT_DEREGISTER`, up to `picowt_deregister`. -/
def deregister (s : TxPool) (session : ℕ) : TxPool := (s.links session).foldl deregisterLink s

/-! ## Steps -/

/-- A step, with the answers of picoquic and h3zero. `free` is h3zero's end of a stream, `delete`
picoquic's end of a connection. -/
inductive Act
  | create (cnx streamId : ℕ) (isWt : Bool) (session : ℕ)
  | ref (x : ℕ)
  | destroy (x : ℕ)
  | send (x : ℕ) (data : List UInt8) (capacity : UInt32) (setFin hash : Bool)
  | arm (x : ℕ)
  | pull (x length : ℕ) (buffer pushes : Bool)
  | streamReset (x requested : ℕ) (v : ResetView)
  | wtResetStream (x requested : ℕ) (v : ResetView)
  | afterSend (k : ℕ) (sweep : Bool) (v : ResetView)
  | sessionCleanup (session : ℕ) (v : ℕ → ResetView)
  | deregister (session : ℕ)
  | free (x : ℕ)
  | disconnect (cnx : ℕ)
  | close (cnx : ℕ)
  | delete (cnx : ℕ)

/-- How many entries of the list hold a reference to a context. -/
def deferrals (s : TxPool) (x : ℕ) : ℕ := (s.deferred.map (·.sc)).count x

/-- A reference is given back by whoever holds one, and none of the deferred resets' is among
them. -/
def step (s : TxPool) : Act → Option TxPool
  | .create cnx streamId isWt session => some (s.create cnx streamId isWt session)
  | .ref x => if x ∈ s.live then some (s.ref x) else none
  | .destroy x => if x ∈ s.live ∧ s.deferrals x < (s.ctxs x).refcount then some (s.destroy x)
    else none
  | .send x data capacity setFin hash =>
    if x ∈ s.live then some (s.send x data capacity setFin hash) else none
  | .arm x =>
    if x ∈ s.live then some (s.modifySc x fun sc => { sc with txDrainPending := true }) else none
  | .pull x length buffer pushes => if x ∈ s.live then some (s.pull x length buffer pushes)
      else none
  | .streamReset x requested v =>
    if x ∈ s.live ∧ (s.ctxs x).isWt = false ∧ s.deleted (s.ctxs x).cnx = false then
      some (s.streamReset x requested v)
    else none
  | .wtResetStream x requested v =>
    if (s.ctxs x).isWt = true ∧ (x ∈ s.live ∨ (s.ctxs x).linked = false)
      then some (s.wtResetStream x requested v)
    else none
  | .afterSend k sweep v => (s.deferred[k]?).map fun d => s.runDeferred sweep d v
  | .sessionCleanup session v => some (s.sessionCleanup session v)
  | .deregister session => some (s.deregister session)
  | .free x => some (s.modifyCtx x fun c => { c with linked := false, tracked := false })
  | .disconnect cnx => some { s with closing := Function.update s.closing cnx true }
  | .close cnx => some
      (({ s with closing := Function.update s.closing cnx true } : TxPool).dropCnx cnx)
  | .delete cnx => some { s with deleted := Function.update s.deleted cnx true }

end TxPool

end Aiopquic
