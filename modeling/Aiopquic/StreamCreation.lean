import Aiopquic.Lib.Steps
import Aiopquic.WebTransportSession
import Mathlib.Data.List.Count
import Mathlib.Data.List.Nodup

/-!
# `create_stream` and its replies (`asyncio/webtransport.py`, `h3wt_callback.h`)

The calls of `create_stream` on a session, the worker that answers their commands, and the task that
retires the streams nobody waits for any more. The session's replies are handled in the order of the
RX ring, all other events of it at any point in between.

A wait on the ring's drain event may end at any time: its waiters test again what they waited for.
`wait_for` of Python up to 3.11 keeps the result of a future that is done when it is cancelled,
later ones drop it.
-/

namespace Aiopquic

/-- A call of `create_stream`: it waits for the TX budget or for abandoned streams, for room in the
TX event ring, or for its future. `interrupted` is a cancellation or a timeout that has not reached
the coroutine yet. -/
inductive CreateCall
  | idle
  | gated (bidir : Bool)
  | parked (bidir : Bool)
  | waiting (interrupted : Bool)
  | returned (sid : ℕ)
  | raised
  deriving DecidableEq, Repr

/-- A `WT_STREAM_CREATED`. -/
structure CreatedReply where
  sid : ℕ
  scPtr : ℕ
  errorCode : ℕ
  deriving DecidableEq, Repr

/-- What the future of a reply's call gets as its result. -/
def CreatedReply.value (r : CreatedReply) : ℕ := if r.errorCode = 0 then r.sid else 0

/-- The event of a reply. -/
def CreatedReply.event (r : CreatedReply) : SessionTuple :=
  { evtType := .wtStreamCreated, sid := r.sid, errorCode := r.errorCode, scPtr := r.scPtr }

/-- What the worker makes of a `TX_WT_CREATE_STREAM`: no stream, a stream without a link, or
both. -/
inductive Creation
  | rejected
  | unlinked (sid : ℕ)
  | linked (sid scPtr : ℕ)
  deriving DecidableEq, Repr

def Creation.reply : Creation → CreatedReply
  | .rejected => ⟨0, 0, 1⟩
  | .unlinked sid => ⟨sid, 0, 2⟩
  | .linked sid scPtr => ⟨sid, scPtr, 0⟩

structure StreamCreation where
  session : WebTransportSession
  calls : ℕ → CreateCall := fun _ => .idle
  /-- The `WT_STREAM_CREATED`s in the RX ring. -/
  replies : List CreatedReply := []
  /-- History: the calls whose command was queued, with its direction; the replies handled by the
  open session, with the future each was for; the streams the worker made; the commands that retired
  a stream. -/
  submitted : List (ℕ × Bool) := []
  resolved : List (Option ℕ × CreatedReply) := []
  made : List (ℕ × Bool) := []
  retired : List (ℕ × Bool) := []

namespace StreamCreation

variable {s t : StreamCreation} {c sid : ℕ} {r : CreatedReply}

def setCall (s : StreamCreation) (c : ℕ) (call : CreateCall) : StreamCreation :=
  { s with calls := Function.update s.calls c call }

/-- `session_ready`. -/
def ready (s : StreamCreation) : Bool := s.session.sessionReady.any (· ≠ .pending)

/-- The `push` and the `append`, with nothing awaited in between. -/
def submit (s : StreamCreation) (c : ℕ) (bidir : Bool) : StreamCreation :=
  { s.setCall c (.waiting false) with
    session := { s.session with
      tx := s.session.tx ++ [.createStream bidir]
      pendingCreates := s.session.pendingCreates ++ [c]
      futures := Function.update s.session.futures c .pending }
    submitted := s.submitted ++ [(c, bidir)] }

/-- A pass of the push loop. -/
def tryPush (s : StreamCreation) (c : ℕ) (bidir room : Bool) : StreamCreation :=
  if s.session.sessionClosed then s.setCall c .raised
  else if room then s.submit c bidir
  else s.setCall c (.parked bidir)

/-- `create_stream` once its future is done; `none` while it waits. -/
def resume (s : StreamCreation) (c : ℕ) (interrupted keeps : Bool) : Option StreamCreation :=
  match s.session.futures c with
  | .pending => none
  | .exception | .cancelled => some (s.setCall c .raised)
  | .result sid =>
    if interrupted ∧ keeps = false
      then some { s.setCall c .raised with session := s.session.retireReply sid }
    else if sid = 0 then some (s.setCall c .raised)
    else some (s.setCall c (.returned sid))

/-- A cancellation or a timeout of a call. -/
def interrupt (s : StreamCreation) (c : ℕ) : Option StreamCreation :=
  match s.calls c with
  | .gated _ | .parked _ => some (s.setCall c .raised)
  | .waiting _ => some
    { s.setCall c (.waiting true) with
      session := { s.session with
        futures := if s.session.futures c = .pending then Function.update s.session.futures
          c .cancelled
          else s.session.futures } }
  | _ => none

/-- The worker takes the session's next command. -/
def work (s : StreamCreation) (a : Creation) : StreamCreation :=
  match s.session.tx with
  | [] => s
  | .createStream bidir :: rest =>
    { s with
      session := { s.session with tx := rest }
      replies := s.replies ++ [a.reply]
      made := if a.reply.sid = 0 then s.made else s.made ++ [(a.reply.sid, bidir)] }
  | _ :: rest => { s with session := { s.session with tx := rest } }

/-- picoquic makes a stream of the direction asked for, which its id tells. Stream `0` is a
CONNECT. -/
def Makes (s : StreamCreation) (a : Creation) : Prop :=
  a = .rejected ∨ a.reply.sid ≠ 0 ∧ a.reply.sid ∉ s.made.map Prod.fst ∧
    s.session.tx.head? = some (.createStream (decide (a.reply.sid &&& 2 = 0)))

instance (a : Creation) : Decidable (s.Makes a) := inferInstanceAs (Decidable (_ ∨ _))

/-- The next reply reaches `_on_event`. -/
def handleReply (s : StreamCreation) (room : SessionCommand → Bool) : StreamCreation :=
  match s.replies with
  | [] => s
  | r :: rest =>
    { s with
      session := s.session.onEvent room r.event
      replies := rest
      resolved := if s.session.sessionClosed then s.resolved else s.resolved ++
        [(s.session.pendingCreates.head?, r)] }

/-- The command that retires one side of a stream. -/
def retireCommand (q : ℕ × Bool) : SessionCommand := if q.2 then .stopSending q.1 0
    else .resetStream q.1 0

/-- `_retire_orphan_streams` until it waits or ends; the ring takes `n` commands. -/
def retireOrphanStreams (s : StreamCreation) (n : ℕ) : StreamCreation :=
  if s.session.orphanCleanupTask = false then s
  else if s.session.sessionClosed then
    { s with session := { s.session with orphanStreamCommands := [], orphanCleanupTask := false } }
  else
    let rest := s.session.orphanStreamCommands.drop n
    { s with
      session := { s.session with
        tx := s.session.tx ++ (s.session.orphanStreamCommands.take n).map retireCommand
        orphanStreamCommands := rest
        orphanCleanupTask := decide (rest ≠ []) }
      retired := s.retired ++ s.session.orphanStreamCommands.take n }

/-- A `_retry_push` task ends: it has queued its command, or gives up. -/
def retryPush (s : StreamCreation) (k : ℕ) (pushed : Bool) : Option StreamCreation :=
  (s.session.retries[k]?).map fun c =>
    { s with session := { s.session with
        retries := s.session.retries.eraseIdx k
        tx := if pushed then s.session.tx ++ [c] else s.session.tx } }

inductive Act
  | call (c : ℕ) (bidir : Bool)
  | advance (c : ℕ) (room : Bool)
  | interrupt (c : ℕ)
  | resume (c : ℕ) (keeps : Bool)
  | work (a : Creation)
  | handleReply (room : SessionCommand → Bool)
  | onEvent (e : SessionTuple) (room : SessionCommand → Bool)
  | close (errorCode : ℕ) (reason : List UInt8) (room : SessionCommand → Bool)
  | retireOrphanStreams (n : ℕ)
  | retryPush (k : ℕ) (pushed : Bool)

def step (s : StreamCreation) : Act → Option StreamCreation
  | .call c bidir =>
    if s.calls c = .idle then
      some (s.setCall c (if s.session.sessionClosed ∨ s.ready = false then .raised
        else .gated bidir))
    else none
  | .advance c room =>
    match s.calls c with
    | .gated bidir => if s.session.orphanCleanupTask then none else some (s.tryPush c bidir room)
    | .parked bidir => some (s.tryPush c bidir room)
    | _ => none
  | .interrupt c => s.interrupt c
  | .resume c keeps =>
    match s.calls c with
    | .waiting interrupted => s.resume c interrupted keeps
    | _ => none
  | .work a => if s.Makes a then some (s.work a) else none
  | .handleReply room => some (s.handleReply room)
  | .onEvent e room =>
    if e.evtType = .wtStreamCreated then none
      else some { s with session := s.session.onEvent room e }
  | .close errorCode reason room => some { s with session := s.session.close room errorCode reason }
  | .retireOrphanStreams n => some (s.retireOrphanStreams n)
  | .retryPush k pushed => s.retryPush k pushed

/-- A session of which no stream was asked for yet. -/
def start (server : Bool) (sessionReady : Option Future) : StreamCreation :=
  { session := { server, sessionReady } }

/-- The commands that retire streams, queued or still to queue. -/
def commands (s : StreamCreation) : List (ℕ × Bool) := s.retired ++ s.session.orphanStreamCommands

/-- The call has the stream: it returned its id, or will find it in its future. -/
def Holds (s : StreamCreation) (c sid : ℕ) : Prop :=
  s.session.futures c = .result sid ∧ (s.calls c = .returned sid ∨ ∃ i, s.calls c = .waiting i)

/-- Nothing retires the stream. -/
def Untouched (s : StreamCreation) (sid : ℕ) : Prop := ∀ stop, s.commands.count (sid, stop) = 0

end StreamCreation

end Aiopquic
