import Aiopquic.SpscRing
import Aiopquic.WtSession

/-!
# A WebTransport session in Python (`asyncio/webtransport.py`)

`WebTransportSession` with the calls that touch its stream contexts, its pending creates, its event
queue or its end. The datagram ring, the inboxes and the drain events of its writers are left out,
and with them the branches of `_on_event` that only deal with these.

A future is named by the call of `create_stream` that made it. `room` says which commands the TX
event ring takes during a call.
-/

namespace Aiopquic

/-- What `events()` yields; `localReason` are the bytes of the text. -/
inductive WebTransportEvent
  | sessionClosed (errorCode : ℕ) (reason : List UInt8) (connectionClosed : Bool)
    (frameType : Option ℕ)
      (localError : ℕ) (localReason : List UInt8)
  | sessionRefused (errorCode : ℕ)
  | sessionDraining
  | newStream (streamId : ℕ)
  | stopSending (streamId errorCode : ℕ)
  | datagramReceived (data : List UInt8)
  deriving DecidableEq, Repr

/-- `WebTransportSessionClosed` or `WebTransportSessionRefused`. -/
def WebTransportEvent.isEnd : WebTransportEvent → Bool
  | .sessionClosed _ _ _ _ _ _ | .sessionRefused _ => true
  | _ => false

/-- An `asyncio.Future` of stream ids. -/
inductive Future
  | pending
  | result (sid : ℕ)
  | exception
  | cancelled
  deriving DecidableEq, Repr

/-- The session's commands for the worker. -/
inductive SessionCommand
  | createStream (bidir : Bool)
  | close (errorCode : ℕ) (reason : List UInt8)
  | fin
  | sessionCleanup
  | resetStream (streamId errorCode : ℕ)
  | stopSending (streamId errorCode : ℕ)
  | deregister
  deriving DecidableEq, Repr

/-- `TX_WT_CREATE_STREAM`. -/
def SessionCommand.isCreate : SessionCommand → Bool
  | .createStream _ => true
  | _ => false

/-- What `_on_event` reads of a drained event. -/
structure SessionTuple where
  evtType : EventType
  sid : ℕ := 0
  data : Option (List UInt8) := none
  isFin : ℕ := 0
  errorCode : ℕ := 0
  scPtr : ℕ := 0
  deriving DecidableEq, Repr

/-- An event that ends the session. -/
def SessionTuple.closes (e : SessionTuple) : Bool := e.evtType = .wtSessionClosed ∨ e.evtType =
    .wtCnxClosed

/-- `WT_SESSION_GONE`. -/
def wtSessionGone : ℕ := 0x170d7b68

/-- `_CLOSE_LOCAL`. -/
def closeLocal : ℕ := 0x80

structure WebTransportSession where
  server : Bool := false
  sessionReady : Option Future := none
  sessionClosed : Bool := false
  cnxClosed : Bool := false
  finSent : Bool := false
  draining : Bool := false
  pendingCreates : List ℕ := []
  futures : ℕ → Future := fun _ => .pending
  /-- A stream id and whether its command is the `STOP_SENDING`. -/
  orphanStreamCommands : List (ℕ × Bool) := []
  orphanCleanupTask : Bool := false
  /-- `0` where the dictionary has no entry. -/
  streamTxCtxs : ℕ → ℕ := fun _ => 0
  eventQueue : List WebTransportEvent := []
  /-- The session's commands in the TX event ring, and those its `_retry_push` tasks wait to
  queue. -/
  tx : List SessionCommand := []
  retries : List SessionCommand := []
  /-- The dispatcher has the session. -/
  attached : Bool := true
  /-- History: what was put on the event queue, and the commands given to `_push_or_retry`. -/
  puts : List WebTransportEvent := []
  asked : List SessionCommand := []

namespace WebTransportSession

variable {s : WebTransportSession} {room : SessionCommand → Bool}

/-- `_event_queue.put_nowait`. -/
def put (s : WebTransportSession) (e : WebTransportEvent) : WebTransportSession :=
  { s with eventQueue := s.eventQueue ++ [e], puts := s.puts ++ [e] }

/-- `_push_or_retry`. -/
def pushOrRetry (s : WebTransportSession) (room : SessionCommand → Bool) (c : SessionCommand) :
    WebTransportSession :=
  let s := { s with asked := s.asked ++ [c] }
  if room c then { s with tx := s.tx ++ [c] } else { s with retries := s.retries ++ [c] }

/-- `_release_session_resources`. -/
def releaseSessionResources (s : WebTransportSession) (room : SessionCommand → Bool) :
    WebTransportSession :=
  { s.pushOrRetry room .sessionCleanup with
    streamTxCtxs := fun _ => 0
    orphanStreamCommands := []
    pendingCreates := []
    futures := fun c => if c ∈ s.pendingCreates ∧ s.futures c = .pending then .exception
      else s.futures c }

/-- `close`. -/
def close (s : WebTransportSession) (room : SessionCommand → Bool) (errorCode : ℕ)
    (reason : List UInt8) :
    WebTransportSession :=
  if s.sessionClosed then s
  else
    let s := { s with sessionClosed := true, finSent := true }
    let s := (s.pushOrRetry room (.close errorCode reason)).releaseSessionResources room
    s.put (.sessionClosed errorCode reason false none 0 [])

/-- The `WebTransportSessionClosed` of an end that the worker tells of; `source` is its `is_fin`. -/
def closedEvent (errorCode : ℕ) (data : Option (List UInt8)) (source : ℕ) : WebTransportEvent :=
  let reason := data.getD []
  if source &&& closeLocal ≠ 0 then
    let source := source ^^^ closeLocal
    .sessionClosed 0 [] (decide (source ≠ 0)) (if source = 2 then some 0 else none) errorCode reason
  else .sessionClosed errorCode reason (decide (source ≠ 0)) (if source = 2 then some 0 else none) 0
    []

/-- The answer to an inbound close: our FIN on CONNECT. -/
def answerFin (s : WebTransportSession) (room : SessionCommand → Bool) : WebTransportSession :=
  if s.finSent then s else { s with finSent := true }.pushOrRetry room .fin

/-- The `set_exception` of `_session_ready`, if it is still pending. -/
def failReady (s : WebTransportSession) : WebTransportSession :=
  if s.sessionReady = some .pending then { s with sessionReady := some .exception } else s

/-- `_on_session_closed`. -/
def onSessionClosed (s : WebTransportSession) (room : SessionCommand → Bool) (errorCode : ℕ)
    (data : Option (List UInt8)) (source : ℕ) : WebTransportSession :=
  let s := ({ s with sessionClosed := true }.releaseSessionResources room).failReady
  let s := (s.put (closedEvent errorCode data source)).answerFin room
  { s with attached := s.attached && !s.server }

/-- `_drop_stream_tx`. -/
def dropStreamTx (s : WebTransportSession) (sid : ℕ) : WebTransportSession :=
  { s with streamTxCtxs := Function.update s.streamTxCtxs sid 0 }

/-- The commands that retire a stream. A stream with the bit `2` has only a send side. -/
def retirement (sid : ℕ) : List (ℕ × Bool) := (sid, false) :: if sid &&& 2 = 0 then
    [(sid, true)] else []

/-- `_retire_orphan_stream`. -/
def retireOrphanStream (s : WebTransportSession) (sid : ℕ) : WebTransportSession :=
  let s := s.dropStreamTx sid
  if s.sessionClosed then s
  else
    { s with
      orphanStreamCommands := s.orphanStreamCommands ++ retirement sid
      orphanCleanupTask := true }

/-- The stream of a reply that nobody gets: `if sid: self._retire_orphan_stream(sid)`. -/
def retireReply (s : WebTransportSession) (sid : ℕ) : WebTransportSession :=
  if sid ≠ 0 then s.retireOrphanStream sid else s

/-- A future gets its result. -/
def setResult (s : WebTransportSession) (call sid : ℕ) : WebTransportSession :=
  { s with futures := Function.update s.futures call (.result sid) }

/-- `_on_event` at a `WT_STREAM_CREATED`. -/
def onStreamCreated (s : WebTransportSession) (room : SessionCommand → Bool) (e : SessionTuple) :
    WebTransportSession :=
  if s.sessionClosed then
    let c : SessionCommand := .resetStream e.sid wtSessionGone
    if e.scPtr ≠ 0 ∧ e.errorCode = 0 ∧ e.sid ≠ 0 ∧ room c then { s with tx := s.tx ++ [c] } else s
  else
    let fut := s.pendingCreates.head?
    let s := { s with pendingCreates := s.pendingCreates.tail }
    match fut with
    | none => s.retireReply e.sid
    | some call =>
      if e.errorCode ≠ 0 ∨ s.futures call ≠ .pending then
        let s := s.retireReply e.sid
        if s.futures call = .pending then s.setResult call 0 else s
      else
        let s :=
          if e.scPtr ≠ 0 then
            { s with streamTxCtxs := Function.update s.streamTxCtxs e.sid e.scPtr } else s
        s.setResult call e.sid

/-- `_on_event` at a `WT_NEW_STREAM`. -/
def onNewStream (s : WebTransportSession) (room : SessionCommand → Bool) (e : SessionTuple) :
    WebTransportSession :=
  if s.sessionClosed then if e.scPtr ≠ 0 ∧ e.sid ≠ 0 then s.pushOrRetry room .sessionCleanup else s
  else
    let s := if e.scPtr ≠ 0
      then { s with streamTxCtxs := Function.update s.streamTxCtxs e.sid e.scPtr } else s
    s.put (.newStream e.sid)

/-- `_on_event`. -/
def onEvent (s : WebTransportSession) (room : SessionCommand → Bool) (e : SessionTuple) :
    WebTransportSession :=
  match e.evtType with
  | .wtSessionReady => if s.sessionReady = some .pending
      then { s with sessionReady := some (.result 0) } else s
  | .wtSessionRefused => s.failReady.put (.sessionRefused e.errorCode)
  | .wtSessionClosed => s.onSessionClosed room e.errorCode e.data e.isFin
  | .wtCnxClosed =>
    let s := if s.sessionClosed then s else s.onSessionClosed room e.errorCode none e.isFin
    { s with cnxClosed := true }
  | .wtSessionDraining => { s with draining := true }.put .sessionDraining
  | .wtStreamCreated => s.onStreamCreated room e
  | .wtStreamReset => if s.sessionClosed then s else s.dropStreamTx e.sid
  | .wtStopSending => (s.put (.stopSending e.sid e.errorCode)).dropStreamTx e.sid
  | .wtDatagram => s.put (.datagramReceived (e.data.getD []))
  | .wtNewStream => s.onNewStream room e
  | .streamDestroy | .wtStreamDestroy => s.dropStreamTx e.sid
  | _ => s

/-! ## The event queue -/

/-- `t` is `s` with `l` put on the event queue. -/
structure Posts (s t : WebTransportSession) (l : List WebTransportEvent) : Prop where
  eventQueue : t.eventQueue = s.eventQueue ++ l
  puts : t.puts = s.puts ++ l

variable {t u : WebTransportSession} {l : List WebTransportEvent} {c : SessionCommand}
    {e : SessionTuple}

theorem Posts.of_eq (hq : t.eventQueue = s.eventQueue) (hp : t.puts = s.puts) : Posts s t [] :=
  ⟨by rw [hq, List.append_nil], by rw [hp, List.append_nil]⟩

@[simp] theorem eventQueue_pushOrRetry : (s.pushOrRetry room c).eventQueue = s.eventQueue := by
  simp only [pushOrRetry]
  split <;> rfl

@[simp] theorem puts_pushOrRetry : (s.pushOrRetry room c).puts = s.puts := by
  simp only [pushOrRetry]
  split <;> rfl

@[simp] theorem sessionClosed_pushOrRetry : (s.pushOrRetry room c).sessionClosed =
    s.sessionClosed := by
  simp only [pushOrRetry]
  split <;> rfl

@[simp] theorem eventQueue_answerFin : (s.answerFin room).eventQueue = s.eventQueue := by
  rw [answerFin]
  split <;> simp

@[simp] theorem puts_answerFin : (s.answerFin room).puts = s.puts := by
  rw [answerFin]
  split <;> simp

@[simp] theorem sessionClosed_answerFin : (s.answerFin room).sessionClosed = s.sessionClosed := by
  rw [answerFin]
  split <;> simp

@[simp] theorem eventQueue_failReady : s.failReady.eventQueue = s.eventQueue := by
  rw [failReady]
  split <;> rfl

@[simp] theorem puts_failReady : s.failReady.puts = s.puts := by
  rw [failReady]
  split <;> rfl

@[simp] theorem sessionClosed_failReady : s.failReady.sessionClosed = s.sessionClosed := by
  rw [failReady]
  split <;> rfl

theorem close_posts (errorCode : ℕ) (reason : List UInt8) (h : s.sessionClosed = false) :
    Posts s (s.close room errorCode reason) [.sessionClosed errorCode reason false none 0 []] := by
  rw [close, if_neg (by simp [h])]
  constructor <;> simp [put, releaseSessionResources]

theorem sessionClosed_close (errorCode : ℕ) (reason : List UInt8) :
    (s.close room errorCode reason).sessionClosed = true := by
  rw [close]
  split
  · assumption
  · simp [put, releaseSessionResources]

theorem onSessionClosed_posts (errorCode : ℕ) (data : Option (List UInt8)) (source : ℕ) :
    Posts s (s.onSessionClosed room errorCode data source) [closedEvent errorCode data source] := by
  rw [onSessionClosed]
  constructor <;> simp [put, releaseSessionResources]

theorem sessionClosed_onSessionClosed (errorCode : ℕ) (data : Option (List UInt8)) (source : ℕ) :
    (s.onSessionClosed room errorCode data source).sessionClosed = true := by
  simp [onSessionClosed, put, releaseSessionResources]

theorem isEnd_closedEvent (errorCode : ℕ) (data : Option (List UInt8)) (source : ℕ) :
    (closedEvent errorCode data source).isEnd = true := by
  rw [closedEvent]
  split <;> rfl

theorem retireReply_posts (sid : ℕ) :
    Posts s (s.retireReply sid) [] ∧ (s.retireReply sid).sessionClosed = s.sessionClosed := by
  rw [retireReply]
  split
  · rw [retireOrphanStream]
    split <;> exact ⟨.of_eq rfl rfl, rfl⟩
  · exact ⟨.of_eq rfl rfl, rfl⟩

theorem onStreamCreated_posts :
    Posts s (s.onStreamCreated room e) [] ∧ (s.onStreamCreated room e).sessionClosed =
    s.sessionClosed := by
  rw [onStreamCreated]
  obtain ⟨⟨hq, hp⟩, hc⟩ :=
    retireReply_posts (s := { s with pendingCreates := s.pendingCreates.tail }) e.sid
  split
  · dsimp only
    split <;> exact ⟨.of_eq rfl rfl, rfl⟩
  · cases s.pendingCreates.head? with
    | none => exact ⟨⟨hq, hp⟩, hc⟩
    | some call =>
      dsimp only
      split
      · split <;> exact ⟨⟨hq, hp⟩, hc⟩
      · split <;> exact ⟨.of_eq rfl rfl, rfl⟩

theorem onNewStream_posts :
    ∃ l, Posts s (s.onNewStream room e) l ∧ (s.onNewStream room e).sessionClosed =
    s.sessionClosed := by
  rw [onNewStream]
  split
  · split
    · exact ⟨[], .of_eq (by simp) (by simp), by simp⟩
    · exact ⟨[], .of_eq rfl rfl, rfl⟩
  · refine ⟨[.newStream e.sid], ⟨?_, ?_⟩, ?_⟩ <;> simp only [put] <;> split <;> rfl

/-- What `_on_event` puts on the queue, and when it sets the flag. -/
theorem onEvent_posts : ∃ l, Posts s (s.onEvent room e) l ∧
    (s.onEvent room e).sessionClosed = (s.sessionClosed || e.closes) ∧
    (s.sessionClosed = false → e.closes = true → ∃ c, c.isEnd = true ∧ l = [c]) := by
  have hkeep : ∀ {t : WebTransportSession}, e.closes = false →
      t.sessionClosed = s.sessionClosed → (∃ l, Posts s t l) → ∃ l, Posts s t l ∧
        t.sessionClosed = (s.sessionClosed || e.closes) ∧
        (s.sessionClosed = false → e.closes = true → ∃ c, c.isEnd = true ∧ l = [c]) := by
    rintro t hc ht ⟨l, hl⟩
    exact ⟨l, hl, by rw [ht, hc, Bool.or_false], fun _ h => (nomatch hc.symm.trans h)⟩
  rw [onEvent]
  cases hty : e.evtType with
  | wtSessionClosed =>
    exact ⟨_, onSessionClosed_posts .., by
      simp [sessionClosed_onSessionClosed, SessionTuple.closes, hty],
      fun _ _ => ⟨_, isEnd_closedEvent .., rfl⟩⟩
  | wtCnxClosed =>
    cases hs : s.sessionClosed with
    | true => exact ⟨[], .of_eq (by simp) (by simp), by simp [hs], fun h => (nomatch h)⟩
    | false =>
      obtain ⟨hq, hp⟩ := @onSessionClosed_posts s room e.errorCode none e.isFin
      refine ⟨_, ⟨by simpa [hs] using hq, by simpa [hs] using hp⟩, ?_, fun _ _ =>
        ⟨_, isEnd_closedEvent .., rfl⟩⟩
      simp [sessionClosed_onSessionClosed, SessionTuple.closes, hty]
  | wtStreamCreated =>
    exact hkeep (by simp [SessionTuple.closes, hty]) onStreamCreated_posts.2
      ⟨_, onStreamCreated_posts.1⟩
  | wtNewStream =>
    obtain ⟨l, hl, hc⟩ := @onNewStream_posts s room e
    exact hkeep (by simp [SessionTuple.closes, hty]) hc ⟨l, hl⟩
  | wtSessionReady | wtStreamReset =>
    dsimp only
    split <;> exact hkeep (by simp [SessionTuple.closes, hty]) rfl ⟨[], .of_eq rfl rfl⟩
  | wtSessionRefused =>
    exact hkeep (by simp [SessionTuple.closes, hty]) (by simp [put])
      ⟨[.sessionRefused e.errorCode], by simp [put], by simp [put]⟩
  | wtSessionDraining | wtStopSending | wtDatagram =>
    exact hkeep (by simp [SessionTuple.closes, hty]) rfl ⟨_, rfl, rfl⟩
  | _ => exact hkeep (by simp [SessionTuple.closes, hty]) rfl ⟨[], .of_eq rfl rfl⟩

/-! ## The pending creates -/

/-- The step from `s` to `t` has nothing to do with pending creates. -/
structure Calm (s t : WebTransportSession) : Prop where
  pendingCreates : t.pendingCreates = s.pendingCreates
  futures : t.futures = s.futures
  orphanStreamCommands : t.orphanStreamCommands = s.orphanStreamCommands
  orphanCleanupTask : t.orphanCleanupTask = s.orphanCleanupTask
  sessionClosed : t.sessionClosed = s.sessionClosed
  creates : t.tx.filter SessionCommand.isCreate = s.tx.filter SessionCommand.isCreate
  retries : ∀ c ∈ t.retries, c ∈ s.retries ∨ c.isCreate = false
  asked : ∀ c ∈ s.asked, c ∈ t.asked
  streamTxCtxs : s.sessionClosed = true → ∀ sid, s.streamTxCtxs sid = 0 → t.streamTxCtxs sid = 0

/-- The step from `s` to `t` ends the session. -/
structure Shuts (s t : WebTransportSession) : Prop where
  pendingCreates : t.pendingCreates = []
  futures : ∀ c, t.futures c = s.futures c ∨ s.futures c = .pending ∧ t.futures c = .exception
  orphanStreamCommands : t.orphanStreamCommands = []
  sessionClosed : t.sessionClosed = true
  creates : t.tx.filter SessionCommand.isCreate = s.tx.filter SessionCommand.isCreate
  retries : ∀ c ∈ t.retries, c ∈ s.retries ∨ c.isCreate = false
  asked : .sessionCleanup ∈ t.asked
  streamTxCtxs : ∀ sid, t.streamTxCtxs sid = 0

theorem Calm.refl (s : WebTransportSession) : Calm s s :=
  ⟨rfl, rfl, rfl, rfl, rfl, rfl, fun _ h => Or.inl h, fun _ h => h, fun _ _ h => h⟩

theorem Calm.pushOrRetry (h : Calm s t) (hc : c.isCreate = false) :
    Calm s (t.pushOrRetry room c) := by
  simp only [WebTransportSession.pushOrRetry]
  split
  · refine { h with creates := ?_, asked := fun d hd => List.mem_append_left _ (h.asked d hd) }
    show (t.tx ++ [c]).filter _ = _
    simp [h.creates, hc]
  · refine { h with retries := ?_, asked := fun d hd => List.mem_append_left _ (h.asked d hd) }
    intro d hd
    rcases List.mem_append.1 hd with hd | hd
    · exact h.retries d hd
    · rw [List.mem_singleton.1 hd]
      exact Or.inr hc

theorem Calm.dropStreamTx (h : Calm s t) (sid : ℕ) : Calm s (t.dropStreamTx sid) := by
  refine { h with streamTxCtxs := fun hs x hx => ?_ }
  show Function.update t.streamTxCtxs sid 0 x = 0
  rw [Function.update_apply]
  split
  · rfl
  · exact h.streamTxCtxs hs x hx

theorem Calm.shuts (h : Calm s t) :
    Shuts s ({ t with sessionClosed := true }.releaseSessionResources room) := by
  have hp := @Calm.pushOrRetry s room t .sessionCleanup h rfl
  refine ⟨rfl, fun c => ?_, rfl, ?_, ?_, ?_, ?_, fun _ => rfl⟩
  · show (if c ∈ t.pendingCreates ∧ t.futures c = .pending then Future.exception else t.futures c) =
      _ ∨ _
    rw [h.futures]
    split
    · rename_i hc
      exact Or.inr ⟨hc.2, by simp [releaseSessionResources, hc]⟩
    · exact Or.inl rfl
  · exact sessionClosed_pushOrRetry
  · have hcreates := hp.creates
    simp only [WebTransportSession.pushOrRetry] at hcreates
    simp only [releaseSessionResources, WebTransportSession.pushOrRetry]
    split <;> rename_i hr <;> simp only [hr] at hcreates <;> exact hcreates
  · have hretries := hp.retries
    simp only [WebTransportSession.pushOrRetry] at hretries
    simp only [releaseSessionResources, WebTransportSession.pushOrRetry]
    split <;> rename_i hr <;> simp only [hr] at hretries <;> exact hretries
  · simp only [releaseSessionResources, WebTransportSession.pushOrRetry]
    split <;> exact List.mem_append_right _ (List.mem_singleton_self _)

theorem Shuts.pushOrRetry (h : Shuts s t) (hc : c.isCreate = false) :
    Shuts s (t.pushOrRetry room c) := by
  have hp := @Calm.pushOrRetry t room t c (Calm.refl t) hc
  refine ⟨hp.pendingCreates.trans h.pendingCreates, fun d => ?_, hp.orphanStreamCommands.trans
    h.orphanStreamCommands,
    hp.sessionClosed.trans h.sessionClosed, hp.creates.trans h.creates, fun d hd => ?_,
      hp.asked _ h.asked,
    fun sid => hp.streamTxCtxs h.sessionClosed sid (h.streamTxCtxs sid)⟩
  · rw [hp.futures]
    exact h.futures d
  · rcases hp.retries d hd with hd | hd
    · exact h.retries d hd
    · exact Or.inr hd

theorem close_shuts (errorCode : ℕ) (reason : List UInt8) (h : s.sessionClosed = false) :
    Shuts s (s.close room errorCode reason) := by
  have hclosing : Calm s ({ s with finSent := true }.pushOrRetry room (.close errorCode reason)) :=
    Calm.pushOrRetry { Calm.refl s with } rfl
  have hsame : { s with sessionClosed := true, finSent := true }.pushOrRetry room
    (.close errorCode reason) =
      { ({ s with finSent := true } : WebTransportSession).pushOrRetry room (.close errorCode reason) with
        sessionClosed := true } := by
    simp only [WebTransportSession.pushOrRetry]
    split <;> rfl
  rw [close, if_neg (by simp [h])]
  dsimp only
  rw [hsame]
  exact { @Calm.shuts _ room _ hclosing with }

theorem onSessionClosed_shuts (errorCode : ℕ) (data : Option (List UInt8)) (source : ℕ) :
    Shuts s (s.onSessionClosed room errorCode data source) := by
  have hshuts := @Calm.shuts s room s (Calm.refl s)
  have hready : Shuts s
    ({ s with sessionClosed := true }.releaseSessionResources room).failReady := by
    rw [failReady]
    split
    · exact { hshuts with }
    · exact hshuts
  rw [onSessionClosed]
  generalize ({ s with sessionClosed := true }.releaseSessionResources room).failReady = u at hready
  have hfin : Shuts s ((u.put (closedEvent errorCode data source)).answerFin room) := by
    rw [answerFin]
    split
    · exact { hready with }
    · exact Shuts.pushOrRetry { hready with } rfl
  exact { hfin with }

/-- An event that is no reply either has nothing to do with pending creates or ends the session. -/
theorem onEvent_calm_or_shuts (h : e.evtType ≠ .wtStreamCreated) :
    Calm s (s.onEvent room e) ∨ Shuts s (s.onEvent room e) := by
  have hcalm := Calm.refl s
  rw [onEvent]
  cases hty : e.evtType with
  | wtStreamCreated => exact absurd hty h
  | wtSessionClosed => exact Or.inr (onSessionClosed_shuts ..)
  | wtCnxClosed =>
    dsimp only
    split
    · exact Or.inl { hcalm with }
    · exact Or.inr { @onSessionClosed_shuts s room e.errorCode none e.isFin with }
  | wtNewStream =>
    dsimp only
    rw [onNewStream]
    split
    · split
      · exact Or.inl (hcalm.pushOrRetry rfl)
      · exact Or.inl hcalm
    · rename_i hs
      have hopen : Calm s (s.put (.newStream e.sid)) := { hcalm with }
      left
      split
      · exact { hcalm with streamTxCtxs := fun hc => absurd hc hs }
      · exact { hcalm with }
  | wtSessionReady | wtStreamReset =>
    dsimp only
    split
    all_goals first
      | exact Or.inl hcalm
      | exact Or.inl { hcalm with }
      | exact Or.inl (hcalm.dropStreamTx e.sid)
  | wtSessionRefused =>
    dsimp only
    rw [failReady]
    split <;> exact Or.inl { hcalm with }
  | wtStopSending =>
    exact Or.inl (Calm.dropStreamTx (t := s.put _) { hcalm with } e.sid)
  | streamDestroy | wtStreamDestroy => exact Or.inl (hcalm.dropStreamTx e.sid)
  | wtSessionDraining | wtDatagram => exact Or.inl { hcalm with }
  | _ => exact Or.inl hcalm

end WebTransportSession

end Aiopquic
