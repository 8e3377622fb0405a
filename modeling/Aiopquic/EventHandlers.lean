import Aiopquic.Connection
import Mathlib.Data.List.Count

/-!
# The two event handlers of a connection (`quic/connection.py`)

`_handle_raw_event` and `_enqueue_raw`, each written out branch by branch as the source has it.
`Connection` states their common branches once; the two agree with it, and so with each other on all
events but `READY` and `ALMOST_READY`.
-/

namespace Aiopquic

variable {c : QuicConnection} {t : Transport} {a : Answers} {ev : RawEvent}

/-- The handler of a client's connection. -/
def ClientPath.handleRawEvent (c : QuicConnection) (t : Transport) (a : Answers) (ev : RawEvent) :
    QuicConnection × Transport :=
  match ev.evtType with
  | .streamData | .streamFin =>
    let c := c.adoptStreamCtx ev.streamId ev.streamCtxPtr
    (c.append (.streamDataReceived ev.streamId (ev.data.getD []) (ev.evtType = .streamFin)), t)
  | .streamReset =>
    let c := c.adoptStreamCtx ev.streamId ev.streamCtxPtr
    (c.append (.streamReset ev.streamId ev.errorCode), t)
  | .stopSending =>
    let c := c.adoptStreamCtx ev.streamId ev.streamCtxPtr
    (c.append (.stopSendingReceived ev.streamId ev.errorCode), t)
  | .close | .appClose =>
    let c := { c with closed := true }
    let c := if c.terminated = false then c.appendTerminated ev else c
    let c := { c with streamTxDrainEvents := QuicConnection.setAll c.streamTxDrainEvents }
    let t := { t with ringDrainEvent := t.ringDrainEvent.map fun _ => true }
    let dropped := c.destroyStreamCtxs t
    let released := { dropped.1 with dgramTxDrainEvent := true }.releaseDgramRing dropped.2
    ({ released.1 with cnxPtr := 0 }, released.2)
  | .ready =>
    if ev.cnxPtr ≠ 0 then
      let c := { c with cnxPtr := ev.cnxPtr, connected := true, created := true }
      ((c.append (.handshakeCompleted a.alpn a.sessionResumed)).append (.protocolNegotiated a.alpn),
        t)
    else (c, t)
  | .almostReady => if ev.cnxPtr ≠ 0 then ({ c with cnxPtr := ev.cnxPtr, created := true }, t)
      else (c, t)
  | .datagram => (c.append (.datagramFrameReceived (ev.data.getD [])), t)
  | .streamTxDrained =>
    ({ c with streamTxDrainEvents := Function.update c.streamTxDrainEvents ev.streamId (some true) }, t)
  | .datagramTxDrained =>
    let c := { c with dgramTxDrainEvent := true }
    if c.dgramMarkOwed ∧ c.dgramRing ≠ 0 ∧ c.cnxPtr ≠ 0 then
      (if a.markPosts then { c with dgramMarkOwed := false } else c, t)
    else (c, t)
  | .datagramAcked => ({ c with datagramsAcked := c.datagramsAcked + 1 }, t)
  | .datagramLost => ({ c with datagramsLost := c.datagramsLost + 1 }, t)
  | .streamDestroy =>
    let c := { c with scOwned := c.scOwned.erase ev.streamCtxPtr }
    -- The event that leaves the dict is set first.
    let c := { c with
      retiredEvents := c.retiredEvents ++
        ((c.streamTxDrainEvents ev.streamId).map fun _ => true).toList }
    ({ c with
      streamCtxs := Function.update c.streamCtxs ev.streamId none
      streamTxDrainEvents := Function.update c.streamTxDrainEvents ev.streamId none }, t)
  | _ => (c, t)

/-- The handler of a server's connection, called by the engine. -/
def EnginePath.enqueueRaw (c : QuicConnection) (t : Transport) (a : Answers) (ev : RawEvent) :
    QuicConnection × Transport :=
  match ev.evtType with
  | .streamData =>
    let c := c.adoptStreamCtx ev.streamId ev.streamCtxPtr
    (c.append (.streamDataReceived ev.streamId (ev.data.getD []) false), t)
  | .streamFin =>
    let c := c.adoptStreamCtx ev.streamId ev.streamCtxPtr
    (c.append (.streamDataReceived ev.streamId (ev.data.getD []) true), t)
  | .streamReset =>
    let c := c.adoptStreamCtx ev.streamId ev.streamCtxPtr
    (c.append (.streamReset ev.streamId ev.errorCode), t)
  | .stopSending =>
    let c := c.adoptStreamCtx ev.streamId ev.streamCtxPtr
    (c.append (.stopSendingReceived ev.streamId ev.errorCode), t)
  | .close | .appClose =>
    let c := { c with closed := true }.appendTerminated ev
    let c := { c with streamTxDrainEvents := QuicConnection.setAll c.streamTxDrainEvents }
    let t := { t with ringDrainEvent := t.ringDrainEvent.map fun _ => true }
    let dropped := c.destroyStreamCtxs t
    let released := { dropped.1 with dgramTxDrainEvent := true }.releaseDgramRing dropped.2
    ({ released.1 with cnxPtr := 0 }, released.2)
  | .ready =>
    ((c.append (.handshakeCompleted a.alpn a.sessionResumed)).append (.protocolNegotiated a.alpn),
      t)
  | .datagram => (c.append (.datagramFrameReceived (ev.data.getD [])), t)
  | .streamTxDrained =>
    ({ c with streamTxDrainEvents := Function.update c.streamTxDrainEvents ev.streamId (some true) }, t)
  | .datagramTxDrained =>
    let c := { c with dgramTxDrainEvent := true }
    if c.dgramMarkOwed ∧ c.dgramRing ≠ 0 ∧ c.cnxPtr ≠ 0 then
      (if a.markPosts then { c with dgramMarkOwed := false } else c, t)
    else (c, t)
  | .datagramAcked => ({ c with datagramsAcked := c.datagramsAcked + 1 }, t)
  | .datagramLost => ({ c with datagramsLost := c.datagramsLost + 1 }, t)
  | .streamDestroy =>
    let c := { c with scOwned := c.scOwned.erase ev.streamCtxPtr }
    let c := { c with
      retiredEvents := c.retiredEvents ++
        ((c.streamTxDrainEvents ev.streamId).map fun _ => true).toList }
    ({ c with
      streamCtxs := Function.update c.streamCtxs ev.streamId none
      streamTxDrainEvents := Function.update c.streamTxDrainEvents ev.streamId none }, t)
  | _ => (c, t)

namespace QuicConnection

/-! ## One event -/

theorem handleDatagramDrained_eq :
    (let c := { c with dgramTxDrainEvent := true }
      if c.dgramMarkOwed ∧ c.dgramRing ≠ 0 ∧ c.cnxPtr ≠ 0 then
        (if a.markPosts then { c with dgramMarkOwed := false } else c, t)
      else (c, t)) = (c.handleDatagramDrained a, t) := by
  rw [handleDatagramDrained]
  by_cases h : c.dgramMarkOwed ∧ c.dgramRing ≠ 0 ∧ c.cnxPtr ≠ 0
  · cases ha : a.markPosts <;> simp [h]
  · have hno : ¬ (c.dgramMarkOwed ∧ c.dgramRing ≠ 0 ∧ c.cnxPtr ≠ 0 ∧ a.markPosts) :=
      fun h' => h ⟨h'.1, h'.2.1, h'.2.2.1⟩
    simp only [if_neg h, if_neg hno]

theorem handleRawEvent_eq : ClientPath.handleRawEvent c t a ev = c.handleRawEvent t a ev := by
  rw [ClientPath.handleRawEvent, handleRawEvent, handleCommon]
  cases hty : ev.evtType with
  | close | appClose =>
    -- `_append_terminated` tests the flag that the client's handler tests before it.
    obtain ⟨cnxPtr, connected, created, closed, terminated⟩ := c
    cases terminated <;> rfl
  | datagramTxDrained => exact handleDatagramDrained_eq
  | ready | almostReady =>
    dsimp only
    split
    · rfl
    · rename_i h
      rw [if_pos (not_not.1 h)]
  | _ => rfl

theorem enqueueRaw_eq : EnginePath.enqueueRaw c t a ev = c.enqueueRaw t a ev := by
  rw [EnginePath.enqueueRaw, enqueueRaw, handleCommon]
  cases hty : ev.evtType with
  | datagramTxDrained => exact handleDatagramDrained_eq
  | _ => rfl

/-! ## Sequences of events -/

/-- The events of a sequence handled in turn, each with what the transport answers meanwhile. -/
def handleAll (handle : QuicConnection → Transport → Answers → RawEvent →
    QuicConnection × Transport)
    (s : QuicConnection × Transport) (evs : List (RawEvent × Answers)) :
    QuicConnection × Transport :=
  evs.foldl (fun s e => handle s.1 s.2 e.2 e.1) s

variable {d : QuicConnection} {u : Transport} {evs : List (RawEvent × Answers)}

/-- `d` comes after `c`, with at most one `ConnectionTerminated` queued in between, and none if `c`
is terminated. -/
structure Ends (c d : QuicConnection) : Prop where
  appended : ∃ l, d.events = c.events ++ l ∧ l.countP QuicEvent.isTerminated ≤ d.terminated.toNat -
    c.terminated.toNat
  keeps : c.terminated = true → d.terminated = true

theorem Ends.refl (c : QuicConnection) : Ends c c := ⟨⟨[], by simp, by simp⟩, id⟩

theorem Ends.toNat_le (h : Ends c d) : c.terminated.toNat ≤ d.terminated.toNat := by
  cases hc : c.terminated with
  | false => exact Nat.zero_le _
  | true => rw [h.keeps hc]

theorem Ends.trans {e : QuicConnection} (h : Ends c d) (h' : Ends d e) : Ends c e := by
  obtain ⟨l, hl, hn⟩ := h.appended
  obtain ⟨m, hm, hn'⟩ := h'.appended
  refine ⟨⟨l ++ m, by rw [hm, hl, List.append_assoc], ?_⟩, fun hc => h'.keeps (h.keeps hc)⟩
  have hcd := h.toNat_le
  have hde := h'.toNat_le
  rw [List.countP_append]
  omega

/-- An event that is no close queues at most one `QuicEvent`, no `ConnectionTerminated`. -/
theorem Ends.of_append {l : List QuicEvent} (hl : l.countP QuicEvent.isTerminated = 0)
    (he : d.events = c.events ++ l) (ht : d.terminated = c.terminated) : Ends c d :=
  ⟨⟨l, he, by rw [hl]; exact Nat.zero_le _⟩, fun hc => ht.trans hc⟩

theorem ends_appendTerminated : Ends c (c.appendTerminated ev) := by
  rw [appendTerminated]
  split
  · exact .refl c
  · rename_i ht
    have hc : c.terminated = false := by simpa using ht
    refine ⟨⟨_, rfl, ?_⟩, fun _ => rfl⟩
    rw [hc]
    exact List.countP_le_length

theorem ends_adoptStreamCtx (streamId sc : ℕ) : Ends c (c.adoptStreamCtx streamId sc) := by
  rw [adoptStreamCtx]
  split
  · exact .of_append (l := []) rfl (List.append_nil _).symm rfl
  · exact .refl c

theorem ends_append {event : QuicEvent} (h : event.isTerminated = false) :
    Ends c (c.append event) :=
  .of_append (l := [event]) (by simp [h]) rfl rfl

theorem ends_handleClose : Ends c (c.handleClose t ev).1 := by
  have happ : Ends { c with closed := true } ({ c with closed := true }.appendTerminated ev) :=
    ends_appendTerminated
  rw [handleClose]
  dsimp only
  rw [releaseDgramRing_fst]
  exact { appended := happ.appended, keeps := happ.keeps }

theorem ends_handleCommon : Ends c (c.handleCommon t a ev).1 := by
  rw [handleCommon]
  cases hty : ev.evtType with
  | streamData | streamFin | streamReset | stopSending =>
    exact (ends_adoptStreamCtx _ _).trans
      (ends_append rfl)
  | close | appClose => exact ends_handleClose
  | datagram => exact ends_append rfl
  | _ => exact .of_append (l := []) rfl (List.append_nil _).symm rfl

/-- No `READY` and no `ALMOST_READY`. -/
def Shared (evs : List (RawEvent × Answers)) : Prop :=
  ∀ e ∈ evs, e.1.evtType ≠ .ready ∧ e.1.evtType ≠ .almostReady

theorem handleRawEvent_shared (h : ev.evtType ≠ .ready ∧ ev.evtType ≠ .almostReady) :
    ClientPath.handleRawEvent c t a ev = c.handleCommon t a ev := by
  rw [handleRawEvent_eq, handleRawEvent]
  cases hty : ev.evtType with
  | ready => exact absurd hty h.1
  | almostReady => exact absurd hty h.2
  | _ => rfl

theorem enqueueRaw_shared (h : ev.evtType ≠ .ready) :
    EnginePath.enqueueRaw c t a ev = c.handleCommon t a ev := by
  rw [enqueueRaw_eq, enqueueRaw]
  cases hty : ev.evtType with
  | ready => exact absurd hty h
  | _ => rfl

/-- A client's and a server's connection do the same with a sequence of events, `READY` and
`ALMOST_READY` apart, and queue at most one `ConnectionTerminated`. -/
theorem handlers_agree (c : QuicConnection) (t : Transport) (evs : List (RawEvent × Answers))
    (h : Shared evs) :
    handleAll ClientPath.handleRawEvent (c, t) evs = handleAll EnginePath.enqueueRaw (c, t) evs ∧
      ∃ l, (handleAll EnginePath.enqueueRaw (c, t) evs).1.events = c.events ++ l ∧
        l.countP QuicEvent.isTerminated ≤ if c.terminated then 0 else 1 := by
  have hrun : ∀ (evs : List (RawEvent × Answers)) (s : QuicConnection × Transport), Shared evs →
      handleAll ClientPath.handleRawEvent s evs = handleAll EnginePath.enqueueRaw s evs ∧
        Ends s.1 (handleAll EnginePath.enqueueRaw s evs).1 := by
    intro evs
    induction evs with
    | nil => exact fun s _ => ⟨rfl, .refl s.1⟩
    | cons e evs ih =>
      intro s h
      obtain ⟨he, hevs⟩ := List.forall_mem_cons.1 h
      obtain ⟨heq, hends⟩ := ih (EnginePath.enqueueRaw s.1 s.2 e.2 e.1) hevs
      have hone : ClientPath.handleRawEvent s.1 s.2 e.2 e.1 = EnginePath.enqueueRaw s.1 s.2
        e.2 e.1 := by
        rw [handleRawEvent_shared he, enqueueRaw_shared he.1]
      refine ⟨?_, Ends.trans ?_ hends⟩
      · show handleAll _ (ClientPath.handleRawEvent s.1 s.2 e.2 e.1) evs = _
        rw [hone]
        exact heq
      · rw [enqueueRaw_shared he.1]
        exact ends_handleCommon
  obtain ⟨heq, hends⟩ := hrun evs (c, t) h
  obtain ⟨l, hl, hn⟩ := hends.appended
  refine ⟨heq, l, hl, hn.trans ?_⟩
  have := Bool.toNat_le (handleAll EnginePath.enqueueRaw (c, t) evs).1.terminated
  cases c.terminated <;> simp <;> omega

/-- Data on a stream, a close of the application, the transport's close, and an event of the closed
connection. -/
def closedTwice : List (RawEvent × Answers) :=
  [({ evtType := .streamFin, streamId := 4, data := some [1], streamCtxPtr := 7 }, {}),
    ({ evtType := .appClose, errorCode := 3 }, {}), ({ evtType := .close }, {}),
    ({ evtType := .streamData, streamId := 8, streamCtxPtr := 9 }, {})]

theorem handlers_agree_closedTwice : Shared closedTwice ∧
    handleAll ClientPath.handleRawEvent (.ofEngine 1, {}) closedTwice =
      handleAll EnginePath.enqueueRaw (.ofEngine 1, {}) closedTwice :=
  have h : Shared closedTwice := by
    unfold Shared
    decide
  ⟨h, (handlers_agree (.ofEngine 1) {} closedTwice h).1⟩

end QuicConnection

end Aiopquic
