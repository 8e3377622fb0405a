import Aiopquic.Connection

/-!
# The worker's callback (`aiopquic_stream_cb`, `callback.h`)

picoquic calls it for everything that happens on a raw connection. `streamCb` is the event that a
callback queues for Python, if it queues one.
-/

namespace Aiopquic

/-- `picoquic_call_back_event_t`, as far as `aiopquic_stream_cb` tells its values apart. -/
inductive PicoquicCallback
  | streamData | streamFin | streamReset | stopSending | statelessReset | close | applicationClose
  | prepareToSend | almostReady | ready | datagram | prepareDatagram | datagramAcked | datagramLost
  | datagramSpurious | pathAvailable | pathSuspended | pathDeleted | pacingChanged | streamReleased
  | requestAlpnList | other
  deriving DecidableEq, Repr

/-- A callback on a connection. `closing` is `aiopquic_cnx_closing`. `streamCtx` is the context of
the stream, one made in the callback included, and `bytes` what Python will get. `notifies` is false
for bytes that an event already queued will deliver, or that the stream's ring refused, and for a
pull that found no drain flag to take. -/
structure Callback where
  event : PicoquicCallback
  streamId : ℕ := 0
  streamCtx : ℕ := 0
  bytes : Option (List UInt8) := none
  errorCode : ℕ := 0
  localCause : Bool := false
  closing : Bool := false
  notifies : Bool := true

/-- `aiopquic_map_event`. -/
def mapEvent : PicoquicCallback → Option EventType
  | .streamData => some .streamData
  | .streamFin => some .streamFin
  | .streamReset => some .streamReset
  | .stopSending => some .stopSending
  | .close => some .close
  | .applicationClose => some .appClose
  | .ready => some .ready
  | .almostReady => some .almostReady
  | .datagram => some .datagram
  | .datagramAcked => some .datagramAcked
  | .datagramLost => some .datagramLost
  | .datagramSpurious => some .datagramAcked
  | .pathAvailable => some .pathAvailable
  | .pathSuspended => some .pathSuspended
  | .pathDeleted => some .pathDeleted
  | .pacingChanged => some .pacingChanged
  | _ => none

namespace Callback

/-- The callbacks that the closing guard holds back. -/
def onStream (cb : Callback) : Prop :=
  cb.event = .streamData ∨ cb.event = .streamFin ∨ cb.event = .streamReset ∨ cb.event =
    .stopSending ∨
    cb.event = .streamReleased

instance (cb : Callback) : Decidable cb.onStream := inferInstanceAs (Decidable (_ ∨ _))

/-- `has_payload`. -/
def hasPayload (cb : Callback) : Prop :=
  (cb.event = .streamData ∨ cb.event = .streamFin) ∧ cb.bytes ≠ none ∧ cb.bytes ≠ some []

instance (cb : Callback) : Decidable cb.hasPayload := inferInstanceAs (Decidable (_ ∧ _))

/-- The two callbacks that have an event of their own for the end of a connection. -/
def closes (cb : Callback) : Bool := cb.event = .close ∨ cb.event = .applicationClose

/-- The callbacks that tell Python nothing: a stateless reset, one that only the worker answers, a
stream callback while the connection closes, and one with nothing new to say. -/
def silent (cb : Callback) : Prop :=
  cb.event = .statelessReset ∨ cb.event = .requestAlpnList ∨ cb.event = .other ∨ cb.onStream ∧
    cb.closing ∨
    (cb.event = .prepareToSend ∨ cb.event = .streamReleased) ∧ cb.streamCtx = 0 ∨
      (cb.event = .prepareToSend ∨ cb.event = .prepareDatagram ∨ cb.hasPayload) ∧
        cb.notifies = false

instance (cb : Callback) : Decidable cb.silent := inferInstanceAs (Decidable (_ ∨ _))

end Callback

/-- The event that `aiopquic_stream_cb` queues for a callback on `cnx`, if it queues one. -/
def streamCb (cnx : ℕ) (cb : Callback) : Option RawEvent :=
  if cb.event = .requestAlpnList then none
  else if cb.event = .prepareToSend then
    if cb.streamCtx ≠ 0 ∧ cb.notifies then
      some { evtType := .streamTxDrained, streamId := cb.streamId, cnxPtr := cnx }
    else none
  else if cb.onStream ∧ cb.closing then none
  else if cb.event = .streamReleased then
    if cb.streamCtx ≠ 0 then
      some { evtType := .streamDestroy, streamId := cb.streamId, cnxPtr := cnx, streamCtxPtr := cb.streamCtx }
    else none
  else if cb.event = .prepareDatagram then
    if cb.notifies then some { evtType := .datagramTxDrained, cnxPtr := cnx } else none
  else
    match mapEvent cb.event with
    | none => none
    | some evt =>
      if cb.hasPayload ∧ cb.notifies = false then none
      else
        some
          { evtType := evt
            streamId := cb.streamId
            data := cb.bytes
            isFin := if cb.event = .close ∧ cb.localCause then QuicConnection.closeLocal else 0
            errorCode := cb.errorCode
            cnxPtr := cnx
            streamCtxPtr := cb.streamCtx }

theorem streamCb_cnx {cnx : ℕ} {cb : Callback} {ev : RawEvent} (h : streamCb cnx cb = some ev) :
    ev.cnxPtr = cnx := by
  unfold streamCb at h
  repeat' split at h
  all_goals cases h
  all_goals rfl

/-- A stream's context and number are all that an event names of a stream. -/
theorem streamCb_names {cnx : ℕ} {cb : Callback} {ev : RawEvent} (h : streamCb cnx cb = some ev) :
    ev.streamCtxPtr = 0 ∨ ev.streamCtxPtr = cb.streamCtx ∧ ev.streamId = cb.streamId := by
  unfold streamCb at h
  repeat' split at h
  all_goals cases h
  all_goals simp

theorem mapEvent_ne_streamDestroy (event : PicoquicCallback) :
    mapEvent event ≠ some .streamDestroy := by
  cases event <;> simp [mapEvent]

/-- `STREAM_DESTROY` is the event of a released stream. -/
theorem streamCb_destroy {cnx : ℕ} {cb : Callback} {ev : RawEvent} (h : streamCb cnx cb = some ev)
    (hev : ev.evtType = .streamDestroy) : cb.event = .streamReleased := by
  by_contra hne
  unfold streamCb at h
  simp only [hne, if_false] at h
  repeat' split at h
  all_goals cases h
  all_goals simp only [reduceCtorEq] at hev
  all_goals
    rename_i hmap _ _
    subst hev
    exact mapEvent_ne_streamDestroy _ hmap

/-- A callback queues no event exactly when it is silent. -/
theorem streamCb_eq_none_iff (cnx : ℕ) (cb : Callback) : streamCb cnx cb = none ↔ cb.silent := by
  obtain ⟨event, sid, sc, bytes, err, lc, closing, notifies⟩ := cb
  cases event <;>
    simp [streamCb, Callback.silent, Callback.onStream, Callback.hasPayload, mapEvent] <;>
    grind

theorem streamCb_isClose {cnx : ℕ} {cb : Callback} {ev : RawEvent} (h : streamCb cnx cb = some ev) :
    ev.isClose = cb.closes := by
  obtain ⟨event, sid, sc, bytes, err, lc, closing, notifies⟩ := cb
  cases event <;>
    simp only [streamCb, Callback.onStream, Callback.hasPayload, mapEvent, reduceCtorEq,
      if_false, if_true,
      false_or, or_false, false_and, Option.ite_none_left_eq_some, Option.ite_none_right_eq_some,
      Option.some.injEq] at h <;>
    first
    | exact h.elim
    | cases h
      rfl
    | obtain ⟨-, h⟩ := h
      first
      | cases h
        rfl
      | obtain ⟨-, h⟩ := h
        cases h
        rfl

end Aiopquic
