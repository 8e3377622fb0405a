import Aiopquic.Lib.Steps
import Mathlib.Data.List.Count

/-!
# The end of a WebTransport session on the worker

`aiopquic_wt_session_t` with what picoquic, h3zero and the TX commands do to it. Seven places end a
session; each tests and sets `session_closing`, so that the asyncio side hears of one end.

The state starts with the CONNECT sent or accepted. The streams of the session, the texts of a close
and what goes on the wire are left out. A pointer is whether it is set; once the session is freed
nothing reaches it.
-/

namespace Aiopquic

/-- `AIOPQUIC_WT_CLOSE_SESSION`, `_APPLICATION` and `_TRANSPORT`. -/
inductive CloseSource
  | session
  | application
  | transport
  deriving DecidableEq, Repr

/-- The session's events for asyncio; `isLocal` is `AIOPQUIC_CLOSE_LOCAL`. -/
inductive SessionEvent
  | ready
  | refused (errorCode : ℕ)
  | closed (errorCode : ℕ) (source : CloseSource) (isLocal : Bool)
  | draining
  | stopSending (errorCode : ℕ)
  | cnxClosed (errorCode : ℕ) (source : CloseSource) (isLocal : Bool)
  deriving DecidableEq, Repr

/-- `SPSC_EVT_WT_SESSION_CLOSED`. -/
def SessionEvent.isClosed : SessionEvent → Bool
  | .closed _ _ _ => true
  | _ => false

structure WtSession where
  client : Bool
  cnx : Bool := true
  h3Ctx : Bool := true
  controlStream : Bool := true
  sessionReady : Bool := false
  sessionClosing : Bool := false
  finSent : Bool := false
  peerFin : Bool := false
  /-- `close_deadline` is set. -/
  closeDeadline : Bool := false
  cleanupDone : Bool := false
  /-- A retry of the CONNECT is left. -/
  connectAuthority : Bool := false
  /-- The callback of the CONNECT stream and the stream prefix are the session's. -/
  hooked : Bool := true
  declared : Bool := true
  freed : Bool := false
  events : List SessionEvent := []
  /-- History: a `TX_WT_CLOSE`, `TX_WT_FIN` or `TX_WT_DEREGISTER` was taken, and what was queued
  from then on; the CONNECT failed for good; CONNECT or the connection is over; the peer or the
  connection ended the session before any of this. -/
  localEnd : Bool := false
  afterLocal : List SessionEvent := []
  refused : Bool := false
  ceased : Bool := false
  ended : Bool := false

/-- What became of a retry of the CONNECT: no new stream, a stream but no request, with the
session's callbacks on it or not, or a request. -/
inductive Retry
  | noStream
  | failed (kept : Bool)
  | sent
  deriving DecidableEq, Repr

/-- A complete capsule that `picowt_receive_capsule` has stored. -/
inductive Capsule
  | close (errorCode : ℕ)
  | drain
  | other
  deriving DecidableEq, Repr

/-- The callbacks of h3zero about the CONNECT stream. `webtransport` is whether the server's
settings have it. -/
inductive PathEvent
  | connectAccepted
  | connectRefused (status : ℕ) (webtransport : Bool) (retry : Retry)
  | drain
  | postData (capsule : Option Capsule)
  | postFin (capsule : Option Capsule)
  | reset (remoteError : ℕ) (webtransport : Bool) (retry : Retry)
  | stopSending (remoteError : ℕ) (webtransport : Bool) (retry : Retry)
  | deregister
  | free
  deriving DecidableEq, Repr

/-- The connection callbacks that `aiopquic_wt_cnx_cb` looks at, with what picoquic says of the
close. -/
inductive CnxEvent
  | appWakeup
  | close (remoteError localError : ℕ)
  | applicationClose (applicationError : ℕ)
  | statelessReset
  deriving DecidableEq, Repr

/-- The session's TX commands; `isFinSent` is h3zero's flag, `alive` is `aiopquic_cnx_is_alive`. -/
inductive TxCommand
  | close (sent : Bool)
  | fin
  | sessionCleanup
  | deregister (alive : Bool)
  deriving DecidableEq, Repr

namespace WtSession

variable {s t : WtSession}

def push (s : WtSession) (e : SessionEvent) : WtSession := { s with events := s.events ++ [e] }

/-- An end of the session: one event, and only for the first. -/
def pushClosed (s : WtSession) (errorCode : ℕ) (source : CloseSource) (isLocal : Bool) :
    WtSession :=
  let s := if s.sessionClosing then s else s.push (.closed errorCode source isLocal)
  { s with sessionClosing := true }

/-- `aiopquic_wt_maybe_close_cnx`. -/
def maybeCloseCnx (s : WtSession) : WtSession :=
  if s.cnx ∧ s.client ∧ s.finSent ∧ s.cleanupDone then { s with closeDeadline := true } else s

/-- `aiopquic_wt_peer_fin`. -/
def peerFinished (s : WtSession) : WtSession := maybeCloseCnx { s with peerFin := true }

/-- `aiopquic_wt_fin_sent`. -/
def finished (s : WtSession) : WtSession := maybeCloseCnx
    { s with finSent := true, sessionClosing := true }

/-- `aiopquic_wt_retry_connect`, `none` where it returns `0`. -/
def retryConnect (s : WtSession) (webtransport : Bool) (retry : Retry) : Option WtSession :=
  if s.connectAuthority = false ∨ s.sessionReady ∨ s.sessionClosing ∨ s.h3Ctx = false ∨
    webtransport = false then
    none
  else
    let s := { s with connectAuthority := false }
    match retry with
    | .noStream => some
        (push { s with controlStream := false, hooked := false, declared := false, refused := true }
          (.refused 5))
    | .failed kept => some
        (push { s with controlStream := true, hooked := kept, declared := kept, refused := true }
          (.refused 5))
    | .sent => some { s with controlStream := true, hooked := true, declared := true }

/-- The code that a FIN with a capsule carries. -/
def closeCode : Option Capsule → ℕ
  | some (.close errorCode) => errorCode
  | _ => 0

/-- `aiopquic_wt_path_callback` on the CONNECT stream. -/
def pathCallback (s : WtSession) : PathEvent → WtSession
  | .connectAccepted => push { s with sessionReady := true } .ready
  | .connectRefused status webtransport retry =>
    (s.retryConnect webtransport retry).getD (s.push (.refused status))
  | .drain => s.push .draining
  | .postData capsule =>
    match capsule with
    | some (.close errorCode) => s.pushClosed errorCode .session false
    | some .drain => s.push .draining
    | some .other | none => s
  | .postFin capsule => (s.pushClosed (closeCode capsule) .session false).peerFinished
  | .reset remoteError webtransport retry =>
    (s.retryConnect webtransport retry).getD (s.pushClosed remoteError .session false).peerFinished
  | .stopSending remoteError webtransport retry =>
    (s.retryConnect webtransport retry).getD (s.push (.stopSending remoteError))
  | .deregister => { s.pushClosed 0 .session false with cnx := false, h3Ctx := false, controlStream := false }
  | .free => { s with controlStream := false }

/-- The close that a connection callback tells of: its code, source, and whether the cause is
local. -/
def closeCause : CnxEvent → ℕ × CloseSource × Bool
  | .close remoteError localError =>
    if remoteError = 0 ∧ localError ≠ 0 then (localError, .transport, true)
      else (remoteError, .transport, false)
  | .applicationClose applicationError => (applicationError, .application, false)
  | .appWakeup | .statelessReset => (0, .transport, false)

/-- `aiopquic_wt_cnx_cb` for the session that a stream prefix names. -/
def cnxCallback (s : WtSession) (event : CnxEvent) : WtSession :=
  if s.declared = false then s
  else
    match event with
    | .appWakeup => if s.client then { s with closeDeadline := false } else s
    | _ =>
      let (errorCode, source, isLocal) := closeCause event
      let s := s.pushClosed errorCode source isLocal
      if s.client then s.push (.cnxClosed errorCode source isLocal)
      else { s with cnx := false, h3Ctx := false, controlStream := false }

/-- `aiopquic_wt_handle_tx`. h3zero hands the session a deregister when its prefix goes. -/
def handleTx (s : WtSession) : TxCommand → WtSession
  | .close sent =>
    if s.cnx = false ∨ s.controlStream = false then s
    else
      let s := { s with sessionClosing := true }
      if sent then s.finished else s
  | .fin => if s.cnx = false ∨ s.controlStream = false then s else s.finished
  | .sessionCleanup => maybeCloseCnx { s with cleanupDone := true }
  | .deregister alive =>
    let s :=
      if s.cnx ∧ s.h3Ctx ∧ alive then
        let s := { s with hooked := s.hooked && !s.controlStream, sessionClosing := true }
        if s.declared then { s.pathCallback .deregister with declared := false } else s
      else s
    { s with freed := true }

inductive Act
  | path (event : PathEvent)
  | cnx (event : CnxEvent)
  | tx (command : TxCommand)
  deriving DecidableEq, Repr

/-- A command that ends the session from this side. -/
def Act.endsHere : Act → Bool
  | .tx (.close _) | .tx .fin | .tx (.deregister _) => true
  | _ => false

/-- A callback that ends the session from the other side. A reset that the retry takes up does
not. -/
def endsThere (s : WtSession) : Act → Bool
  | .path (.postData (some (.close _))) | .path (.postFin _) | .path .deregister => true
  | .path (.reset _ webtransport retry) => (s.retryConnect webtransport retry).isNone
  | .cnx .appWakeup => false
  | .cnx _ => true
  | _ => false

/-- h3zero calls back about CONNECT while the session's callback is on it, hands a deregister to the
session that a prefix names, and frees CONNECT when it or the connection is over. -/
def Reaches (s : WtSession) : Act → Prop
  | .path .deregister => s.declared = true
  | .path .free => s.hooked = true ∧ s.ceased = true
  | .path _ => s.hooked = true
  | _ => True

instance (s : WtSession) : ∀ act, Decidable (s.Reaches act)
  | .path .deregister => inferInstanceAs (Decidable (_ = true))
  | .path .free => inferInstanceAs (Decidable (_ ∧ _))
  | .path .connectAccepted | .path (.connectRefused _ _ _) | .path .drain | .path (.postData _) |
    .path (.postFin _)
  | .path (.reset _ _ _) | .path (.stopSending _ _ _) => inferInstanceAs (Decidable (_ = true))
  | .cnx _ | .tx _ => inferInstanceAs (Decidable True)

def run (s : WtSession) : Act → WtSession
  | .path .deregister => { s.pathCallback .deregister with declared := false }
  | .path .free => { s.pathCallback .free with hooked := false }
  | .path event => s.pathCallback event
  | .cnx event => s.cnxCallback event
  | .tx command => s.handleTx command

/-- The histories after a step from `s` to `t`. -/
def record (s t : WtSession) (act : Act) : WtSession :=
  { t with
    localEnd := s.localEnd || act.endsHere
    afterLocal := if s.localEnd || act.endsHere then s.afterLocal ++ t.events.drop s.events.length
      else s.afterLocal
    ceased := s.ceased || s.endsThere act
    ended := s.ended || (s.endsThere act && !s.localEnd && !s.refused) }

def step (s : WtSession) (act : Act) : Option WtSession :=
  if s.freed = false ∧ s.Reaches act then some (s.record (s.run act) act) else none

/-- The state when the CONNECT is sent, with or without a retry left, or accepted. -/
def init (client retry : Bool) : WtSession :=
  { client := client, sessionReady := !client, connectAuthority := client && retry }

/-! ## What a step does -/

/-- h3zero calls the session back no more: neither CONNECT nor a prefix has it. -/
def Gone (s : WtSession) : Prop := s.declared = false ∧ s.hooked = false

/-- Where a pointer is gone, so is the session's end, or its callbacks. -/
structure Pointers (s : WtSession) : Prop where
  cnx : s.cnx = false → s.sessionClosing = true
  control : s.controlStream = false → s.sessionClosing = true ∨ s.Gone
  declared : s.declared = false → s.sessionClosing = true ∨ s.refused = true
  hooked : s.hooked = true → s.declared = true ∨ s.sessionClosing = true
  ceased : s.ceased = true → s.sessionClosing = true ∨ s.Gone

theorem pointers_of_closing (h : s.sessionClosing = true) : s.Pointers :=
  ⟨fun _ => h, fun _ => .inl h, fun _ => .inl h, fun _ => .inr h, fun _ => .inl h⟩

def closings (events : List SessionEvent) : ℕ := events.countP (·.isClosed)

@[simp] theorem closings_append (l l' : List SessionEvent) : closings (l ++ l') = closings l +
    closings l' :=
  List.countP_append

/-- A step of the session, up to the histories. -/
structure Effect (s : WtSession) (act : Act) (t : WtSession) : Prop where
  events : ∃ new, t.events = s.events ++ new ∧
    closings new = if s.sessionClosing = false ∧ t.sessionClosing = true ∧ act.endsHere = false
      then 1 else 0
  silent : s.Gone → t.events = s.events
  closing : s.sessionClosing = true → t.sessionClosing = true
  refused : s.refused = true → t.refused = true
  histories : t.localEnd = s.localEnd ∧ t.afterLocal = s.afterLocal ∧ t.ceased = s.ceased ∧
    t.ended = s.ended
  gone : s.Gone → t.Gone
  pointers : t.Pointers
  here : act.endsHere = true → t.sessionClosing = true ∨ t.Gone ∨ t.freed = true
  there : s.endsThere act = true → t.sessionClosing = true ∨ t.Gone ∧ s.refused = true

variable {act : Act}

/-- A step that ends the session, or comes after its end. -/
theorem effect_of_closing (hclosing : t.sessionClosing = true)
    (hevents : ∃ new, t.events = s.events ++ new ∧
      closings new = if s.sessionClosing = false ∧ act.endsHere = false then 1 else 0)
    (hsilent : s.Gone → t.events = s.events) (hrefused : t.refused = s.refused)
    (hhistories : t.localEnd = s.localEnd ∧ t.afterLocal = s.afterLocal ∧ t.ceased = s.ceased ∧
    t.ended = s.ended)
    (hgone : s.Gone → t.Gone) : Effect s act t := by
  obtain ⟨new, hnew, hcount⟩ := hevents
  refine ⟨⟨new, hnew, ?_⟩, hsilent, fun _ => hclosing, hrefused.trans, hhistories, hgone,
    pointers_of_closing hclosing, fun _ => .inl hclosing, fun _ => .inl hclosing⟩
  rw [hcount]
  simp [hclosing]

/-- The fields that h3zero's callbacks and the session's end rest on. -/
structure SameEnd (s t : WtSession) : Prop where
  closing : t.sessionClosing = s.sessionClosing
  pointers : t.cnx = s.cnx ∧ t.controlStream = s.controlStream ∧ t.declared = s.declared ∧
    t.hooked = s.hooked
  refused : t.refused = s.refused
  histories : t.localEnd = s.localEnd ∧ t.afterLocal = s.afterLocal ∧ t.ceased = s.ceased ∧
    t.ended = s.ended

theorem SameEnd.gone (h : SameEnd s t) : t.Gone ↔ s.Gone := by
  obtain ⟨-, -, hdeclared, hhooked⟩ := h.pointers
  rw [Gone, Gone, hdeclared, hhooked]

theorem SameEnd.sound (h : SameEnd s t) (hs : s.Pointers) : t.Pointers := by
  obtain ⟨hcnx, hcontrol, hdeclared, hhooked⟩ := h.pointers
  refine ⟨?_, ?_, ?_, ?_, ?_⟩
  · rw [hcnx, h.closing]
    exact hs.cnx
  · rw [hcontrol, h.closing, h.gone]
    exact hs.control
  · rw [hdeclared, h.closing, h.refused]
    exact hs.declared
  · rw [hhooked, hdeclared, h.closing]
    exact hs.hooked
  · rw [h.histories.2.2.1, h.closing, h.gone]
    exact hs.ceased

/-- A step that leaves the session's end and h3zero's callbacks alone. -/
theorem effect_of_same {new : List SessionEvent} (hs : s.Pointers) (hsame : SameEnd s t)
    (hevents : t.events = s.events ++ new) (hnew : closings new = 0) (hsilent : s.Gone → new = [])
    (hhere : act.endsHere = true → t.sessionClosing = true ∨ t.Gone ∨ t.freed = true)
    (hthere : s.endsThere act = true → t.sessionClosing = true ∨ t.Gone ∧ s.refused = true) :
    Effect s act t := by
  refine ⟨⟨new, hevents, ?_⟩, fun h => ?_, hsame.closing.trans, hsame.refused.trans,
    hsame.histories, hsame.gone.2,
    hsame.sound hs, hhere, hthere⟩
  · rw [hnew, hsame.closing, if_neg]
    rintro ⟨hopen, hclosed, -⟩
    exact absurd (hopen.symm.trans hclosed) (by simp)
  · rw [hevents, hsilent h, List.append_nil]

/-! ## The callbacks of h3zero -/

/-- The CONNECT is tried again. -/
theorem effect_retryConnect {event : PathEvent} {webtransport : Bool} {retry : Retry}
    (hs : s.Pointers)
    (hhooked : s.hooked = true) (hretry : s.retryConnect webtransport retry = some t)
    (hthere : s.endsThere (.path event) = true → (s.retryConnect webtransport retry).isNone =
    true) :
    Effect s (.path event) t := by
  have hthere' : s.endsThere (.path event) = true → t.sessionClosing = true ∨ t.Gone ∧
    s.refused = true := by
    intro h
    have hnone := hthere h
    rw [hretry] at hnone
    exact absurd hnone (by simp)
  have hnotgone : ¬ s.Gone := fun h => absurd (h.2.symm.trans hhooked) (by simp)
  rw [retryConnect] at hretry
  split at hretry
  · exact absurd hretry (by simp)
  rename_i hopen
  simp only [not_or, Bool.not_eq_true] at hopen
  have hclosing : s.sessionClosing = false := hopen.2.2.1
  have hover : s.ceased = true → s.sessionClosing = true := fun h =>
    (hs.ceased h).resolve_right hnotgone
  cases retry with
  | noStream =>
    cases hretry
    refine ⟨⟨[.refused 5], rfl, by simp [push, hclosing, closings, SessionEvent.isClosed]⟩, fun h =>
      absurd h hnotgone,
      id, fun _ => rfl, ⟨rfl, rfl, rfl, rfl⟩, fun h => absurd h hnotgone, ?_, (nomatch ·), hthere'⟩
    exact ⟨hs.cnx, fun _ => .inr ⟨rfl, rfl⟩, fun _ => .inr rfl, (nomatch ·), fun h =>
      .inl (hover h)⟩
  | failed kept =>
    cases hretry
    refine ⟨⟨[.refused 5], rfl, by simp [push, hclosing, closings, SessionEvent.isClosed]⟩, fun h =>
      absurd h hnotgone,
      id, fun _ => rfl, ⟨rfl, rfl, rfl, rfl⟩, fun h => absurd h hnotgone, ?_, (nomatch ·), hthere'⟩
    exact ⟨hs.cnx, (nomatch ·), fun _ => .inr rfl, .inl, fun h => .inl (hover h)⟩
  | sent =>
    cases hretry
    refine ⟨⟨[], (List.append_nil _).symm, by simp [hclosing, closings]⟩, fun _ => rfl,
      id, id, ⟨rfl, rfl, rfl, rfl⟩, fun h => absurd h hnotgone, ?_, (nomatch ·), hthere'⟩
    exact ⟨hs.cnx, (nomatch ·), (nomatch ·), fun _ => .inl rfl, fun h => .inl (hover h)⟩

theorem pushClosed_eq (s : WtSession) (errorCode : ℕ) (source : CloseSource) (isLocal : Bool) :
    s.pushClosed errorCode source isLocal =
      { s with events := (s.pushClosed errorCode source isLocal).events, sessionClosing := true } := by
  rw [pushClosed]
  dsimp only
  split <;> rfl

theorem pushClosed_events (s : WtSession) (errorCode : ℕ) (source : CloseSource) (isLocal : Bool) :
    ∃ new, (s.pushClosed errorCode source isLocal).events = s.events ++ new ∧
      closings new = if s.sessionClosing = false then 1 else 0 := by
  rw [pushClosed]
  dsimp only
  split
  · rename_i hclosing
    exact ⟨[], (List.append_nil _).symm, by simp [hclosing, closings]⟩
  · rename_i hclosing
    exact ⟨[.closed errorCode source isLocal],
      rfl, by simp [hclosing, closings, SessionEvent.isClosed]⟩

theorem maybeCloseCnx_eq (s : WtSession) :
    s.maybeCloseCnx = { s with closeDeadline := s.maybeCloseCnx.closeDeadline } := by
  rw [maybeCloseCnx]
  split <;> rfl

/-- A callback that queues the session's end, unless that is queued, and touches the pointers
only. -/
theorem effect_pushClosed {errorCode : ℕ} {source : CloseSource} {isLocal : Bool}
    {more : List SessionEvent}
    (hnotgone : ¬ s.Gone) (hlocal : act.endsHere = false) (hclosing : t.sessionClosing = true)
    (hevents : t.events = (s.pushClosed errorCode source isLocal).events ++ more)
    (hmore : closings more = 0)
    (hrefused : t.refused = s.refused)
    (hhistories : t.localEnd = s.localEnd ∧ t.afterLocal = s.afterLocal ∧ t.ceased = s.ceased ∧
    t.ended = s.ended) :
    Effect s act t := by
  obtain ⟨new, hnew, hcount⟩ := s.pushClosed_events errorCode source isLocal
  refine effect_of_closing hclosing ⟨new ++ more, ?_, ?_⟩ (fun h => absurd h hnotgone)
    hrefused hhistories
    fun h => absurd h hnotgone
  · rw [hevents, hnew, List.append_assoc]
  · rw [closings_append, hmore, hcount]
    simp [hlocal]

theorem effect_path {event : PathEvent} (hs : s.Pointers) (hreach : s.Reaches (.path event)) :
    Effect s (.path event) (s.run (.path event)) := by
  -- nothing but a deregister comes without the callback
  have hnotgone : ¬ s.Gone := by
    rintro ⟨hdeclared, hhooked⟩
    cases event with
    | deregister => exact absurd (hdeclared.symm.trans hreach) (by simp)
    | free => exact absurd (hhooked.symm.trans hreach.1) (by simp)
    | _ => exact absurd (hhooked.symm.trans hreach) (by simp)
  have hsame : ∀ (e : SessionEvent), SameEnd s (s.push e) := fun _ =>
    ⟨rfl, ⟨rfl, rfl, rfl, rfl⟩, rfl, rfl, rfl, rfl, rfl⟩
  cases event with
  | connectAccepted =>
    have hready : SameEnd s (push { s with sessionReady := true } .ready) :=
      ⟨rfl, ⟨rfl, rfl, rfl, rfl⟩, rfl, rfl, rfl, rfl, rfl⟩
    exact effect_of_same hs hready rfl rfl (fun h => absurd h hnotgone) (nomatch ·) (nomatch ·)
  | connectRefused status webtransport retry =>
    show Effect s _ ((s.retryConnect webtransport retry).getD _)
    cases hretry : s.retryConnect webtransport retry with
    | none =>
      exact effect_of_same hs (hsame _) rfl rfl (fun h => absurd h hnotgone) (nomatch ·)
        (nomatch ·)
    | some t => exact effect_retryConnect hs hreach hretry (nomatch ·)
  | drain =>
    exact effect_of_same hs (hsame _) rfl rfl (fun h => absurd h hnotgone) (nomatch ·)
      (nomatch ·)
  | postData capsule =>
    match capsule with
    | none | some .other =>
      exact effect_of_same hs ⟨rfl, ⟨rfl, rfl, rfl, rfl⟩, rfl, rfl, rfl, rfl, rfl⟩
        (List.append_nil _).symm rfl
        (fun _ => rfl) (nomatch ·) (nomatch ·)
    | some .drain =>
      exact effect_of_same hs (hsame _) rfl rfl (fun h => absurd h hnotgone)
        (nomatch ·) (nomatch ·)
    | some (.close errorCode) =>
      show Effect s _ (s.pushClosed errorCode .session false)
      have hpush := s.pushClosed_eq errorCode .session false
      refine effect_pushClosed hnotgone rfl ?_ (List.append_nil _).symm rfl ?_ ?_ <;> rw [hpush]
      exact ⟨rfl, rfl, rfl, rfl⟩
  | postFin capsule =>
    show Effect s _ (s.pushClosed (closeCode capsule) .session false).peerFinished
    rw [peerFinished, maybeCloseCnx_eq]
    have hpush := s.pushClosed_eq (closeCode capsule) .session false
    refine effect_pushClosed hnotgone rfl ?_ (List.append_nil _).symm rfl ?_ ?_
    all_goals rw [hpush]
    exact ⟨rfl, rfl, rfl, rfl⟩
  | reset remoteError webtransport retry =>
    show Effect s _ ((s.retryConnect webtransport retry).getD _)
    cases hretry : s.retryConnect webtransport retry with
    | none =>
      show Effect s _ (s.pushClosed remoteError .session false).peerFinished
      rw [peerFinished, maybeCloseCnx_eq]
      have hpush := s.pushClosed_eq remoteError .session false
      refine effect_pushClosed hnotgone rfl ?_ (List.append_nil _).symm rfl ?_ ?_
      all_goals rw [hpush]
      exact ⟨rfl, rfl, rfl, rfl⟩
    | some t => exact effect_retryConnect hs hreach hretry id
  | stopSending remoteError webtransport retry =>
    show Effect s _ ((s.retryConnect webtransport retry).getD _)
    cases hretry : s.retryConnect webtransport retry with
    | none =>
      exact effect_of_same hs (hsame _) rfl rfl (fun h => absurd h hnotgone) (nomatch ·)
        (nomatch ·)
    | some t => exact effect_retryConnect hs hreach hretry (nomatch ·)
  | deregister =>
    have hpush := s.pushClosed_eq 0 .session false
    refine @effect_pushClosed s _ _ 0 _ _ _ hnotgone rfl ?_ (List.append_nil _).symm rfl ?_ ?_
    all_goals rw [run, pathCallback, hpush]
    exact ⟨rfl, rfl, rfl, rfl⟩
  | free =>
    have hclosing : s.sessionClosing = true := (hs.ceased hreach.2).resolve_right hnotgone
    refine effect_of_closing hclosing ⟨[], (List.append_nil _).symm, ?_⟩ (fun _ => rfl) rfl
      ⟨rfl, rfl, rfl, rfl⟩
      fun h => absurd h hnotgone
    simp [hclosing, closings]

/-! ## Connection callbacks and commands -/

theorem effect_cnx {event : CnxEvent} (hs : s.Pointers) :
    Effect s (.cnx event) (s.run (.cnx event)) := by
  show Effect s _ (s.cnxCallback event)
  rw [cnxCallback.eq_def]
  split
  · rename_i hdeclared
    have hend := hs.declared hdeclared
    refine effect_of_same hs ⟨rfl, ⟨rfl, rfl, rfl, rfl⟩, rfl, rfl, rfl, rfl, rfl⟩
      (List.append_nil _).symm rfl
      (fun _ => rfl) (nomatch ·) fun _ => ?_
    -- without a prefix the session has ended, or its CONNECT has failed and nothing calls it
    by_cases hclosing : s.sessionClosing = true
    · exact .inl hclosing
    · refine .inr ⟨⟨hdeclared, ?_⟩, hend.resolve_left hclosing⟩
      by_contra hhooked
      rcases hs.hooked (by simpa using hhooked) with h | h
      · exact absurd (hdeclared.symm.trans h) (by simp)
      · exact hclosing h
  · rename_i hdeclared
    have hnotgone : ¬ s.Gone := fun h => hdeclared h.1
    have hclose : ∀ errorCode source isLocal, Effect s (.cnx event)
        (if (s.pushClosed errorCode source isLocal).client then
          (s.pushClosed errorCode source isLocal).push (.cnxClosed errorCode source isLocal)
        else { s.pushClosed errorCode source isLocal with cnx := false, h3Ctx := false, controlStream := false }) := by
      intro errorCode source isLocal
      have hpush := s.pushClosed_eq errorCode source isLocal
      split
      · refine effect_pushClosed hnotgone rfl ?_ rfl rfl ?_ ?_
        all_goals rw [push, hpush]
        exact ⟨rfl, rfl, rfl, rfl⟩
      · refine effect_pushClosed hnotgone rfl ?_ (List.append_nil _).symm rfl ?_ ?_
        all_goals rw [hpush]
        exact ⟨rfl, rfl, rfl, rfl⟩
    cases event with
    | appWakeup =>
      show Effect s _ (if s.client then { s with closeDeadline := false } else s)
      split
      · exact effect_of_same hs ⟨rfl, ⟨rfl, rfl, rfl, rfl⟩, rfl, rfl, rfl, rfl, rfl⟩
          (List.append_nil _).symm rfl
          (fun _ => rfl) (nomatch ·) (nomatch ·)
      · exact effect_of_same hs ⟨rfl, ⟨rfl, rfl, rfl, rfl⟩, rfl, rfl, rfl, rfl, rfl⟩
          (List.append_nil _).symm rfl
          (fun _ => rfl) (nomatch ·) (nomatch ·)
    | close remoteError localError =>
      exact hclose _ _ _
    | applicationClose applicationError =>
      exact hclose _ _ _
    | statelessReset =>
      exact hclose _ _ _

/-- A command that finds the session without its connection or CONNECT. -/
theorem effect_late (hs : s.Pointers) (hlate : s.cnx = false ∨ s.controlStream = false)
    (hthere : s.endsThere act = false) : Effect s act s := by
  refine effect_of_same hs ⟨rfl, ⟨rfl, rfl, rfl, rfl⟩, rfl, rfl, rfl, rfl, rfl⟩
    (List.append_nil _).symm rfl
    (fun _ => rfl) (fun _ => ?_) fun h => absurd (hthere.symm.trans h) (by simp)
  rcases hlate with h | h
  · exact .inl (hs.cnx h)
  · exact (hs.control h).imp_right .inl

/-- A command that ends the session: nothing is queued. -/
theorem effect_of_local (hhere : act.endsHere = true) (hclosing : t.sessionClosing = true)
    (hevents : t.events = s.events) (hrefused : t.refused = s.refused)
    (hhistories : t.localEnd = s.localEnd ∧ t.afterLocal = s.afterLocal ∧ t.ceased = s.ceased ∧
    t.ended = s.ended)
    (hgone : s.Gone → t.Gone) : Effect s act t := by
  refine effect_of_closing hclosing ⟨[], ?_, ?_⟩ (fun _ => hevents) hrefused hhistories hgone
  · rw [hevents, List.append_nil]
  · simp [hhere, closings]

theorem effect_tx {command : TxCommand} (hs : s.Pointers) :
    Effect s (.tx command) (s.run (.tx command)) := by
  show Effect s _ (s.handleTx command)
  cases command with
  | close sent =>
    rw [handleTx]
    split
    · rename_i hlate
      exact effect_late hs hlate rfl
    · dsimp only
      split
      · rw [finished, maybeCloseCnx_eq]
        exact effect_of_local rfl rfl rfl rfl ⟨rfl, rfl, rfl, rfl⟩ id
      · exact effect_of_local rfl rfl rfl rfl ⟨rfl, rfl, rfl, rfl⟩ id
  | fin =>
    rw [handleTx]
    split
    · rename_i hlate
      exact effect_late hs hlate rfl
    · rw [finished, maybeCloseCnx_eq]
      exact effect_of_local rfl rfl rfl rfl ⟨rfl, rfl, rfl, rfl⟩ id
  | sessionCleanup =>
    rw [handleTx, maybeCloseCnx_eq]
    exact effect_of_same hs ⟨rfl, ⟨rfl, rfl, rfl, rfl⟩, rfl, rfl, rfl, rfl, rfl⟩
      (List.append_nil _).symm rfl
      (fun _ => rfl) (nomatch ·) (nomatch ·)
  | deregister alive =>
    rw [handleTx]
    dsimp only
    split
    · -- the session's own deregister finds it closing and queues nothing
      have hpush : ∀ u : WtSession, u.sessionClosing = true → u.pushClosed 0 .session false =
        u := by
        intro u hu
        rw [pushClosed]
        rw [if_pos hu]
        show { u with sessionClosing := true } = u
        rw [← hu]
      split
      · rw [pathCallback, hpush _ rfl]
        refine effect_of_local rfl rfl rfl rfl ⟨rfl, rfl, rfl, rfl⟩ fun h => ⟨rfl, ?_⟩
        show (s.hooked && !s.controlStream) = false
        rw [h.2, Bool.false_and]
      · rename_i hdeclared
        refine effect_of_local rfl rfl rfl rfl ⟨rfl, rfl, rfl, rfl⟩ fun h => ⟨h.1, ?_⟩
        show (s.hooked && !s.controlStream) = false
        rw [h.2, Bool.false_and]
    · exact effect_of_same hs ⟨rfl, ⟨rfl, rfl, rfl, rfl⟩, rfl, rfl, rfl, rfl, rfl⟩
        (List.append_nil _).symm rfl
        (fun _ => rfl) (fun _ => .inr (.inr rfl)) (nomatch ·)

theorem effect_run (hs : s.Pointers) (hreach : s.Reaches act) : Effect s act (s.run act) := by
  cases act with
  | path event => exact effect_path hs hreach
  | cnx event => exact effect_cnx hs
  | tx command => exact effect_tx hs

/-! ## Runs -/

/-- One end is queued at most, none once a local one was taken, and one if the other side was
first. -/
structure ClosedOnce (s : WtSession) : Prop where
  once : closings s.events ≤ 1
  late : ∀ e ∈ s.afterLocal, e.isClosed = false
  ended : s.ended = true → closings s.events = 1

structure Inv (s : WtSession) : Prop where
  pointers : s.Pointers
  closed : closings s.events ≠ 0 → s.sessionClosing = true
  once : closings s.events ≤ 1
  first : s.sessionClosing = true → closings s.events = 1 ∨ s.localEnd = true
  silent : s.localEnd = true → s.sessionClosing = true ∨ s.Gone ∨ s.freed = true
  late : ∀ e ∈ s.afterLocal, e.isClosed = false
  ended : s.ended = true → closings s.events = 1

theorem closings_eq_zero {events : List SessionEvent} :
    closings events = 0 ↔ ∀ e ∈ events, e.isClosed = false := by
  rw [closings, List.countP_eq_zero]
  simp

theorem Inv.step (h : Inv s) (hs : s.step act = some t) : Inv t := by
  simp only [WtSession.step, Option.ite_none_right_eq_some, Option.some.injEq] at hs
  obtain ⟨⟨hlive, hreach⟩, rfl⟩ := hs
  have heffect := effect_run h.pointers hreach
  revert heffect
  generalize s.run act = t
  intro heffect
  obtain ⟨new, hnew, hcount⟩ := heffect.events
  have htotal : closings t.events = closings s.events + closings new := by
    rw [hnew, closings_append]
  have hzero : s.sessionClosing = false → closings s.events = 0 := by
    intro hopen
    by_contra hne
    exact absurd (hopen.symm.trans (h.closed hne)) (by simp)
  have hdrop : t.events.drop s.events.length = new := by
    rw [hnew, List.drop_left]
  -- once a local command was taken, nothing new is an end
  have hquiet : (s.localEnd || act.endsHere) = true → ∀ e ∈ new, e.isClosed = false := by
    intro hend
    rw [← closings_eq_zero, hcount, if_neg]
    rintro ⟨hopen, hclosing, hhere⟩
    rw [hhere, Bool.or_false] at hend
    rcases h.silent hend with hs | hs | hs
    · exact absurd (hopen.symm.trans hs) (by simp)
    · have hsame := heffect.silent hs
      have hnil : new = [] := by
        rw [hnew] at hsame
        exact List.append_cancel_left (hsame.trans (List.append_nil _).symm)
      rw [hnil, if_pos ⟨hopen, hclosing, hhere⟩] at hcount
      exact absurd hcount (by simp [closings])
    · exact absurd (hlive.symm.trans hs) (by simp)
  have honce : closings t.events ≤ 1 := by
    rw [htotal, hcount]
    split
    · rename_i hcond
      exact Nat.le_of_eq (congrArg (· + 1) (hzero hcond.1))
    · exact h.once
  have hfirst : t.sessionClosing = true → closings t.events = 1 ∨ (s.localEnd || act.endsHere) =
    true := by
    intro hclosing
    cases hs : s.sessionClosing with
    | true =>
      rcases h.first hs with hone | hlocal
      · refine .inl (Nat.le_antisymm honce ?_)
        rw [htotal, hone]
        exact Nat.le_add_right 1 _
      · exact .inr (by rw [hlocal, Bool.true_or])
    | false =>
      cases hhere : act.endsHere with
      | true => exact .inr (Bool.or_true _)
      | false =>
        left
        rw [htotal, hzero hs, hcount, if_pos ⟨hs, hclosing, hhere⟩]
  have hnothere : s.endsThere act = true → act.endsHere = false := by
    cases act with
    | tx command => cases command <;> exact (nomatch ·)
    | path _ => exact fun _ => rfl
    | cnx _ => exact fun _ => rfl
  obtain ⟨hlocal, hafter, hover, hended⟩ := heffect.histories
  have hpointers := heffect.pointers
  refine ⟨⟨hpointers.cnx, hpointers.control, hpointers.declared, hpointers.hooked, fun h' => ?_⟩,
    fun hne => ?_, honce,
    hfirst, fun hend => ?_, fun e he => ?_, fun hend => ?_⟩
  · rcases Bool.or_eq_true_iff.1 h' with h' | h'
    · exact hpointers.ceased (hover.trans h')
    · exact (heffect.there h').imp_right And.left
  · show t.sessionClosing = true
    have hpos : closings s.events + closings new ≠ 0 := by
      rw [← htotal]
      exact hne
    cases hs : s.sessionClosing with
    | true => exact heffect.closing hs
    | false =>
      rw [hzero hs, Nat.zero_add, hcount] at hpos
      by_contra hopen
      exact hpos (if_neg fun hcond => hopen hcond.2.1)
  · rcases Bool.or_eq_true_iff.1 hend with hend | hend
    · rcases h.silent hend with hs | hs | hs
      · exact .inl (heffect.closing hs)
      · exact .inr (.inl (heffect.gone hs))
      · exact absurd (hlive.symm.trans hs) (by simp)
    · exact heffect.here hend
  · change e ∈ (if s.localEnd || act.endsHere then s.afterLocal ++ t.events.drop s.events.length
      else s.afterLocal) at he
    split at he
    · rename_i hend
      rw [hdrop] at he
      rcases List.mem_append.1 he with he | he
      · exact h.late e he
      · exact hquiet hend e he
    · exact h.late e he
  · show closings t.events = 1
    rcases Bool.or_eq_true_iff.1 hend with hend | hend
    · refine Nat.le_antisymm honce ?_
      rw [htotal, h.ended hend]
      exact Nat.le_add_right 1 _
    · simp only [Bool.and_eq_true, Bool.not_eq_true'] at hend
      obtain ⟨⟨hthere, hnolocal⟩, hgood⟩ := hend
      have hclosing := (heffect.there hthere).resolve_right fun h' =>
        absurd (hgood.symm.trans h'.2) (by simp)
      refine (hfirst hclosing).resolve_right ?_
      rw [hnolocal, hnothere hthere]
      simp

theorem inv_init (client retry : Bool) : Inv (init client retry) :=
  ⟨⟨(nomatch ·), (nomatch ·), (nomatch ·), fun _ => .inl rfl, (nomatch ·)⟩, fun h => absurd rfl h,
    Nat.zero_le _,
    (nomatch ·), (nomatch ·), fun _ h => absurd h List.not_mem_nil, (nomatch ·)⟩

/-- In every run, the session's end reaches asyncio once, and not after a local one. -/
theorem session_closed_once {client retry : Bool} {acts : List Act}
    (hrun : Steps.run step (init client retry) acts = some s) : s.ClosedOnce := by
  have hinv : Inv s := Steps.preserved (fun _ _ _ h hs => h.step hs) (inv_init client retry) hrun
  exact ⟨hinv.once, hinv.late, hinv.ended⟩

/-- A refused CONNECT is tried again and accepted; the peer closes with a capsule and a FIN, asyncio
answers, and the connection closes. -/
def closeActs : List Act :=
  [.path (.connectRefused 400 true .sent), .path .connectAccepted,
    .path (.postData (some (.close 7))),
    .path (.postFin none), .tx .sessionCleanup, .tx .fin, .path .free, .cnx .appWakeup,
      .cnx (.close 0 0),
    .tx (.deregister true)]

theorem session_closed_once_closeActs : ∃ s, Steps.run step (init true true) closeActs = some s ∧
    s.events = [.ready, .closed 7 .session false, .cnxClosed 0 .transport false] ∧ s.ended = true ∧
    s.ClosedOnce := by
  refine ⟨_, rfl, by decide +kernel, by decide +kernel, ?_⟩
  exact session_closed_once (rfl : Steps.run step (init true true) closeActs = some _)

end WtSession

end Aiopquic
