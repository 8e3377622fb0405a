import Aiopquic.Lib.Steps
import Aiopquic.StreamInboxes

/-!
# The streams a peer opens (`aiopquic_wt_path_callback`, `WebTransportSession._on_event`)

The path callbacks of the data streams of one session, the events they push, and what the session
does with these. A stream is linked by its first data or FIN callback, or when the worker makes it
for a `create_stream`. Pushes to the RX ring succeed. A `WT_STREAM_DATA` may be merged with one that
is still queued.
-/

namespace Aiopquic

/-- `_on_event`, as far as it touches the inboxes. -/
def StreamInboxes.onEvent (s : StreamInboxes) (closed : Bool) (e : SessionTuple) : StreamInboxes :=
  match e.evtType with
  | .wtStreamData => s.onStreamData closed e.sid (e.data.getD []) false
  | .wtStreamFin => s.onStreamData closed e.sid (e.data.getD []) true
  | .wtStreamReset => s.onStreamReset closed e.sid e.errorCode
  | .wtSessionClosed => s.release
  | .wtCnxClosed => if closed then s else s.release
  | .streamDestroy => s.onStreamDestroy e.sid
  | .wtStreamDestroy => s.onWtStreamDestroy e.sid
  | _ => s

/-- The events of a data stream. -/
def SessionTuple.ofStream (e : SessionTuple) : Bool :=
  e.evtType ∈ [.wtStreamData, .wtStreamFin, .wtStreamReset, .wtStopSending, .wtNewStream,
    .wtStreamCreated,
    .streamDestroy, .wtStreamDestroy]

/-- `picohttp_call_back_event_t`, the events of a data stream. -/
inductive PathCallback
  | postData (bytes : List UInt8) (merged : Bool)
  | postFin (bytes : List UInt8)
  | reset (errorCode : ℕ)
  | stopSending (errorCode : ℕ)
  | free
  deriving DecidableEq, Repr

/-- What h3zero knows of a stream id. -/
inductive PeerStage
  | unopened
  | live
  | freed
  deriving DecidableEq, Repr

structure PeerStreams where
  session : WebTransportSession := {}
  boxes : StreamInboxes := {}
  stage : ℕ → PeerStage := fun _ => .unopened
  /-- The stream context of the link in `path_callback_ctx`. -/
  link : ℕ → Option ℕ := fun _ => none
  rx : List SessionTuple := []
  /-- History: the events that reached `_on_event`, and the streams made for
  `TX_WT_CREATE_STREAM`s. -/
  handled : List SessionTuple := []
  created : ℕ → Bool := fun _ => false

namespace PeerStreams

variable {s t : PeerStreams} {sid : ℕ}

def push (s : PeerStreams) (e : SessionTuple) : PeerStreams := { s with rx := s.rx ++ [e] }

/-- `aiopquic_wt_ensure_link`, with the `WT_NEW_STREAM` of a first touch. -/
def ensureLink (s : PeerStreams) (sid sc : ℕ) : PeerStreams :=
  match s.link sid with
  | some _ => s
  | none => { s with link := Function.update s.link sid (some sc) }.push
      { evtType := .wtNewStream, sid, scPtr := sc }

/-- `aiopquic_wt_path_callback` on a data stream; `sc` is the context of a link it makes. -/
def pathCallback (s : PeerStreams) (sid sc : ℕ) : PathCallback → PeerStreams
  | .postData bytes merged =>
    let s := s.ensureLink sid sc
    if merged then s
    else s.push { evtType := .wtStreamData, sid, data := some bytes, scPtr := (s.link sid).getD 0 }
  | .postFin bytes =>
    let s := s.ensureLink sid sc
    s.push { evtType := .wtStreamFin, sid, data := some bytes, isFin := 1, scPtr := (s.link sid).getD 0 }
  | .reset errorCode => s.push { evtType := .wtStreamReset, sid, errorCode }
  | .stopSending errorCode => s.push { evtType := .wtStopSending, sid, errorCode }
  | .free =>
    let s := { s with stage := Function.update s.stage sid .freed }
    match s.link sid with
    | some _ => { s with link := Function.update s.link sid none }.push
        { evtType := .wtStreamDestroy, sid }
    | none => s

/-- The worker makes a stream for a `TX_WT_CREATE_STREAM`. -/
def createStream (s : PeerStreams) (sid sc : ℕ) : PeerStreams :=
  { s with
    stage := Function.update s.stage sid .live
    link := Function.update s.link sid (some sc)
    created := Function.update s.created sid true }.push
      { evtType := .wtStreamCreated, sid, scPtr := sc }

/-- The next event of the RX ring reaches `_on_event`. -/
def deliver (s : PeerStreams) (room : SessionCommand → Bool) : PeerStreams :=
  match s.rx with
  | [] => s
  | e :: rest =>
    { s with
      session := s.session.onEvent room e
      boxes := s.boxes.onEvent s.session.sessionClosed e
      rx := rest
      handled := s.handled ++ [e] }

/-- `close`. -/
def close (s : PeerStreams) (room : SessionCommand → Bool) (errorCode : ℕ) (reason : List UInt8) :
    PeerStreams :=
  { s with
    session := s.session.close room errorCode reason
    boxes := if s.session.sessionClosed then s.boxes else s.boxes.release }

inductive Act
  | opened (sid : ℕ)
  | pathCallback (sid sc : ℕ) (event : PathCallback)
  | createStream (sid sc : ℕ)
  | push (e : SessionTuple)
  | deliver (room : SessionCommand → Bool)
  | close (errorCode : ℕ) (reason : List UInt8) (room : SessionCommand → Bool)

/-- A step. h3zero calls back on live streams only, and stream ids do not come again. -/
def step (s : PeerStreams) : Act → Option PeerStreams
  | .opened sid =>
    if s.stage sid = .unopened then some { s with stage := Function.update s.stage sid .live }
      else none
  | .pathCallback sid sc event => if s.stage sid = .live then some (s.pathCallback sid sc event)
      else none
  | .createStream sid sc => if s.stage sid = .unopened then some (s.createStream sid sc) else none
  | .push e => if e.ofStream then none else some (s.push e)
  | .deliver room => some (s.deliver room)
  | .close errorCode reason room => some (s.close room errorCode reason)

/-- The application was told of the stream, or `create_stream` made it. -/
def Told (s : PeerStreams) (sid : ℕ) : Prop :=
  WebTransportEvent.newStream sid ∈ s.session.puts ∨ s.created sid = true

/-- Every inbox is one of a stream that was told of, and every such stream that h3zero freed has its
`WT_STREAM_DESTROY`, queued or handled. -/
structure Known (s : PeerStreams) : Prop where
  keys : ∀ sid, s.boxes.streamInbox sid ≠ none → s.Told sid
  destroyed : ∀ sid, s.Told sid ∨ s.boxes.streamInbox sid ≠ none → s.stage sid = .freed →
    ∃ e ∈ s.handled ++ s.rx, e.evtType = .wtStreamDestroy ∧ e.sid = sid

/-- An open session handles the reset of a peer's stream only after the stream's `WT_NEW_STREAM`,
which the first data or FIN callback pushes. -/
def Ok (s : PeerStreams) : Act → Prop
  | .deliver _ => s.session.sessionClosed = false → ∀ e ∈ s.rx.head?, e.evtType = .wtStreamReset →
    s.created e.sid = true ∨ ∃ n ∈ s.handled, n.evtType = .wtNewStream ∧ n.sid = e.sid
  | _ => True

instance : ∀ act, Decidable (s.Ok act)
  | .deliver _ => inferInstanceAs (Decidable (_ → _))
  | .opened _ | .pathCallback _ _ _ | .createStream _ _ | .push _ | .close _ _ _ => .isTrue trivial

/-! ## What an event does to the inboxes and to the event queue -/

variable {b : StreamInboxes} {closed : Bool} {e : SessionTuple} {v : WebTransportSession}
    {room : SessionCommand → Bool}
  {ev : Received}

theorem deliver_keys {sid' : ℕ} (h : (b.deliver sid ev).streamInbox sid' ≠ none) :
    b.streamInbox sid' ≠ none ∨ sid = sid' := by
  by_cases hne : sid' = sid
  · exact Or.inr hne.symm
  · left
    rw [StreamInboxes.deliver] at h
    split at h
    · exact h
    · split at h
      · exact h
      · simpa [StreamInboxes.newInbox, StreamInboxes.putNowait, Function.update_of_ne hne] using h

/-- Only data, a FIN or a reset makes an inbox, in an open session. -/
theorem onEvent_keys (h : (b.onEvent closed e).streamInbox sid ≠ none) : b.streamInbox sid ≠ none ∨
    closed = false ∧ e.sid = sid ∧ e.evtType ∈ [.wtStreamData, .wtStreamFin, .wtStreamReset] := by
  rw [StreamInboxes.onEvent] at h
  cases hty : e.evtType with
  | wtStreamData | wtStreamFin =>
    rw [hty] at h
    cases closed with
    | true => exact Or.inl h
    | false =>
      rcases @deliver_keys e.sid b (.data _ _) sid h with hk | hs
      · exact Or.inl hk
      · exact Or.inr ⟨rfl, hs, by simp⟩
  | wtStreamReset =>
    rw [hty] at h
    cases closed with
    | true => exact Or.inl h
    | false =>
      dsimp only at h
      rw [StreamInboxes.onStreamReset_of_open] at h
      rcases deliver_keys h with hk | hs
      · exact Or.inl hk
      · exact Or.inr ⟨rfl, hs, by simp⟩
  | wtSessionClosed =>
    rw [hty] at h
    exact absurd rfl h
  | wtCnxClosed =>
    rw [hty] at h
    dsimp only at h
    split at h
    · exact Or.inl h
    · exact absurd rfl h
  | streamDestroy =>
    rw [hty] at h
    left
    intro hn
    apply h
    show Function.update b.streamInbox e.sid none sid = none
    rw [Function.update_apply, hn, ite_self]
  | wtStreamDestroy =>
    rw [hty] at h
    left
    dsimp only [StreamInboxes.onWtStreamDestroy] at h
    split at h <;> exact h
  | _ =>
    rw [hty] at h
    exact Or.inl h

/-- The end of the session takes all inboxes. -/
theorem onEvent_keys_closed (hk : closed = true → ∀ sid, b.streamInbox sid = none)
    (h : (closed || e.closes) = true) : (b.onEvent closed e).streamInbox sid = none := by
  by_contra hne
  rcases onEvent_keys hne with hb | ⟨hc, _, hty⟩
  · cases closed with
    | true => exact hb (hk rfl sid)
    | false =>
      rw [Bool.false_or, SessionTuple.closes, decide_eq_true_eq] at h
      rcases h with h | h <;> exact hne (by simp [StreamInboxes.onEvent, h, StreamInboxes.release])
  · rw [hc, Bool.false_or, SessionTuple.closes, decide_eq_true_eq] at h
    rcases h with h | h <;> simp [h] at hty

/-- A `NewStream` is queued for a `WT_NEW_STREAM` of an open session, and for nothing else. -/
theorem newStream_mem_puts : WebTransportEvent.newStream sid ∈ (v.onEvent room e).puts ↔
    .newStream sid ∈ v.puts ∨ e.evtType = .wtNewStream ∧ v.sessionClosed = false ∧ e.sid = sid := by
  have hend : ∀ code data source, WebTransportEvent.newStream sid ∈
    (v.onSessionClosed room code data source).puts ↔
      .newStream sid ∈ v.puts := by
    intro code data source
    have hne :
      WebTransportEvent.newStream sid ≠ WebTransportSession.closedEvent code data source := by
      intro heq
      exact (nomatch (congrArg WebTransportEvent.isEnd heq).trans
        (WebTransportSession.isEnd_closedEvent ..))
    rw [(WebTransportSession.onSessionClosed_posts ..).puts, List.mem_append, List.mem_singleton]
    exact ⟨fun h => h.resolve_right hne, Or.inl⟩
  rw [WebTransportSession.onEvent]
  cases hty : e.evtType with
  | wtNewStream =>
    dsimp only
    rw [WebTransportSession.onNewStream]
    cases hc : v.sessionClosed with
    | true =>
      rw [if_pos rfl]
      split <;> simp
    | false =>
      rw [if_neg Bool.false_ne_true]
      dsimp only [WebTransportSession.put]
      split <;> simp [eq_comm]
  | wtSessionClosed => simpa using hend e.errorCode e.data e.isFin
  | wtCnxClosed =>
    dsimp only
    split
    · simp
    · simpa using hend e.errorCode none e.isFin
  | wtStreamCreated => simp [WebTransportSession.onStreamCreated_posts.1.puts]
  | wtSessionReady | wtStreamReset =>
    dsimp only
    split <;> simp [WebTransportSession.dropStreamTx]
  | wtSessionRefused => simp [WebTransportSession.put]
  | wtSessionDraining | wtStopSending | wtDatagram =>
    simp [WebTransportSession.put, WebTransportSession.dropStreamTx]
  | _ => simp [WebTransportSession.dropStreamTx]

/-! ## The invariant -/

/-- The events pushed so far. -/
def pushed (s : PeerStreams) : List SessionTuple := s.handled ++ s.rx

def Announced (l : List SessionTuple) (sid : ℕ) : Prop := ∃ n ∈ l, n.evtType = .wtNewStream ∧
    n.sid = sid

def DestroyIn (l : List SessionTuple) (sid : ℕ) : Prop := ∃ n ∈ l, n.evtType = .wtStreamDestroy ∧
    n.sid = sid

/-- A link was made for the stream, and stays until h3zero frees it. -/
structure Linked (s : PeerStreams) (sid : ℕ) : Prop where
  opened : s.stage sid ≠ .unopened
  live : s.stage sid = .live → s.link sid ≠ none
  freed : s.stage sid = .freed → DestroyIn s.pushed sid

structure Inv (s : PeerStreams) : Prop where
  announced : ∀ sid, Announced s.pushed sid → s.Linked sid
  created : ∀ sid, s.created sid = true → s.Linked sid
  link : ∀ sid, s.link sid ≠ none → s.created sid = true ∨ Announced s.pushed sid
  /-- Data and FINs come after the stream's `WT_NEW_STREAM`. -/
  order : ∀ (l r : List SessionTuple) (e : SessionTuple), s.pushed = l ++ e :: r →
    e.evtType ∈ [.wtStreamData, .wtStreamFin] → s.created e.sid = true ∨ Announced l e.sid
  keys : ∀ sid, s.boxes.streamInbox sid ≠ none → s.created sid = true ∨ Announced s.handled sid
  closed : s.session.sessionClosed = true → ∀ sid, s.boxes.streamInbox sid = none
  puts : ∀ sid, .newStream sid ∈ s.session.puts → Announced s.handled sid
  told : s.session.sessionClosed = false → ∀ sid, Announced s.handled sid → .newStream sid ∈
    s.session.puts

/-- Where an event stands in a list with one more event. -/
theorem concat_eq_append_cons {p l r : List SessionTuple} {x y : SessionTuple}
    (h : p ++ [x] = l ++ y :: r) :
    x = y ∧ p = l ∨ ∃ r', p = l ++ y :: r' := by
  rcases List.eq_nil_or_concat r with rfl | ⟨r, z, rfl⟩
  · obtain ⟨hp, hx⟩ := List.append_inj' h rfl
    exact Or.inl ⟨List.singleton_inj.1 hx, hp⟩
  · rw [List.concat_eq_append, ← List.cons_append, ← List.append_assoc] at h
    exact Or.inr ⟨r, (List.append_inj' h rfl).1⟩

theorem Announced.append {l : List SessionTuple} (h : Announced l sid) (r : List SessionTuple) :
    Announced (l ++ r) sid := by
  obtain ⟨n, hn, hs⟩ := h
  exact ⟨n, List.mem_append_left r hn, hs⟩

theorem Linked.of_pushed {l : List SessionTuple} (h : s.Linked sid)
    (hstage : t.stage sid = s.stage sid)
    (hlink : t.link sid = s.link sid) (hpushed : t.pushed = s.pushed ++ l) : t.Linked sid := by
  refine ⟨by rw [hstage]; exact h.opened, by rw [hstage, hlink]; exact h.live, fun hf => ?_⟩
  obtain ⟨n, hn, hs⟩ := h.freed (hstage.symm.trans hf)
  exact ⟨n, by rw [hpushed]; exact List.mem_append_left l hn, hs⟩

theorem Inv.known (h : Inv s) : Known s := by
  have htold : ∀ sid, s.boxes.streamInbox sid ≠ none → s.Told sid := by
    intro sid hk
    have hopen : s.session.sessionClosed = false := by
      by_contra hc
      exact hk (h.closed (by simpa using hc) sid)
    rcases h.keys sid hk with hc | ha
    · exact Or.inr hc
    · exact Or.inl (h.told hopen sid ha)
  refine ⟨htold, fun sid hsid hfreed => ?_⟩
  rcases hsid.elim id (htold sid) with hp | hc
  · exact (h.announced sid ((h.puts sid hp).append s.rx)).freed hfreed
  · exact (h.created sid hc).freed hfreed

/-! ## The worker -/

/-- An event of a stream that is linked, or of none. -/
theorem Inv.push {e : SessionTuple} (h : Inv s) (hnew : e.evtType = .wtNewStream → s.Linked e.sid)
    (hdata : e.evtType ∈ [.wtStreamData, .wtStreamFin] → s.link e.sid ≠ none) : Inv (s.push e) := by
  have hpushed : (s.push e).pushed = s.pushed ++ [e] := (List.append_assoc ..).symm
  have hlinked : ∀ sid, s.Linked sid → (s.push e).Linked sid := fun sid hl => hl.of_pushed rfl
    rfl hpushed
  refine { h with announced := ?_, created := fun sid hc => hlinked sid (h.created sid hc), link := ?_, order := ?_ }
  · intro sid ha
    rw [hpushed] at ha
    obtain ⟨n, hn, hty, rfl⟩ := ha
    rcases List.mem_append.1 hn with hn | hn
    · exact hlinked _ (h.announced _ ⟨n, hn, hty, rfl⟩)
    · obtain rfl := List.mem_singleton.1 hn
      exact hlinked _ (hnew hty)
  · intro sid hl
    rw [hpushed]
    exact (h.link sid hl).imp_right fun ha => ha.append [e]
  · intro l r e' heq hty
    rw [hpushed] at heq
    rcases concat_eq_append_cons heq with ⟨rfl, rfl⟩ | ⟨r', heq⟩
    · exact h.link _ (hdata hty)
    · exact h.order l r' e' heq hty

/-- A stream gets its link, and the event that tells of it. -/
theorem Inv.linkPush {stage : ℕ → PeerStage} {created : ℕ → Bool} {sc : ℕ} {e : SessionTuple}
    (h : Inv s)
    (he : e.sid = sid) (hdata : e.evtType ∉ [.wtStreamData, .wtStreamFin])
    (hstage : stage sid = .live)
    (hother : ∀ sid', sid' ≠ sid → stage sid' = s.stage sid')
    (hcreated : ∀ sid', created sid' = true ↔ s.created sid' = true ∨ sid' = sid ∧
    created sid = true)
    (htells : created sid = true ∨ e.evtType = .wtNewStream) :
    Inv ({ s with stage, link := Function.update s.link sid (some sc), created }.push e) := by
  have hpushed : ({ s with stage, link := Function.update s.link sid (some sc), created }.push
    e).pushed =
      s.pushed ++ [e] := (List.append_assoc ..).symm
  have hlinked : ∀ sid', s.Linked sid' ∨ sid' = sid →
      ({ s with stage, link := Function.update s.link sid (some sc), created }.push e).Linked
        sid' := by
    intro sid' hl
    by_cases hne : sid' = sid
    · subst hne
      refine ⟨fun hs => (nomatch hstage.symm.trans hs), fun _ => ?_, fun hs =>
        (nomatch hstage.symm.trans hs)⟩
      show Function.update s.link sid' (some sc) sid' ≠ none
      rw [Function.update_self]
      exact Option.some_ne_none sc
    · exact (hl.resolve_right hne).of_pushed (hother sid' hne) (Function.update_of_ne hne _ _)
        hpushed
  refine { h with announced := ?_, created := ?_, link := ?_, order := ?_, keys := ?_ }
  · intro sid' ha
    rw [hpushed] at ha
    obtain ⟨n, hn, hty, rfl⟩ := ha
    rcases List.mem_append.1 hn with hn | hn
    · exact hlinked _ (Or.inl (h.announced _ ⟨n, hn, hty, rfl⟩))
    · obtain rfl := List.mem_singleton.1 hn
      exact hlinked _ (Or.inr he)
  · intro sid' hc
    rcases (hcreated sid').1 hc with hc | ⟨hs, _⟩
    · exact hlinked sid' (Or.inl (h.created sid' hc))
    · exact hlinked sid' (Or.inr hs)
  · intro sid' hl
    rw [hpushed]
    by_cases hne : sid' = sid
    · subst hne
      exact htells.imp_right fun hty =>
        ⟨e, List.mem_append_right _ (List.mem_singleton_self e), hty, he⟩
    · have hl' : s.link sid' ≠ none := by
        have hupdate : Function.update s.link sid (some sc) sid' = s.link sid' :=
          Function.update_of_ne hne _ _
        rw [← hupdate]
        exact hl
      rcases h.link sid' hl' with hc | ha
      · exact Or.inl ((hcreated sid').2 (Or.inl hc))
      · exact Or.inr (ha.append [e])
  · intro l r e' heq hty
    rw [hpushed] at heq
    rcases concat_eq_append_cons heq with ⟨rfl, rfl⟩ | ⟨r', heq⟩
    · exact absurd hty hdata
    · exact (h.order l r' e' heq hty).imp_left fun hc => (hcreated _).2 (Or.inl hc)
  · exact fun sid' hk => (h.keys sid' hk).imp_left fun hc => (hcreated sid').2 (Or.inl hc)

theorem Inv.ensureLink (h : Inv s) (hlive : s.stage sid = .live) (sc : ℕ) :
    Inv (s.ensureLink sid sc) ∧ (s.ensureLink sid sc).link sid ≠ none := by
  rw [PeerStreams.ensureLink]
  cases hl : s.link sid with
  | some sc' => exact ⟨h, by simp [hl]⟩
  | none =>
    refine ⟨h.linkPush rfl (by simp) hlive (fun _ _ => rfl) (fun sid' => ?_) (Or.inr rfl), ?_⟩
    · exact ⟨Or.inl, fun hc => hc.elim id fun ⟨heq, hc⟩ => heq ▸ hc⟩
    · show Function.update s.link sid (some sc) sid ≠ none
      rw [Function.update_self]
      exact Option.some_ne_none sc

theorem Inv.createStream (h : Inv s) (sc : ℕ) : Inv (s.createStream sid sc) := by
  have hcreated : Function.update s.created sid true sid = true := Function.update_self ..
  refine h.linkPush rfl (by simp) (Function.update_self ..)
    (fun sid' hne => Function.update_of_ne hne _ _) ?_
    (Or.inl hcreated)
  intro sid'
  by_cases hne : sid' = sid
  · subst hne
    simp
  · simp [hne]

/-- h3zero frees a stream: a linked one leaves its `WT_STREAM_DESTROY`. -/
theorem Inv.free (h : Inv s) (hlive : s.stage sid = .live) (sc : ℕ) :
    Inv (s.pathCallback sid sc .free) := by
  rw [pathCallback]
  dsimp only
  cases hl : s.link sid with
  | some sc' =>
    dsimp only
    have hpushed : ({ s with
        stage := Function.update s.stage sid .freed, link := Function.update s.link sid none }.push
          { evtType := .wtStreamDestroy, sid }).pushed = s.pushed ++
            [{ evtType := .wtStreamDestroy, sid }] :=
      (List.append_assoc ..).symm
    have hlinked : ∀ sid', s.Linked sid' → ({ s with
        stage := Function.update s.stage sid .freed, link := Function.update s.link sid none }.push
          { evtType := .wtStreamDestroy, sid }).Linked sid' := by
      intro sid' hl'
      by_cases hne : sid' = sid
      · subst hne
        have hfreed : Function.update s.stage sid' PeerStage.freed sid' = .freed :=
          Function.update_self ..
        refine ⟨fun hs => (nomatch hfreed.symm.trans hs), fun hs => (nomatch hfreed.symm.trans hs),
          fun _ => ?_⟩
        exact ⟨_, by rw [hpushed]; exact List.mem_append_right _ (List.mem_singleton_self _), rfl, rfl⟩
      · exact hl'.of_pushed (Function.update_of_ne hne _ _) (Function.update_of_ne hne _ _) hpushed
    refine { h with announced := ?_, created := fun sid' hc => hlinked sid' (h.created sid' hc), link := ?_, order := ?_ }
    · intro sid' ha
      rw [hpushed] at ha
      obtain ⟨n, hn, hty, rfl⟩ := ha
      rcases List.mem_append.1 hn with hn | hn
      · exact hlinked _ (h.announced _ ⟨n, hn, hty, rfl⟩)
      · rw [List.mem_singleton.1 hn] at hty
        exact (nomatch hty)
    · intro sid' hl'
      rw [hpushed]
      by_cases hne : sid' = sid
      · subst hne
        exact absurd (Function.update_self ..) hl'
      · have hupdate : Function.update s.link sid none sid' = s.link sid' :=
          Function.update_of_ne hne _ _
        exact (h.link sid' (by rw [← hupdate]; exact hl')).imp_right fun ha => ha.append _
    · intro l r e' heq hty
      rw [hpushed] at heq
      rcases concat_eq_append_cons heq with ⟨rfl, rfl⟩ | ⟨r', heq⟩
      · exact absurd hty (by simp)
      · exact h.order l r' e' heq hty
  | none =>
    -- A stream without a link was not told of.
    have hlinked : ∀ sid', s.Linked sid' →
      Linked { s with stage := Function.update s.stage sid .freed } sid' := by
      intro sid' hl'
      have hne : sid' ≠ sid := by
        rintro rfl
        exact hl'.live hlive hl
      refine hl'.of_pushed (l := []) (Function.update_of_ne hne _ _) rfl (List.append_nil _).symm
    exact { h with
      announced := fun sid' ha => hlinked sid' (h.announced sid' ha)
      created := fun sid' hc => hlinked sid' (h.created sid' hc) }

theorem Inv.pathCallback {event : PathCallback} (h : Inv s) (hlive : s.stage sid = .live) (sc : ℕ) :
    Inv (s.pathCallback sid sc event) := by
  have hother : ∀ {u : PeerStreams} {e : SessionTuple}, Inv u →
      e.evtType ∉ [.wtNewStream, .wtStreamData, .wtStreamFin] → Inv (u.push e) := by
    intro u e hu he
    refine hu.push (fun hty => absurd ?_ he) fun hty => absurd ?_ he
    · simp [hty]
    · exact List.mem_cons_of_mem _ hty
  obtain ⟨hens, hlink⟩ := h.ensureLink hlive sc
  cases event with
  | postData bytes merged =>
    rw [PeerStreams.pathCallback]
    split
    · exact hens
    · exact hens.push (fun hty => (nomatch hty)) fun _ => hlink
  | postFin bytes => exact hens.push (fun hty => (nomatch hty)) fun _ => hlink
  | reset errorCode => exact hother h (by simp)
  | stopSending errorCode => exact hother h (by simp)
  | free => exact h.free hlive sc

theorem Inv.opened (h : Inv s) (hstage : s.stage sid = .unopened) :
    Inv { s with stage := Function.update s.stage sid .live } := by
  have hlinked : ∀ sid', s.Linked sid' →
    Linked { s with stage := Function.update s.stage sid .live } sid' := by
    intro sid' hl
    have hne : sid' ≠ sid := by
      rintro rfl
      exact hl.opened hstage
    exact hl.of_pushed (l := []) (Function.update_of_ne hne _ _) rfl (List.append_nil _).symm
  exact { h with
    announced := fun sid' ha => hlinked sid' (h.announced sid' ha)
    created := fun sid' hc => hlinked sid' (h.created sid' hc) }

/-! ## The session -/

theorem Inv.deliver (h : Inv s) (room : SessionCommand → Bool) (hok : s.Ok (.deliver room)) :
    Inv (s.deliver room) := by
  rw [PeerStreams.deliver]
  cases hrx : s.rx with
  | nil => exact h
  | cons e rest =>
    rw [PeerStreams.Ok, hrx] at hok
    have hpushed : s.handled ++ [e] ++ rest = s.pushed := by
      rw [pushed, hrx, List.append_assoc]
      rfl
    obtain ⟨_, _, hclosed, _⟩ := @WebTransportSession.onEvent_posts s.session room e
    have hlinked : ∀ sid, s.Linked sid → Linked { s with
        session := s.session.onEvent room e, boxes := s.boxes.onEvent s.session.sessionClosed e,
          rx := rest
        handled := s.handled ++ [e] } sid := by
      intro sid hl
      exact hl.of_pushed (l := []) rfl rfl (hpushed.trans (List.append_nil _).symm)
    refine ⟨?_, fun sid hc => hlinked sid (h.created sid hc), ?_, ?_, ?_, ?_, ?_, ?_⟩
    · intro sid ha
      exact hlinked sid (h.announced sid (hpushed ▸ ha))
    · intro sid hl
      show s.created sid = true ∨ Announced (s.handled ++ [e] ++ rest) sid
      rw [hpushed]
      exact h.link sid hl
    · intro l r e' heq hty
      exact h.order l r e' (hpushed.symm.trans heq) hty
    · intro sid hk
      rcases onEvent_keys hk with hk | ⟨hopen, rfl, hty⟩
      · exact (h.keys sid hk).imp_right fun ha => ha.append [e]
      · rcases List.mem_cons.1 hty with hty | hty
        · exact (h.order s.handled rest e (by rw [pushed, hrx]) (by simp [hty])).imp_right fun ha =>
            ha.append [e]
        · rcases List.mem_cons.1 hty with hty | hty
          · exact (h.order s.handled rest e (by rw [pushed, hrx]) (by simp [hty])).imp_right
              fun ha => ha.append [e]
          · -- The condition is about this event.
            exact (hok hopen e rfl (List.mem_singleton.1 hty)).imp_right fun ha =>
              Announced.append ha [e]
    · intro hc sid
      exact onEvent_keys_closed h.closed (hclosed.symm.trans hc)
    · intro sid hp
      rcases newStream_mem_puts.1 hp with hp | ⟨hty, _, hs⟩
      · exact (h.puts sid hp).append [e]
      · exact ⟨e, List.mem_append_right _ (List.mem_singleton_self e), hty, hs⟩
    · intro hopen sid ha
      have hopen' : s.session.sessionClosed = false :=
        (Bool.or_eq_false_iff.1 (hclosed.symm.trans hopen)).1
      obtain ⟨n, hn, hty, hs⟩ := ha
      rcases List.mem_append.1 hn with hn | hn
      · exact newStream_mem_puts.2 (Or.inl (h.told hopen' sid ⟨n, hn, hty, hs⟩))
      · obtain rfl := List.mem_singleton.1 hn
        exact newStream_mem_puts.2 (Or.inr ⟨hty, hopen', hs⟩)

theorem Inv.close (h : Inv s) (room : SessionCommand → Bool) (errorCode : ℕ) (reason : List UInt8) :
    Inv (s.close room errorCode reason) := by
  rw [PeerStreams.close]
  cases hc : s.session.sessionClosed with
  | true =>
    rw [WebTransportSession.close, if_pos hc]
    exact h
  | false =>
    have hputs := (@WebTransportSession.close_posts _ room errorCode reason hc).puts
    have hclosed := @WebTransportSession.sessionClosed_close s.session room errorCode reason
    have hlinked : ∀ sid, s.Linked sid → Linked { s with
        session := s.session.close room errorCode reason, boxes := s.boxes.release } sid :=
      fun sid hl => hl.of_pushed (l := []) rfl rfl (List.append_nil _).symm
    refine ⟨fun sid ha => hlinked sid (h.announced sid ha), fun sid hc =>
      hlinked sid (h.created sid hc), h.link, h.order,
      fun sid hk => absurd rfl hk, fun _ sid => rfl, ?_, ?_⟩
    · intro sid hp
      have hp' : WebTransportEvent.newStream sid ∈ s.session.puts := by
        dsimp only at hp
        simpa [hputs] using hp
      exact h.puts sid hp'
    · exact fun hopen => absurd (hclosed.symm.trans hopen) (by simp)

theorem Inv.step {act : Act} (h : Inv s) (hok : s.Ok act) (hstep : step s act = some t) :
    Inv t := by
  cases act with
  | opened sid =>
    rw [PeerStreams.step] at hstep
    split at hstep
    · cases hstep
      exact h.opened ‹_›
    · exact (nomatch hstep)
  | pathCallback sid sc event =>
    rw [PeerStreams.step] at hstep
    split at hstep
    · cases hstep
      exact h.pathCallback ‹_› sc
    · exact (nomatch hstep)
  | createStream sid sc =>
    rw [PeerStreams.step] at hstep
    split at hstep
    · cases hstep
      exact h.createStream sc
    · exact (nomatch hstep)
  | push e =>
    rw [PeerStreams.step] at hstep
    split at hstep
    · exact (nomatch hstep)
    · rename_i he
      cases hstep
      refine h.push (fun hty => absurd ?_ he) fun hty => absurd ?_ he
      · simp [SessionTuple.ofStream, hty]
      · simp only [List.mem_cons, List.not_mem_nil, or_false] at hty
        rcases hty with hty | hty <;> simp [SessionTuple.ofStream, hty]
  | deliver room =>
    cases hstep
    exact h.deliver room hok
  | close errorCode reason room =>
    cases hstep
    exact h.close room errorCode reason

end PeerStreams

end Aiopquic
