import Aiopquic.Lib.Steps
import Aiopquic.WebTransportSession
import Mathlib.Logic.Function.Iterate

/-!
# The generator `WebTransportSession.events`

One consumer iterates `events()` while the session puts events on its queue. The loop of the
generator reads the closed flag before each `get()`. A `get()` of an empty queue parks, and returns
once the queue has an event.
-/

namespace Aiopquic

/-- The generator is not running (not started, or at its `yield`), in its `get()`, or has
returned. -/
inductive EventsPhase
  | idle
  | parked
  | ended
  deriving DecidableEq, Repr

structure SessionEvents where
  session : WebTransportSession
  phase : EventsPhase := .idle
  /-- History: what the consumer was yielded. -/
  yielded : List WebTransportEvent := []

namespace SessionEvents

variable {s t : SessionEvents} {l : List WebTransportEvent}

/-- `get()`, and the `yield` of what it returns. -/
def get (s : SessionEvents) : SessionEvents :=
  match s.session.eventQueue with
  | [] => { s with phase := .parked }
  | e :: rest => ⟨{ s.session with eventQueue := rest }, .idle, s.yielded ++ [e]⟩

/-- The consumer goes on: it asks the generator for an event, or its `get()` returns if it can. -/
def advance (s : SessionEvents) : SessionEvents :=
  match s.phase with
  | .idle => if s.session.sessionClosed then { s with phase := .ended } else s.get
  | .parked => s.get
  | .ended => s

inductive Act
  | onEvent (e : SessionTuple) (room : SessionCommand → Bool)
  | close (errorCode : ℕ) (reason : List UInt8) (room : SessionCommand → Bool)
  | advance

def step (s : SessionEvents) : Act → Option SessionEvents
  | .onEvent e room => some { s with session := s.session.onEvent room e }
  | .close errorCode reason room => some { s with session := s.session.close room errorCode reason }
  | .advance => some s.advance

/-- A session nobody has put an event on, and a generator that has not started. -/
def start (server : Bool) (sessionReady : Option Future) : SessionEvents :=
  ⟨{ server, sessionReady }, .idle, []⟩

/-- The list up to its first end of the session, that included. -/
def throughEnd : List WebTransportEvent → List WebTransportEvent
  | [] => []
  | e :: l => if e.isEnd then [e] else e :: throughEnd l

/-- The consumer is yielded the queue in order. If it goes on it gets all up to the first end of the
session, and its generator ends only after that. -/
structure Delivered (s : SessionEvents) : Prop where
  inOrder : s.yielded ++ s.session.eventQueue = s.session.puts
  reached : throughEnd s.session.puts <+: (advance^[s.session.eventQueue.length] s).yielded
  ends : s.phase = .ended → ∃ e ∈ s.yielded, e.isEnd = true

/-- The consumer has had an end of the session, or waits in `get()` for one to be the next event. -/
def Waits (s : SessionEvents) : Prop :=
  (∃ e ∈ s.yielded, e.isEnd = true) ∨ s.phase = .parked ∧ ∀ e ∈ s.session.eventQueue.head?,
    e.isEnd = true

instance : Decidable s.Waits := inferInstanceAs (Decidable (_ ∨ _))

/-- The step sets the closed flag if it was not set. -/
def Act.closes : Act → Bool
  | .onEvent e _ => e.closes
  | .close _ _ _ => true
  | .advance => false

/-- The flag is set only while the consumer waits for the event that follows, or has had an end. -/
def Ok (s : SessionEvents) (act : Act) : Prop := s.session.sessionClosed = false → act.closes =
    true → s.Waits

instance (act : Act) : Decidable (s.Ok act) := inferInstanceAs (Decidable (_ → _ → _))

/-! ## Up to the first end -/

theorem throughEnd_prefix : throughEnd l <+: l := by
  induction l with
  | nil => exact List.prefix_refl _
  | cons e l ih =>
    rw [throughEnd]
    split
    · exact List.prefix_append [e] l
    · exact List.cons_prefix_cons.2 ⟨rfl, ih⟩

/-- A list with an end in it already has all that comes up to the first. -/
theorem throughEnd_append_left {r : List WebTransportEvent} (h : ∃ e ∈ l, e.isEnd = true) :
    throughEnd (l ++ r) <+: l := by
  induction l with
  | nil => simp at h
  | cons e l ih =>
    rw [List.cons_append, throughEnd]
    split
    · exact List.prefix_append [e] l
    · rename_i hne
      obtain ⟨x, hx, hend⟩ := h
      rcases List.mem_cons.1 hx with rfl | hx
      · exact absurd hend hne
      · exact List.cons_prefix_cons.2 ⟨rfl, ih ⟨x, hx, hend⟩⟩

theorem exists_end_mem_throughEnd (h : ∃ e ∈ l, e.isEnd = true) :
    ∃ e ∈ throughEnd l, e.isEnd = true := by
  induction l with
  | nil => simp at h
  | cons e l ih =>
    rw [throughEnd]
    split
    · rename_i he
      exact ⟨e, List.mem_singleton_self e, he⟩
    · rename_i hne
      obtain ⟨x, hx, hend⟩ := h
      rcases List.mem_cons.1 hx with rfl | hx
      · exact absurd hend hne
      · obtain ⟨y, hy, hyend⟩ := ih ⟨x, hx, hend⟩
        exact ⟨y, List.mem_cons_of_mem e hy, hyend⟩

/-! ## The consumer alone -/

theorem get_eq_of_cons {e : WebTransportEvent} {rest : List WebTransportEvent}
    (h : s.session.eventQueue = e :: rest) :
    s.get = ⟨{ s.session with eventQueue := rest }, .idle, s.yielded ++ [e]⟩ := by
  rw [get, h]

theorem get_eq_of_nil (h : s.session.eventQueue = []) : s.get = { s with phase := .parked } := by
  rw [get, h]

theorem advance_eq_get (h : s.phase = .parked ∨ s.phase = .idle ∧ s.session.sessionClosed = false) :
    s.advance = s.get := by
  rw [advance]
  rcases h with h | ⟨h, hc⟩
  · rw [h]
  · rw [h]
    simp [hc]

theorem yielded_prefix_get : s.yielded <+: s.get.yielded := by
  rw [get]
  split
  · exact List.prefix_refl _
  · exact List.prefix_append ..

theorem yielded_prefix_advance : s.yielded <+: s.advance.yielded := by
  rw [advance]
  split
  · split
    · exact List.prefix_refl _
    · exact yielded_prefix_get
  · exact yielded_prefix_get
  · exact List.prefix_refl _

theorem yielded_prefix_iterate (n : ℕ) : s.yielded <+: (advance^[n] s).yielded := by
  induction n generalizing s with
  | zero => exact List.prefix_refl _
  | succ n ih =>
    rw [Function.iterate_succ_apply]
    exact yielded_prefix_advance.trans ih

/-- An open session's consumer that goes on is yielded the whole queue. -/
theorem yielded_iterate_of_open (hclosed : s.session.sessionClosed = false)
    (hphase : s.phase ≠ .ended) :
    (advance^[s.session.eventQueue.length] s).yielded = s.yielded ++ s.session.eventQueue := by
  generalize hq : s.session.eventQueue = q
  induction q generalizing s with
  | nil => simp
  | cons e rest ih =>
    have hget : s.advance = s.get := by
      apply advance_eq_get
      cases h : s.phase with
      | idle => exact Or.inr ⟨rfl, hclosed⟩
      | parked => exact Or.inl rfl
      | ended => exact absurd h hphase
    rw [List.length_cons, Function.iterate_succ_apply, hget, get_eq_of_cons hq]
    rw [ih (s := ⟨{ s.session with eventQueue := rest }, .idle, s.yielded ++ [e]⟩) hclosed
      (by simp) rfl]
    simp

/-- Once the session is closed, a generator that is not in its `get()` yields nothing more. -/
theorem yielded_iterate_of_closed (hclosed : s.session.sessionClosed = true)
    (hphase : s.phase ≠ .parked) (n : ℕ) :
    (advance^[n] s).yielded = s.yielded := by
  induction n generalizing s with
  | zero => rfl
  | succ n ih =>
    rw [Function.iterate_succ_apply]
    have hnext : s.advance = { s with phase := .ended } := by
      rw [advance]
      cases h : s.phase with
      | idle => simp [hclosed]
      | parked => exact absurd h hphase
      | ended =>
        cases s
        simp_all
    rw [hnext]
    exact ih hclosed (by simp)

/-! ## Runs -/

/-- What every step keeps. -/
structure Inv (s : SessionEvents) : Prop where
  inOrder : s.yielded ++ s.session.eventQueue = s.session.puts
  closed : s.session.sessionClosed = true → ∃ e ∈ s.session.puts, e.isEnd = true
  ended : s.phase = .ended → s.session.sessionClosed = true

/-- A closed session's consumer has had its end, or waits for it. -/
def Saved (s : SessionEvents) : Prop := s.session.sessionClosed = true → s.Waits

variable {u : WebTransportSession}

/-- The session puts `l` on its queue. -/
theorem Inv.posts (h : Inv s) (hposts : WebTransportSession.Posts s.session u l)
    (hclosed : u.sessionClosed = true → s.session.sessionClosed = true ∨ ∃ e ∈ l, e.isEnd = true)
    (hkeeps : s.session.sessionClosed = true → u.sessionClosed = true) :
    Inv { s with session := u } where
  inOrder := by
    show s.yielded ++ u.eventQueue = u.puts
    rw [hposts.eventQueue, hposts.puts, ← List.append_assoc, h.inOrder]
  closed hc := by
    show ∃ e ∈ u.puts, e.isEnd = true
    rw [hposts.puts]
    rcases hclosed hc with hs | ⟨e, he, hend⟩
    · obtain ⟨e, he, hend⟩ := h.closed hs
      exact ⟨e, List.mem_append_left l he, hend⟩
    · exact ⟨e, List.mem_append_right _ he, hend⟩
  ended hp := hkeeps (h.ended hp)

theorem Inv.get (h : Inv s) : Inv s.get := by
  cases hq : s.session.eventQueue with
  | nil =>
    rw [get_eq_of_nil hq]
    exact ⟨h.inOrder, h.closed, fun hp => (nomatch hp)⟩
  | cons e rest =>
    rw [get_eq_of_cons hq]
    refine ⟨?_, h.closed, fun hp => (nomatch hp)⟩
    have hin := h.inOrder
    rw [hq] at hin
    simpa using hin

theorem Inv.advance (h : Inv s) : Inv s.advance := by
  rw [SessionEvents.advance]
  split
  · split
    · rename_i hc
      exact ⟨h.inOrder, h.closed, fun _ => hc⟩
    · exact h.get
  · exact h.get
  · exact h

theorem Inv.step {act : Act} (h : Inv s) (hstep : s.step act = some t) : Inv t := by
  cases act with
  | onEvent e room =>
    cases hstep
    obtain ⟨l, hl, hc, hend⟩ := @WebTransportSession.onEvent_posts s.session room e
    refine h.posts hl ?_ ?_
    · intro hu
      rw [hc, Bool.or_eq_true] at hu
      cases hs : s.session.sessionClosed with
      | true => exact Or.inl rfl
      | false =>
        obtain ⟨c, hcend, rfl⟩ := hend hs (hu.resolve_left (by simp [hs]))
        exact Or.inr ⟨c, List.mem_singleton_self c, hcend⟩
    · intro hs
      rw [hc, hs, Bool.true_or]
  | close errorCode reason room =>
    cases hstep
    cases hs : s.session.sessionClosed with
    | true =>
      have hsame : s.session.close room errorCode reason = s.session := by
        rw [WebTransportSession.close, if_pos hs]
      rw [hsame]
      exact h
    | false =>
      refine h.posts (WebTransportSession.close_posts errorCode reason hs) ?_ ?_
      · exact fun _ => Or.inr ⟨_, List.mem_singleton_self _, rfl⟩
      · exact fun _ => WebTransportSession.sessionClosed_close errorCode reason
  | advance =>
    cases hstep
    exact h.advance

/-- What is put behind the queue leaves the consumer waiting or not, unless it is the first event it
gets. -/
theorem waits_posts (hposts : WebTransportSession.Posts s.session u l)
    (hnil : s.session.eventQueue = [] → (∃ e ∈ s.yielded, e.isEnd = true) ∨ ∀ e ∈ l.head?,
    e.isEnd = true) :
    Waits { s with session := u } ↔ Waits s := by
  rw [Waits, Waits, hposts.eventQueue]
  cases hq : s.session.eventQueue with
  | cons e rest => simp
  | nil =>
    rcases hnil hq with h | h
    · exact ⟨fun _ => Or.inl h, fun _ => Or.inl h⟩
    · exact or_congr_right (and_congr_right fun _ => by simpa using h)

theorem saved_posts {act : Act} (h : Inv s) (hposts : WebTransportSession.Posts s.session u l)
    (hclosed : u.sessionClosed = (s.session.sessionClosed || act.closes))
    (hend : s.session.sessionClosed = false → act.closes = true → ∃ c : WebTransportEvent, c.isEnd =
    true ∧ l = [c]) :
    Saved { s with session := u } ↔ Saved s ∧ s.Ok act := by
  have hsaved : Saved { s with session := u } ↔
    (u.sessionClosed = true → Waits { s with session := u }) := Iff.rfl
  rw [hsaved, Saved, Ok, hclosed]
  cases hs : s.session.sessionClosed with
  | true =>
    -- All that was queued before was put there, and one of it is an end.
    have hwaits := waits_posts hposts fun hq => by
      have hin := h.inOrder
      rw [hq, List.append_nil] at hin
      exact Or.inl (hin ▸ h.closed hs)
    simp [hwaits]
  | false =>
    cases hc : act.closes with
    | false => simp
    | true =>
      obtain ⟨c, hcend, rfl⟩ := hend hs hc
      have hwaits := waits_posts hposts fun _ => Or.inr (by simpa using hcend)
      simp [hwaits]

theorem saved_get (hphase : s.phase = .parked) : Saved s.get ↔ Saved s := by
  cases hq : s.session.eventQueue with
  | nil =>
    rw [get_eq_of_nil hq]
    rw [← hphase]
  | cons e rest =>
    rw [get_eq_of_cons hq, Saved, Saved, Waits, Waits, hq, hphase]
    apply imp_congr_right
    intro _
    simp [or_and_right, exists_or]

theorem saved_advance : Saved s.advance ↔ Saved s := by
  cases hphase : s.phase with
  | parked =>
    rw [advance_eq_get (Or.inl hphase)]
    exact saved_get hphase
  | ended => rw [advance, hphase]
  | idle =>
    cases hs : s.session.sessionClosed with
    | true =>
      have hnext : s.advance = { s with phase := .ended } := by
        rw [advance, hphase]
        simp [hs]
      rw [hnext, Saved, Saved, Waits, Waits, hphase]
      simp
    | false =>
      rw [advance_eq_get (Or.inr ⟨hphase, hs⟩), Saved, Saved]
      have hget : s.get.session.sessionClosed = false := by
        rw [get]
        split <;> exact hs
      simp [hget, hs]

theorem saved_step {act : Act} (h : Inv s) (hstep : s.step act = some t) :
    Saved t ↔ Saved s ∧ s.Ok act := by
  cases act with
  | onEvent e room =>
    cases hstep
    obtain ⟨l, hl, hc, hend⟩ := @WebTransportSession.onEvent_posts s.session room e
    exact saved_posts h hl hc hend
  | close errorCode reason room =>
    cases hstep
    cases hs : s.session.sessionClosed with
    | true =>
      have hsame : s.session.close room errorCode reason = s.session := by
        rw [WebTransportSession.close, if_pos hs]
      rw [hsame]
      exact ⟨fun hsaved => ⟨hsaved, fun ho => absurd (ho.symm.trans hs) (by simp)⟩, And.left⟩
    | false =>
      refine saved_posts h (WebTransportSession.close_posts errorCode reason hs) ?_ fun _ _ =>
        ⟨_, rfl, rfl⟩
      rw [WebTransportSession.sessionClosed_close]
      exact (Bool.or_true _).symm
  | advance =>
    cases hstep
    rw [saved_advance]
    exact ⟨fun hsaved => ⟨hsaved, fun _ hc => by cases hc⟩, And.left⟩

/-- The consumer gets all it should exactly if it has an end, or waits for one, once the session is
closed. -/
theorem delivered_iff_saved (h : Inv s) : Delivered s ↔ Saved s := by
  constructor
  · intro hd hs
    by_contra hw
    rw [Waits, not_or, not_and] at hw
    obtain ⟨hnone, hparked⟩ := hw
    -- The end that was put is among what the consumer gets if it goes on.
    have hget : ∃ e ∈ (advance^[s.session.eventQueue.length] s).yielded, e.isEnd = true := by
      obtain ⟨e, he, hend⟩ := exists_end_mem_throughEnd (h.closed hs)
      exact ⟨e, hd.reached.subset he, hend⟩
    by_cases hphase : s.phase = .parked
    · have hhead := hparked hphase
      cases hq : s.session.eventQueue with
      | nil => simp [hq] at hhead
      | cons e rest =>
        rw [hq] at hget hhead
        rw [List.length_cons, Function.iterate_succ_apply, advance_eq_get (Or.inl hphase),
          get_eq_of_cons hq,
          yielded_iterate_of_closed
            (s := ⟨{ s.session with eventQueue := rest }, .idle, s.yielded ++ [e]⟩) hs
            (by simp)] at hget
        obtain ⟨x, hx, hend⟩ := hget
        rcases List.mem_append.1 hx with hx | hx
        · exact hnone ⟨x, hx, hend⟩
        · rw [List.mem_singleton.1 hx] at hend
          exact hhead (by simpa using hend)
    · rw [yielded_iterate_of_closed hs hphase] at hget
      exact hnone hget
  · intro hsaved
    refine ⟨h.inOrder, ?_, ?_⟩
    · cases hs : s.session.sessionClosed with
      | false =>
        rw [yielded_iterate_of_open hs fun hp => (nomatch hs.symm.trans (h.ended hp)), h.inOrder]
        exact throughEnd_prefix
      | true =>
        rw [← h.inOrder]
        rcases hsaved hs with hend | ⟨hphase, hhead⟩
        · exact (throughEnd_append_left hend).trans (yielded_prefix_iterate _)
        · cases hq : s.session.eventQueue with
          | nil =>
            rw [List.append_nil]
            exact throughEnd_prefix
          | cons e rest =>
            rw [hq] at hhead
            rw [List.length_cons, Function.iterate_succ_apply, advance_eq_get (Or.inl hphase),
              get_eq_of_cons hq,
              ← List.singleton_append, ← List.append_assoc]
            have hgot : ∃ x ∈ s.yielded ++ [e], x.isEnd = true :=
              ⟨e, List.mem_append_right _ (List.mem_singleton_self e), hhead e rfl⟩
            exact (throughEnd_append_left hgot).trans
              (yielded_prefix_iterate
                (s := ⟨{ s.session with eventQueue := rest }, .idle, s.yielded ++ [e]⟩) _)
    · intro hphase
      rcases hsaved (h.ended hphase) with hend | ⟨hparked, _⟩
      · exact hend
      · exact (nomatch hphase.symm.trans hparked)

/-- The consumer of `events()` is yielded every queued event in order up to the first end of the
session, and only then the generator ends, exactly if the closed flag was set while the consumer
waited for the event that followed it, or had had an end. -/
theorem session_events_delivered (server : Bool) (sessionReady : Option Future) (acts : List Act)
    (hrun : Steps.run step (start server sessionReady) acts = some s) :
    Delivered s ↔ Steps.Along step Ok (start server sessionReady) acts := by
  have hstart : Inv (start server sessionReady) := ⟨rfl, fun h => (nomatch h), fun h => (nomatch h)⟩
  have hinv : Inv s := Steps.preserved (fun _ _ _ h hstep => h.step hstep) hstart hrun
  rw [delivered_iff_saved hinv, Steps.record_iff_of_inv (fun _ _ _ h hstep => h.step hstep)
    (fun _ _ _ h hstep => saved_step h hstep) hstart hrun]
  exact and_iff_right fun h => (nomatch h)

/-- A datagram arrives while the consumer waits, and the peer closes the session once it waits
again. -/
def waitingActs : List Act :=
  [.advance, .onEvent { evtType := .wtDatagram, data := some [1] } fun _ => true,
    .advance, .advance,
    .onEvent { evtType := .wtSessionClosed } fun _ => true, .advance, .advance]

theorem session_events_delivered_waitingActs :
    ∃ s, Steps.run step (start false (some (.result 0))) waitingActs = some s ∧ s.phase = .ended ∧
    Delivered s := by
  refine ⟨_, rfl, rfl, ?_⟩
  refine (session_events_delivered false (some (.result 0)) waitingActs rfl).2 ?_
  decide +kernel

/-- The consumer is busy with a first datagram while a second arrives and the session is closed. -/
def busyActs : List Act :=
  [.advance, .onEvent { evtType := .wtDatagram, data := some [1] } fun _ => true, .advance,
    .onEvent { evtType := .wtDatagram, data := some [2] } fun _ => true, .close 0 [] fun _ =>
      true, .advance]

/-- It is yielded neither the second datagram nor the close: its generator just ends. -/
theorem session_events_delivered_busyActs :
    ∃ s, Steps.run step (start false (some (.result 0))) busyActs = some s ∧ s.phase = .ended ∧
      s.yielded = [.datagramReceived [1]] ∧
      s.session.eventQueue = [.datagramReceived [2], .sessionClosed 0 [] false none 0 []] ∧
      ¬ Delivered s := by
  refine ⟨_, rfl, rfl, rfl, rfl, ?_⟩
  intro h
  obtain ⟨e, he, hend⟩ := h.ends rfl
  rw [List.mem_singleton.1 he] at hend
  exact (nomatch hend)

end SessionEvents

end Aiopquic
