import Aiopquic.Closing
import Aiopquic.Engine
import Aiopquic.StreamCb
import Mathlib.Data.List.TakeWhile

/-!
# The end of a connection

picoquic tells the worker that a connection ended with one of three callbacks, `close`,
`application_close` and `stateless_reset`. The worker queues an event for the first two; the engine,
or a client's connection, does with it what the end of a connection asks for.

`QuicEngine.run` and `Client.run` are a server's engine and a client's connection over the callbacks
of one connection, with steps of its application in between.
-/

namespace Aiopquic

/-! ## Callbacks and what Python hears of them -/

/-- What happens to a connection: a callback, with the transport's answers while its event is
handled and whether `create_protocol` raises if it is called then, or a step of the application on
connection number `i`. -/
inductive Input
  | callback (cb : Callback) (raises : Bool) (answers : Answers)
  | app (i : ℕ) (step : AppStep)

/-- The event an input queues. -/
def Input.event (cnx : ℕ) : Input → Option RawEvent
  | .callback cb _ _ => streamCb cnx cb
  | .app _ _ => none

/-- The events queued for the connection at `cnx`. -/
def queuedEvents (cnx : ℕ) (inputs : List Input) : List RawEvent := inputs.filterMap
    (Input.event cnx)

namespace QuicEngine

/-- A step of the application of connection `i`. -/
def app (s : QuicEngine) (i : ℕ) (step : AppStep) : QuicEngine :=
  if i < s.made then
    let (c, t) := (s.conns i).app s.transport step
    { s with conns := Function.update s.conns i c, transport := t }
  else s

/-- The engine routes the event of a callback, if it queued one. -/
def serve (cnx : ℕ) (s : QuicEngine) : Input → QuicEngine
  | .callback cb raises answers =>
    match streamCb cnx cb with
    | none => s
    | some ev => (s.routeEvent { ev := ev, raises := raises, answers := answers }).1
  | .app i step => s.app i step

end QuicEngine

/-- A callback that Python hears of. -/
structure Report where
  closes : Bool
  raises : Bool
  deriving DecidableEq, Repr

def Input.report : Input → Option Report
  | .callback cb raises _ => if cb.silent then none
    else some { closes := cb.closes, raises := raises }
  | .app _ _ => none

def reports (inputs : List Input) : List Report := inputs.filterMap Input.report

theorem mem_queuedEvents_append {cnx : ℕ} {inputs more : List Input} {ev : RawEvent} :
    ev ∈ queuedEvents cnx (inputs ++ more) ↔ ev ∈ queuedEvents cnx inputs ∨
    ev ∈ queuedEvents cnx more := by
  simp only [queuedEvents, List.filterMap_append, List.mem_append]

theorem streamCb_heard {cnx : ℕ} {cb : Callback} {ev : RawEvent} (h : streamCb cnx cb = some ev) :
    ¬ cb.silent := by
  intro hs
  rw [(streamCb_eq_none_iff cnx cb).2 hs] at h
  exact absurd h (by simp)

theorem reports_concat_silent {l : List Input} {cb : Callback} {raises : Bool} {answers : Answers}
    (h : cb.silent) : reports (l ++ [.callback cb raises answers]) = reports l := by
  simp [reports, Input.report, h]

theorem reports_concat {l : List Input} {cb : Callback} {raises : Bool} {answers : Answers}
    (h : ¬ cb.silent) : reports (l ++ [.callback cb raises answers]) =
      reports l ++ [{ closes := cb.closes, raises := raises }] := by
  simp [reports, Input.report, h]

theorem exists_close_queued {inputs : List Input} (h : ∃ r ∈ reports inputs, r.closes = true)
    (cnx : ℕ) :
    ∃ ev ∈ queuedEvents cnx inputs, ev.isClose = true := by
  obtain ⟨r, hr, hcl⟩ := h
  obtain ⟨x, hx, hrep⟩ := List.mem_filterMap.1 hr
  cases x with
  | app i step => exact absurd hrep (by simp [Input.report])
  | callback cb raises answers =>
    rw [Input.report] at hrep
    split at hrep
    · exact absurd hrep (by simp)
    · rename_i hheard
      cases hrep
      cases hev : streamCb cnx cb with
      | none => exact absurd ((streamCb_eq_none_iff cnx cb).1 hev) hheard
      | some ev => exact ⟨ev, List.mem_filterMap.2 ⟨_, hx, hev⟩, (streamCb_isClose hev).trans hcl⟩

/-- Some closes, then an event for which `create_protocol` returns, others that are no close, then
at least one close, and nothing after. -/
def EndsOnce (l : List Report) : Prop :=
  ∃ early first body late, l = early ++ first :: (body ++ late) ∧ (∀ r ∈ early, r.closes = true) ∧
    first.closes = false ∧ first.raises = false ∧ (∀ r ∈ body, r.closes = false) ∧ late ≠ [] ∧
      ∀ r ∈ late, r.closes = true

/-- What the engine has at the connection's address: nothing, a connection with its protocol, or a
connection whose `create_protocol` raised. -/
inductive Phase
  | absent | open | stuck
  deriving DecidableEq, Repr

/-- How many connections the engine has made for the address, and what it has there now. -/
def tallyStep (p : ℕ × Phase) (r : Report) : ℕ × Phase :=
  match p.2 with
  | .absent => if r.closes then p else (p.1 + 1, if r.raises then .stuck else .open)
  | .open => if r.closes then (p.1, .absent) else p
  | .stuck => p

def tally (l : List Report) : ℕ × Phase := l.foldl tallyStep (0, .absent)

theorem tally_concat (l : List Report) (r : Report) : tally (l ++ [r]) = tallyStep (tally l) r := by
  simp [tally]

theorem foldl_tally_absent {l : List Report} {n : ℕ} (hl : ∀ r ∈ l, r.closes = true) :
    l.foldl tallyStep (n, .absent) = (n, .absent) := by
  induction l with
  | nil => rfl
  | cons r l ih =>
    rw [List.foldl_cons, show tallyStep (n, .absent) r = (n, .absent) from if_pos
      (hl r List.mem_cons_self)]
    exact ih fun x hx => hl x (List.mem_cons_of_mem _ hx)

theorem foldl_tally_open {l : List Report} {n : ℕ} (hl : ∀ r ∈ l, r.closes = false) :
    l.foldl tallyStep (n, .open) = (n, .open) := by
  induction l with
  | nil => rfl
  | cons r l ih =>
    rw [List.foldl_cons, show tallyStep (n, .open) r = (n, .open) by
      simp [tallyStep, hl r List.mem_cons_self]]
    exact ih fun x hx => hl x (List.mem_cons_of_mem _ hx)

theorem foldl_tally_stuck (l : List Report) (n : ℕ) :
    l.foldl tallyStep (n, .stuck) = (n, .stuck) := by
  induction l with
  | nil => rfl
  | cons r l ih => exact ih

theorem le_foldl_tally (l : List Report) (p : ℕ × Phase) : p.1 ≤ (l.foldl tallyStep p).1 := by
  induction l generalizing p with
  | nil => exact le_rfl
  | cons r l ih =>
    refine le_trans ?_ (ih (tallyStep p r))
    unfold tallyStep
    split
    · split
      · exact le_rfl
      · exact Nat.le_succ _
    · split <;> exact le_rfl
    · exact le_rfl

/-- The longest start of a list that satisfies a test. -/
theorem exists_split (p : Report → Bool) (l : List Report) :
    ∃ a b, l = a ++ b ∧ (∀ x ∈ a, p x = true) ∧ ∀ x r, b = x :: r → p x = false := by
  refine ⟨l.takeWhile p, l.dropWhile p, List.takeWhile_append_dropWhile.symm,
    fun x hx => List.mem_takeWhile_imp hx, fun x r hb => ?_⟩
  have h := List.head?_dropWhile_not p l
  rw [hb] at h
  exact h

/-- What comes after the first event of a connection ends it once. -/
theorem foldl_tally_open_iff (l : List Report) : l.foldl tallyStep (1, .open) = (1, .absent) ↔
    ∃ body late, l = body ++ late ∧ (∀ r ∈ body, r.closes = false) ∧ late ≠ [] ∧
      ∀ r ∈ late, r.closes = true := by
  constructor
  · intro h
    obtain ⟨body, tail, rfl, hbody, htail⟩ := exists_split (! ·.closes) l
    have hbody' : ∀ r ∈ body, r.closes = false := fun r hr => by simpa using hbody r hr
    rw [List.foldl_append, foldl_tally_open hbody'] at h
    cases tail with
    | nil => simp at h
    | cons y tail =>
      have hy : y.closes = true := by simpa using htail y tail rfl
      rw [List.foldl_cons, show tallyStep (1, .open) y = (1, .absent) by simp [tallyStep, hy]] at h
      obtain ⟨late, after, rfl, hlate, hafter⟩ := exists_split (·.closes) tail
      rw [List.foldl_append, foldl_tally_absent hlate] at h
      cases after with
      | nil =>
        refine ⟨body, y :: late, by simp, hbody', by simp, fun r hr => ?_⟩
        rcases List.mem_cons.1 hr with rfl | hr
        · exact hy
        · exact hlate r hr
      | cons z after =>
        -- an event after the closes makes a second connection
        have hle := le_foldl_tally after (tallyStep (1, .absent) z)
        have hz : (tallyStep (1, .absent) z).1 = 2 := by simp [tallyStep, hafter z after rfl]
        rw [List.foldl_cons] at h
        rw [h, hz] at hle
        exact absurd hle (by decide)
  · rintro ⟨body, late, rfl, hbody, hl, hlate⟩
    obtain ⟨y, late, rfl⟩ := List.exists_cons_of_ne_nil hl
    have hy := hlate y List.mem_cons_self
    rw [List.foldl_append, foldl_tally_open hbody, List.foldl_cons,
      show tallyStep (1, .open) y = (1, .absent) by simp [tallyStep, hy]]
    exact foldl_tally_absent fun r hr => hlate r (List.mem_cons_of_mem _ hr)

/-- The events make one connection and leave it closed exactly when they end once. -/
theorem tally_eq_iff (l : List Report) : tally l = (1, .absent) ↔ EndsOnce l := by
  constructor
  · intro h
    obtain ⟨early, rest, rfl, hearly, hrest⟩ := exists_split (·.closes) l
    rw [tally, List.foldl_append, foldl_tally_absent hearly] at h
    cases rest with
    | nil => simp at h
    | cons first rest =>
      have hf := hrest first rest rfl
      cases hr : first.raises with
      | true =>
        rw [List.foldl_cons, show tallyStep (0, .absent) first =
          (1, .stuck) by simp [tallyStep, hf, hr],
          foldl_tally_stuck] at h
        exact absurd h (by simp)
      | false =>
        rw [List.foldl_cons,
          show tallyStep (0, .absent) first = (1, .open) by simp [tallyStep, hf, hr]] at h
        obtain ⟨body, late, rfl, hbody, hl, hlate⟩ := (foldl_tally_open_iff rest).1 h
        exact ⟨early, first, body, late, rfl, hearly, hf, hr, hbody, hl, hlate⟩
  · rintro ⟨early, first, body, late, rfl, hearly, hf, hr, hbody, hl, hlate⟩
    rw [tally, List.foldl_append, foldl_tally_absent hearly, List.foldl_cons,
      show tallyStep (0, .absent) first = (1, .open) by simp [tallyStep, hf, hr]]
    exact (foldl_tally_open_iff _).2 ⟨body, late, rfl, hbody, hl, hlate⟩

/-! ## A server's connection -/

namespace QuicEngine

variable {cnx : ℕ} {s : QuicEngine} {d : Drained} {i : ℕ} {gone : ℕ → Prop}

/-- A connection that was closed, and whose protocol was told so once. -/
structure Past (s : QuicEngine) (i : ℕ) : Prop where
  released : (s.conns i).Released
  reported : terminations (s.protos i).received = 1

/-- A connection that has not been closed. -/
structure Fresh (s : QuicEngine) (i : ℕ) : Prop where
  terminated : (s.conns i).terminated = false
  events : (s.conns i).events = []
  reported : terminations (s.protos i).received = 0

/-- Connection `i` is the last one made and the one at `cnx`, and the ones before it are closed. -/
structure Current (s : QuicEngine) (cnx i : ℕ) : Prop where
  made : s.made = i + 1
  connection : s.connections cnx = some i
  protocol : s.protocols cnx = some i
  fresh : s.Fresh i
  past : ∀ j < i, s.Past j

/-- What the engine has of the connection at `cnx` in each phase. -/
def Serving (cnx : ℕ) (s : QuicEngine) : Phase → Prop
  | .absent => s.connections cnx = none ∧ s.protocols cnx = none ∧ (∀ i < s.made, s.Past i) ∧
      s.transport.ringDrainEvent ≠ some false
  | .open => ∃ i, s.Current cnx i
  | .stuck => s.connections cnx ≠ none ∧ s.protocols cnx = none

/-- What `dispatch` does to the connections and protocols. -/
theorem dispatch_eq (hp : s.protocols d.ev.cnxPtr = some i) :
    let c := ((s.conns i).enqueueRaw s.transport d.answers d.ev).1
    (s.dispatch i d).1.conns = Function.update s.conns i { c with events := [] } ∧
      (s.dispatch i d).1.protos = Function.update s.protos i
        { received := (s.protos i).received ++ c.events,
          closed := (s.protos i).closed || c.events.any (·.isTerminated) } ∧
      (s.dispatch i d).1.transport = ((s.conns i).enqueueRaw s.transport d.answers d.ev).2 ∧
      (s.dispatch i d).1.made = s.made := by
  rw [dispatch_known hp]
  split <;> simp [enqueue, processEvents, forget]

theorem Past.of_eq {s' : QuicEngine} (h : s.Past i) (hc : s'.conns i = s.conns i)
    (hp : s'.protos i = s.protos i) : s'.Past i := by
  refine ⟨?_, ?_⟩
  · rw [hc]
    exact h.released
  · rw [hp]
    exact h.reported

/-- An event that is no close leaves the connection current. -/
theorem Current.dispatch_open (h : s.Current cnx i) (hd : d.ev.cnxPtr = cnx)
    (hcl : d.ev.isClose = false) :
    (s.dispatch i d).1.Current cnx i := by
  subst hd
  obtain ⟨hconns, hprotos, -, hmade⟩ := dispatch_eq (i := i) h.protocol
  have hkeeps := (QuicConnection.enqueueRaw_keeps (c := s.conns i) (t := s.transport)
    (a := d.answers) hcl).1
  refine ⟨hmade.trans h.made, ?_, ?_, ⟨?_, ?_, ?_⟩, fun j hj => ?_⟩
  · rw [dispatch_connections h.protocol, hcl]
    exact h.connection
  · rw [dispatch_protocols h.protocol, hcl]
    exact h.protocol
  · rw [hconns, Function.update_self]
    exact hkeeps.terminated.trans h.fresh.terminated
  · rw [hconns, Function.update_self]
  · rw [hprotos, Function.update_self]
    show terminations (_ ++ _) = 0
    rw [terminations_append, hkeeps.events, h.fresh.reported, h.fresh.events]
    rfl
  · refine (h.past j hj).of_eq ?_ ?_
    · rw [hconns, Function.update_of_ne (Nat.ne_of_lt hj)]
    · rw [hprotos, Function.update_of_ne (Nat.ne_of_lt hj)]

/-- A close ends the current connection. -/
theorem Current.dispatch_close (h : s.Current cnx i) (hd : d.ev.cnxPtr = cnx)
    (hcl : d.ev.isClose = true) :
    (s.dispatch i d).1.Serving cnx .absent ∧ (s.dispatch i d).1.made = s.made := by
  subst hd
  obtain ⟨hconns, hprotos, htransport, hmade⟩ := dispatch_eq (i := i) h.protocol
  have hended := QuicConnection.handleClose_ended (s.conns i) s.transport d.ev
  rw [← QuicConnection.enqueueRaw_close (a := d.answers) hcl] at hended
  refine ⟨⟨?_, ?_, fun j hj => ?_, ?_⟩, hmade⟩
  · rw [dispatch_connections h.protocol, if_pos hcl]
    exact Function.update_self _ _ _
  · rw [dispatch_protocols h.protocol, if_pos hcl]
    exact Function.update_self _ _ _
  · rw [hmade, h.made] at hj
    rcases Nat.lt_succ_iff_lt_or_eq.1 hj with hj | rfl
    · refine (h.past j hj).of_eq ?_ ?_
      · rw [hconns, Function.update_of_ne (Nat.ne_of_lt hj)]
      · rw [hprotos, Function.update_of_ne (Nat.ne_of_lt hj)]
    · refine ⟨?_, ?_⟩
      · rw [hconns, Function.update_self]
        have hr := hended.released
        exact ⟨hr.closed, hr.dropped, hr.streamCtxs, hr.scOwned, hr.dgramRing, hr.woken,
          hr.dgramWoken⟩
      · rw [hprotos, Function.update_self]
        show terminations (_ ++ _) = 1
        rw [terminations_append, hended.events, h.fresh.terminated, h.fresh.reported,
          h.fresh.events]
        rfl
  · rw [htransport]
    exact hended.ring

/-- An event for a connection without a protocol. -/
theorem dispatch_stuck (hp : s.protocols d.ev.cnxPtr = none) :
    s.dispatch i d = (s.enqueue i d, some .keyError) := by
  rw [dispatch]
  simp only [enqueue_protocols, hp]

/-- The connection made for an event of an address that is not known is current. -/
theorem bind_current (hpast : ∀ j < s.made, s.Past j) (cnx : ℕ) :
    ((s.spawn cnx).bind cnx s.made).Current cnx s.made := by
  refine ⟨rfl, Function.update_self _ _ _, Function.update_self _ _ _, ⟨?_, ?_, ?_⟩, fun j hj => ?_⟩
  · simp [spawn, bind, QuicConnection.ofEngine]
  · simp [spawn, bind, QuicConnection.ofEngine]
  · simp [spawn, bind]
  · refine (hpast j hj).of_eq ?_ ?_
    · exact Function.update_of_ne (Nat.ne_of_lt hj) _ _
    · exact Function.update_of_ne (Nat.ne_of_lt hj) _ _

/-- One event keeps what the engine has in step with its phase. -/
theorem Serving.routeEvent {phase : Phase} (h : s.Serving cnx phase) (h0 : cnx ≠ 0)
    (hd : d.ev.cnxPtr = cnx) :
    let p := tallyStep (s.made, phase) { closes := d.ev.isClose, raises := d.raises }
    (s.routeEvent d).1.Serving cnx p.2 ∧ (s.routeEvent d).1.made = p.1 := by
  cases phase with
  | absent =>
    obtain ⟨hconn, hproto, hpast, hring⟩ := id h
    cases hcl : d.ev.isClose with
    | true =>
      rw [routeEvent_close (hd ▸ hconn) hcl]
      exact ⟨h, rfl⟩
    | false =>
      rw [routeEvent_new (hd ▸ h0) (hd ▸ hconn) hcl, hd]
      cases hr : d.raises with
      | true =>
        refine ⟨⟨?_, hproto⟩, rfl⟩
        simp [spawn]
      | false =>
        have hcur := bind_current hpast cnx
        refine ⟨⟨s.made, hcur.dispatch_open hd hcl⟩, ?_⟩
        exact (dispatch_eq (hd ▸ hcur.protocol)).2.2.2
  | «open» =>
    obtain ⟨i, hcur⟩ := h
    rw [routeEvent_known (hd ▸ h0) (hd ▸ hcur.connection)]
    cases hcl : d.ev.isClose with
    | true => exact hcur.dispatch_close hd hcl
    | false => exact ⟨⟨i, hcur.dispatch_open hd hcl⟩, (dispatch_eq (hd ▸ hcur.protocol)).2.2.2⟩
  | stuck =>
    obtain ⟨hconn, hproto⟩ := h
    obtain ⟨i, hi⟩ := Option.ne_none_iff_exists'.1 hconn
    rw [routeEvent_known (hd ▸ h0) (hd ▸ hi)]
    rw [dispatch_stuck (hd ▸ hproto)]
    exact ⟨⟨hconn, hproto⟩, rfl⟩

theorem app_eq (hi : i < s.made) (step : AppStep) : s.app i step =
    { s with
      conns := Function.update s.conns i ((s.conns i).app s.transport step).1
      transport := ((s.conns i).app s.transport step).2 } := if_pos hi

/-- The application of a closed connection does nothing. -/
theorem Past.app (h : s.Past i) (hi : i < s.made) (step : AppStep) : s.app i step = s := by
  rw [app_eq hi, ((s.conns i).app_keeps s.transport step).2.2 h.released.closed]
  simp only [Function.update_eq_self]

theorem app_tables (step : AppStep) : (s.app i step).connections = s.connections ∧
    (s.app i step).protocols = s.protocols ∧ (s.app i step).made = s.made := by
  unfold app
  split <;> exact ⟨rfl, rfl, rfl⟩

/-- A step of the application keeps what the engine has. -/
theorem Serving.app {phase : Phase} (h : s.Serving cnx phase) (i : ℕ) (step : AppStep) :
    (s.app i step).Serving cnx phase := by
  by_cases hi : i < s.made
  · cases phase with
    | absent =>
      rw [(h.2.2.1 i hi).app hi]
      exact h
    | «open» =>
      obtain ⟨k, hcur⟩ := h
      rcases Nat.lt_succ_iff_lt_or_eq.1 (hcur.made ▸ hi) with hlt | rfl
      · rw [(hcur.past i hlt).app hi]
        exact ⟨k, hcur⟩
      · have hkeeps := (s.conns i).app_keeps s.transport step
        rw [app_eq hi]
        refine ⟨i, hcur.made, hcur.connection, hcur.protocol, ⟨?_, ?_, hcur.fresh.reported⟩,
          fun j hj => ?_⟩
        · show (Function.update s.conns i _ i).terminated = false
          rw [Function.update_self, hkeeps.1]
          exact hcur.fresh.terminated
        · show (Function.update s.conns i _ i).events = []
          rw [Function.update_self, hkeeps.2.1]
          exact hcur.fresh.events
        · exact (hcur.past j hj).of_eq (Function.update_of_ne (Nat.ne_of_lt hj) _ _) rfl
    | stuck =>
      obtain ⟨hc, hp, -⟩ := app_tables (s := s) (i := i) step
      exact ⟨hc ▸ h.1, hp ▸ h.2⟩
  · rw [QuicEngine.app, if_neg hi]
    exact h

/-- The engine after a list of inputs. -/
def run (cnx : ℕ) (inputs : List Input) : QuicEngine := inputs.foldl (serve cnx) {}

theorem run_concat (cnx : ℕ) (inputs : List Input) (x : Input) :
    run cnx (inputs ++ [x]) = (run cnx inputs).serve cnx x := by
  simp [run]

/-- What the engine has follows the tally of the reports. -/
theorem run_serving (h0 : cnx ≠ 0) (inputs : List Input) :
    (run cnx inputs).Serving cnx (tally (reports inputs)).2 ∧
      (run cnx inputs).made = (tally (reports inputs)).1 := by
  induction inputs using List.reverseRecOn with
  | nil =>
    refine ⟨⟨rfl, rfl, fun i hi => ?_, by simp [run]⟩, rfl⟩
    exact absurd hi (Nat.not_lt_zero i)
  | append_singleton l x ih =>
    obtain ⟨hserving, hmade⟩ := ih
    rw [run_concat]
    cases x with
    | app i step =>
      have hrep : reports (l ++ [.app i step]) = reports l := by simp [reports, Input.report]
      rw [hrep]
      exact ⟨hserving.app i step, app_tables step |>.2.2.trans hmade⟩
    | callback cb raises answers =>
      cases hev : streamCb cnx cb with
      | none =>
        rw [reports_concat_silent ((streamCb_eq_none_iff cnx cb).1 hev), serve, hev]
        exact ⟨hserving, hmade⟩
      | some ev =>
        have hstep := hserving.routeEvent (d := { ev := ev, raises := raises, answers := answers })
          h0
          (streamCb_cnx hev)
        rw [hmade, streamCb_isClose hev] at hstep
        rw [reports_concat (streamCb_heard hev), tally_concat, serve, hev]
        exact hstep

/-! Nothing that a connection held is lost. -/

/-- Every connection's holdings are accounted for. -/
structure Accounts (gone : ℕ → Prop) (s s' : QuicEngine) : Prop where
  made : s.made ≤ s'.made
  conns : ∀ i < s.made, (s.conns i).Accounts gone s.transport (s'.conns i) s'.transport

theorem Accounts.refl (gone : ℕ → Prop) (s : QuicEngine) : s.Accounts gone s :=
  ⟨le_rfl, fun _ _ => .of_subset subset_rfl rfl⟩

theorem Accounts.trans {s' s'' : QuicEngine} (h : s.Accounts gone s') (h' : s'.Accounts gone s'') :
    s.Accounts gone s'' :=
  ⟨h.made.trans h'.made, fun i hi => (h.conns i hi).trans (h'.conns i (hi.trans_le h.made))⟩

/-- A step on one connection. -/
theorem Accounts.update {s' : QuicEngine} {c : QuicConnection} (hmade : s.made ≤ s'.made)
    (hconns : s'.conns = Function.update s.conns i c)
    (h : (s.conns i).Accounts gone s.transport c s'.transport) : s.Accounts gone s' := by
  refine ⟨hmade, fun j _ => ?_⟩
  rw [hconns]
  by_cases hj : j = i
  · subst hj
    rw [Function.update_self]
    exact h
  · rw [Function.update_of_ne hj]
    exact ⟨fun _ hsc => .inl hsc, fun _ => .inl rfl, h.destroyed, h.released⟩

theorem dispatch_accounts (hgone : d.ev.evtType = .streamDestroy → gone d.ev.streamCtxPtr)
    (hp : s.protocols d.ev.cnxPtr = some i ∨ s.protocols d.ev.cnxPtr = none) :
    s.Accounts gone (s.dispatch i d).1 := by
  have hacc := QuicConnection.enqueueRaw_accounts (c := s.conns i) (t := s.transport)
    (a := d.answers) hgone
  rcases hp with hp | hp
  · obtain ⟨hconns, -, htransport, hmade⟩ := dispatch_eq hp
    refine .update hmade.ge hconns ?_
    rw [htransport]
    exact ⟨hacc.owned, hacc.ring, hacc.destroyed, hacc.released⟩
  · rw [dispatch_stuck hp]
    exact .update le_rfl rfl hacc

theorem Serving.routeEvent_accounts {phase : Phase} (h : s.Serving cnx phase) (h0 : cnx ≠ 0)
    (hd : d.ev.cnxPtr = cnx) (hgone : d.ev.evtType = .streamDestroy → gone d.ev.streamCtxPtr) :
    s.Accounts gone (s.routeEvent d).1 := by
  cases phase with
  | absent =>
    cases hcl : d.ev.isClose with
    | true =>
      rw [routeEvent_close (hd ▸ h.1) hcl]
      exact .refl gone s
    | false =>
      have hspawn : s.Accounts gone ((s.spawn cnx).bind cnx s.made) := by
        refine ⟨Nat.le_succ _, fun i hi => ?_⟩
        show (s.conns i).Accounts gone s.transport (Function.update s.conns s.made _ i) s.transport
        rw [Function.update_of_ne (Nat.ne_of_lt hi)]
        exact .of_subset subset_rfl rfl
      rw [routeEvent_new (hd ▸ h0) (hd ▸ h.1) hcl, hd]
      cases d.raises with
      | true => exact ⟨hspawn.made, hspawn.conns⟩
      | false =>
        exact hspawn.trans
          (dispatch_accounts hgone (.inl (hd ▸ Function.update_self _ _ _)))
  | «open» =>
    obtain ⟨i, hcur⟩ := h
    rw [routeEvent_known (hd ▸ h0) (hd ▸ hcur.connection)]
    exact dispatch_accounts hgone (.inl (hd ▸ hcur.protocol))
  | stuck =>
    obtain ⟨i, hi⟩ := Option.ne_none_iff_exists'.1 h.1
    rw [routeEvent_known (hd ▸ h0) (hd ▸ hi)]
    exact dispatch_accounts hgone (.inr (hd ▸ h.2))

theorem app_accounts (s : QuicEngine) (i : ℕ) (step : AppStep) :
    s.Accounts gone (s.app i step) := by
  by_cases hi : i < s.made
  · rw [app_eq hi]
    exact .update le_rfl rfl ((s.conns i).app_accounts s.transport step)
  · rw [QuicEngine.app, if_neg hi]
    exact .refl gone s

theorem serve_accounts (h0 : cnx ≠ 0) (inputs : List Input) {x : Input}
    (hgone : ∀ ev, x.event cnx = some ev → ev.evtType = .streamDestroy → gone ev.streamCtxPtr) :
    (run cnx inputs).Accounts gone ((run cnx inputs).serve cnx x) := by
  cases x with
  | app i step => exact app_accounts _ i step
  | callback cb raises answers =>
    rw [serve]
    cases hev : streamCb cnx cb with
    | none => exact .refl gone _
    | some ev =>
      exact (run_serving h0 inputs).1.routeEvent_accounts h0 (streamCb_cnx hev)
        (hgone ev hev)

theorem run_accounts (h0 : cnx ≠ 0) (inputs more : List Input)
    (hgone : ∀ ev ∈ queuedEvents cnx more, ev.evtType = .streamDestroy → gone ev.streamCtxPtr) :
    (run cnx inputs).Accounts gone (run cnx (inputs ++ more)) := by
  induction more using List.reverseRecOn with
  | nil =>
    rw [List.append_nil]
    exact .refl gone _
  | append_singleton l x ih =>
    rw [← List.append_assoc, run_concat]
    refine (ih fun ev hev => hgone ev ?_).trans (serve_accounts h0 _ fun ev hev => hgone ev ?_)
    · exact mem_queuedEvents_append.2 (.inl hev)
    · simp [queuedEvents, hev]

/-- The connection at `cnx` was ended: a close was queued for it, its `QuicConnection` is closed
with its writers woken and everything it held given back, its protocol was told so once, and the
tables do not hold its address. -/
structure Ended (cnx : ℕ) (inputs : List Input) : Prop where
  queued : ∃ ev ∈ queuedEvents cnx inputs, ev.isClose = true
  made : (run cnx inputs).made = 1
  released : ((run cnx inputs).conns 0).Released
  reported : terminations ((run cnx inputs).protos 0).received = 1
  woken : (run cnx inputs).transport.ringDrainEvent ≠ some false
  contexts : ∀ pre, pre <+: inputs → 0 < (run cnx pre).made →
    ∀ sc ∈ ((run cnx pre).conns 0).scOwned,
    sc ∈ (run cnx inputs).transport.scDestroyed ∨
      ∃ ev ∈ queuedEvents cnx inputs, ev.evtType = .streamDestroy ∧ ev.streamCtxPtr = sc
  rings : ∀ pre, pre <+: inputs → 0 < (run cnx pre).made → ((run cnx pre).conns 0).dgramRing ≠ 0 →
    ∃ p, (((run cnx pre).conns 0).dgramRing, p) ∈ (run cnx inputs).transport.dgramReleased
  forgotten : (run cnx inputs).connections cnx = none ∧ (run cnx inputs).protocols cnx = none

theorem ended_iff (h0 : cnx ≠ 0) (inputs : List Input) :
    Ended cnx inputs ↔ EndsOnce (reports inputs) := by
  obtain ⟨hserving, hmade⟩ := run_serving h0 inputs
  rw [← tally_eq_iff]
  constructor
  · intro h
    have hphase : (tally (reports inputs)).2 = .absent := by
      cases hp : (tally (reports inputs)).2 with
      | absent => rfl
      | «open» =>
        rw [hp] at hserving
        obtain ⟨i, hcur⟩ := hserving
        exact absurd (hcur.connection.symm.trans h.forgotten.1) (by simp)
      | stuck =>
        rw [hp] at hserving
        exact absurd h.forgotten.1 hserving.1
    exact Prod.ext (hmade.symm.trans h.made) hphase
  · intro h
    rw [h] at hserving hmade
    obtain ⟨hconn, hproto, hpast, hring⟩ := hserving
    have hone : 0 < (run cnx inputs).made := by omega
    have hreleased := (hpast 0 hone).released
    obtain ⟨early, first, body, late, hsplit, -, -, -, -, hl, hlate⟩ := (tally_eq_iff _).1 h
    have hclose : ∃ r ∈ reports inputs, r.closes = true := by
      obtain ⟨r, hr⟩ := List.exists_mem_of_ne_nil late hl
      exact ⟨r, by simp [hsplit, hr], hlate r hr⟩
    have hacc : ∀ pre, pre <+: inputs → (run cnx pre).Accounts
        (fun sc => ∃ ev ∈ queuedEvents cnx inputs, ev.evtType = .streamDestroy ∧
          ev.streamCtxPtr = sc)
        (run cnx inputs) := by
      rintro pre ⟨more, rfl⟩
      exact run_accounts h0 pre more fun ev hev hty =>
        ⟨ev, mem_queuedEvents_append.2 (.inr hev), hty, rfl⟩
    refine ⟨exists_close_queued hclose cnx, hmade, hreleased, (hpast 0 hone).reported, hring,
      fun pre hpre hm sc hsc => ?_, fun pre hpre hm hr => ?_, hconn, hproto⟩
    · rcases ((hacc pre hpre).conns 0 hm).owned sc hsc with hheld | hgone
      · rw [hreleased.scOwned] at hheld
        exact absurd hheld (Finset.notMem_empty sc)
      · exact hgone
    · rcases ((hacc pre hpre).conns 0 hm).ring hr with hheld | hgiven
      · exact absurd (hheld.symm.trans hreleased.dgramRing) hr
      · exact hgiven

end QuicEngine

/-! ## A client's connection -/

/-- A client: its connection, and the events its protocol got. -/
structure Client where
  conn : QuicConnection := .client
  transport : Transport := {}
  received : List QuicEvent := []

namespace Client

variable {cnx : ℕ} {s s' : Client} {gone : ℕ → Prop} {ev : RawEvent} {answers : Answers}

/-- `_handle_raw_event`, and then `next_event` until there is none. -/
def handle (s : Client) (answers : Answers) (ev : RawEvent) : Client :=
  let (c, t) := s.conn.handleRawEvent s.transport answers ev
  { conn := { c with events := [] }, transport := t, received := s.received ++ c.events }

/-- The client handles the event of a callback, if it queued one. -/
def consume (cnx : ℕ) (s : Client) : Input → Client
  | .callback cb _ answers =>
    match streamCb cnx cb with
    | none => s
    | some ev => s.handle answers ev
  | .app _ step =>
    let (c, t) := s.conn.app s.transport step
    { s with conn := c, transport := t }

def run (cnx : ℕ) (inputs : List Input) : Client := inputs.foldl (consume cnx) {}

theorem run_concat (cnx : ℕ) (inputs : List Input) (x : Input) :
    run cnx (inputs ++ [x]) = (run cnx inputs).consume cnx x := by
  simp [run]

/-- What a client has before and after the first close. -/
structure Serving (s : Client) (closed : Bool) : Prop where
  events : s.conn.events = []
  terminated : s.conn.terminated = closed
  reported : terminations s.received = if closed then 1 else 0
  released : closed = true → s.conn.Released ∧ s.transport.ringDrainEvent ≠ some false

theorem handle_received (s : Client) (answers : Answers) (ev : RawEvent) :
    terminations (s.handle answers ev).received = terminations s.received +
      terminations (s.conn.handleRawEvent s.transport answers ev).1.events :=
  terminations_append _ _

theorem Serving.handle {closed : Bool} (h : s.Serving closed) (answers : Answers) (ev : RawEvent) :
    (s.handle answers ev).Serving (closed || ev.isClose) := by
  cases hcl : ev.isClose with
  | true =>
    have hended := QuicConnection.handleClose_ended s.conn s.transport ev
    rw [← QuicConnection.handleRawEvent_close (a := answers) hcl] at hended
    have hr := hended.released
    rw [Bool.or_true]
    refine ⟨rfl, hended.terminated, ?_, fun _ => ⟨?_, hended.ring⟩⟩
    · rw [handle_received, hended.events, h.reported, h.terminated, h.events]
      cases closed <;> rfl
    · exact ⟨hr.closed, hr.dropped, hr.streamCtxs, hr.scOwned, hr.dgramRing, hr.woken,
        hr.dgramWoken⟩
  | false =>
    obtain ⟨hkeeps, htransport⟩ := QuicConnection.handleRawEvent_keeps (c := s.conn)
      (t := s.transport)
      (a := answers) hcl
    rw [Bool.or_false]
    refine ⟨rfl, hkeeps.terminated.trans h.terminated, ?_, fun hclosed => ?_⟩
    · rw [handle_received, hkeeps.events, h.events, terminations_nil, Nat.add_zero]
      exact h.reported
    · have hr := hkeeps.released (h.released hclosed).1
      refine ⟨⟨hr.closed, hr.dropped, hr.streamCtxs, hr.scOwned, hr.dgramRing, hr.woken,
        hr.dgramWoken⟩, ?_⟩
      show (s.conn.handleRawEvent s.transport answers ev).2.ringDrainEvent ≠ some false
      rw [htransport]
      exact (h.released hclosed).2

theorem Serving.app {closed : Bool} (h : s.Serving closed) (i : ℕ) (step : AppStep) :
    (s.consume cnx (.app i step)).Serving closed := by
  obtain ⟨hterm, hev, hclosed⟩ := s.conn.app_keeps s.transport step
  refine ⟨hev.trans h.events, hterm.trans h.terminated, h.reported, fun hc => ?_⟩
  rw [consume, hclosed (h.released hc).1.closed]
  exact h.released hc

theorem run_serving (cnx : ℕ) (inputs : List Input) :
    (run cnx inputs).Serving ((reports inputs).any (·.closes)) := by
  induction inputs using List.reverseRecOn with
  | nil => exact ⟨rfl, rfl, rfl, fun h => absurd h (by simp [reports])⟩
  | append_singleton l x ih =>
    rw [run_concat]
    cases x with
    | app i step =>
      have hrep : reports (l ++ [.app i step]) = reports l := by simp [reports, Input.report]
      rw [hrep]
      exact ih.app i step
    | callback cb raises answers =>
      rw [consume]
      cases hev : streamCb cnx cb with
      | none =>
        rw [reports_concat_silent ((streamCb_eq_none_iff cnx cb).1 hev)]
        exact ih
      | some ev =>
        rw [reports_concat (streamCb_heard hev), List.any_append, List.any_cons, List.any_nil,
          Bool.or_false,
          ← streamCb_isClose hev]
        exact ih.handle answers ev

theorem consume_accounts (s : Client) {x : Input}
    (hgone : ∀ ev, x.event cnx = some ev → ev.evtType = .streamDestroy → gone ev.streamCtxPtr) :
    s.conn.Accounts gone s.transport (s.consume cnx x).conn (s.consume cnx x).transport := by
  cases x with
  | app i step => exact s.conn.app_accounts s.transport step
  | callback cb raises answers =>
    rw [consume]
    cases hev : streamCb cnx cb with
    | none => exact .of_subset subset_rfl rfl
    | some ev =>
      have hacc := QuicConnection.handleRawEvent_accounts (c := s.conn) (t := s.transport)
        (a := answers)
        (hgone ev hev)
      exact ⟨hacc.owned, hacc.ring, hacc.destroyed, hacc.released⟩

theorem run_accounts (inputs more : List Input)
    (hgone : ∀ ev ∈ queuedEvents cnx more, ev.evtType = .streamDestroy → gone ev.streamCtxPtr) :
    (run cnx inputs).conn.Accounts gone (run cnx inputs).transport (run cnx (inputs ++ more)).conn
      (run cnx (inputs ++ more)).transport := by
  induction more using List.reverseRecOn with
  | nil =>
    rw [List.append_nil]
    exact .of_subset subset_rfl rfl
  | append_singleton l x ih =>
    rw [← List.append_assoc, run_concat]
    refine (ih fun ev hev => hgone ev ?_).trans (consume_accounts _ fun ev hev => hgone ev ?_)
    · exact mem_queuedEvents_append.2 (.inl hev)
    · simp [queuedEvents, hev]

/-- The client's connection was ended: a close was queued for it, and it is closed with its writers
woken and everything it held given back, and its protocol was told so once. -/
structure Ended (cnx : ℕ) (inputs : List Input) : Prop where
  queued : ∃ ev ∈ queuedEvents cnx inputs, ev.isClose = true
  released : (run cnx inputs).conn.Released
  reported : terminations (run cnx inputs).received = 1
  woken : (run cnx inputs).transport.ringDrainEvent ≠ some false
  contexts : ∀ pre, pre <+: inputs → ∀ sc ∈ (run cnx pre).conn.scOwned,
    sc ∈ (run cnx inputs).transport.scDestroyed ∨
      ∃ ev ∈ queuedEvents cnx inputs, ev.evtType = .streamDestroy ∧ ev.streamCtxPtr = sc
  rings : ∀ pre, pre <+: inputs → (run cnx pre).conn.dgramRing ≠ 0 →
    ∃ p, ((run cnx pre).conn.dgramRing, p) ∈ (run cnx inputs).transport.dgramReleased

theorem ended_iff (cnx : ℕ) (inputs : List Input) :
    Ended cnx inputs ↔ ∃ r ∈ reports inputs, r.closes = true := by
  have hserving := run_serving cnx inputs
  constructor
  · intro h
    have hrep := hserving.reported
    rw [h.reported] at hrep
    split at hrep
    · rename_i hany
      exact List.any_eq_true.1 hany
    · exact absurd hrep (by simp)
  · intro h
    have hany : (reports inputs).any (·.closes) = true := List.any_eq_true.2 h
    rw [hany] at hserving
    obtain ⟨hreleased, hring⟩ := hserving.released rfl
    have hacc : ∀ pre, pre <+: inputs → (run cnx pre).conn.Accounts
        (fun sc => ∃ ev ∈ queuedEvents cnx inputs, ev.evtType = .streamDestroy ∧
          ev.streamCtxPtr = sc)
        (run cnx pre).transport (run cnx inputs).conn (run cnx inputs).transport := by
      rintro pre ⟨more, rfl⟩
      exact run_accounts pre more fun ev hev hty =>
        ⟨ev, mem_queuedEvents_append.2 (.inr hev), hty, rfl⟩
    refine ⟨exists_close_queued h cnx, hreleased, hserving.reported, hring,
      fun pre hpre sc hsc => ?_,
      fun pre hpre hr => ?_⟩
    · rcases (hacc pre hpre).owned sc hsc with hheld | hgone
      · rw [hreleased.scOwned] at hheld
        exact absurd hheld (Finset.notMem_empty sc)
      · exact hgone
    · rcases (hacc pre hpre).ring hr with hheld | hgiven
      · exact absurd (hheld.symm.trans hreleased.dgramRing) hr
      · exact hgiven

end Client

/-! ## Every end is reported -/

/-- A server's connection is ended exactly when the callbacks Python hears of are closes, an event
for which `create_protocol` returns, events that are no close, and closes; a client's, exactly when
they have a close. -/
theorem connection_end_reported_iff {cnx : ℕ} (h0 : cnx ≠ 0) (inputs : List Input) :
    (QuicEngine.Ended cnx inputs ↔ EndsOnce (reports inputs)) ∧
      (Client.Ended cnx inputs ↔ ∃ r ∈ reports inputs, r.closes = true) :=
  ⟨QuicEngine.ended_iff h0 inputs, Client.ended_iff cnx inputs⟩

/-- A handshake, and a stateless reset. -/
def resetInputs : List Input :=
  [.callback { event := .ready } false {}, .callback { event := .statelessReset } false {}]

/-- A handshake, and a close by the peer. -/
def closedInputs : List Input :=
  [.callback { event := .ready } false {}, .callback { event := .close } false {}]

theorem connection_end_reported_closedInputs :
    QuicEngine.Ended 4096 closedInputs ∧ Client.Ended 4096 closedInputs := by
  obtain ⟨hserver, hclient⟩ := connection_end_reported_iff (show (4096 : ℕ) ≠ 0 by decide)
    closedInputs
  refine ⟨hserver.2 ?_, hclient.2 ?_⟩
  · exact ⟨[], ⟨false, false⟩, [],
      [⟨true, false⟩], by decide, by decide, rfl, rfl, by decide, by decide,
      by decide⟩
  · exact ⟨⟨true, false⟩, by decide, rfl⟩

/-- A stateless reset ends the connection, and nothing is queued for it: the engine goes on to hold
it. -/
theorem connection_end_unreported_resetInputs :
    (∃ cb raises answers, Input.callback cb raises answers ∈ resetInputs ∧ cb.event =
    .statelessReset) ∧
      (∀ ev ∈ queuedEvents 4096 resetInputs, ev.isClose = false) ∧
      ¬ QuicEngine.Ended 4096 resetInputs ∧ ¬ Client.Ended 4096 resetInputs ∧
      (QuicEngine.run 4096 resetInputs).connections 4096 = some 0 ∧
      ((QuicEngine.run 4096 resetInputs).conns 0).closed = false := by
  refine ⟨⟨{ event := .statelessReset }, false, {}, by simp [resetInputs], rfl⟩, by
    decide, fun h => ?_,
    fun h => ?_, by decide, by decide⟩
  · exact absurd h.forgotten.1 (by decide)
  · exact absurd h.released.closed (by decide)

end Aiopquic
