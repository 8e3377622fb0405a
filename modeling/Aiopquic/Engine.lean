import Aiopquic.Connection

/-!
# `QuicEngine` (`quic/connection.py`)

The server's engine routes every drained event to the connection at the event's address: it makes a
`QuicConnection` and, with `create_protocol`, its protocol at the first event of an address it does
not know, and forgets the address at a close. `route_batch` logs an exception and goes on with the
next event.

The connections made are numbered; a protocol has the number of its connection. `calls` counts the
calls of `create_protocol`.
-/

namespace Aiopquic

/-- `QuicConnectionProtocol`: the events its `quic_event_received` got, and its `_closed` event. -/
structure QuicConnectionProtocol where
  received : List QuicEvent := []
  closed : Bool := false

/-- `QuicEngine`. -/
structure QuicEngine where
  connections : ℕ → Option ℕ := fun _ => none
  protocols : ℕ → Option ℕ := fun _ => none
  conns : ℕ → QuicConnection := fun _ => .ofEngine 0
  protos : ℕ → QuicConnectionProtocol := fun _ => {}
  made : ℕ := 0
  transport : Transport := {}
  calls : ℕ := 0

/-- An event of a batch, with what happens outside the engine while it is routed: whether
`create_protocol` raises if it is called, and what the transport answers. -/
structure Drained where
  ev : RawEvent
  raises : Bool := false
  answers : Answers := {}

/-- What `route_event` raises. -/
inductive Raised
  | createProtocol
  | keyError
  deriving DecidableEq, Repr

namespace QuicEngine

/-- `conn._enqueue_raw(..)` on connection `i`. -/
def enqueue (s : QuicEngine) (i : ℕ) (d : Drained) : QuicEngine :=
  let (c, t) := (s.conns i).enqueueRaw s.transport d.answers d.ev
  { s with conns := Function.update s.conns i c, transport := t }

/-- `proto._process_events()` of protocol `i`; its handlers' exceptions are caught there. -/
def processEvents (s : QuicEngine) (i : ℕ) : QuicEngine :=
  let c := s.conns i
  let p := s.protos i
  { s with
    conns := Function.update s.conns i { c with events := [] }
    protos := Function.update s.protos i
      { received := p.received ++ c.events, closed := p.closed || c.events.any (·.isTerminated) } }

/-- The two pops at the end of `route_event`. -/
def forget (s : QuicEngine) (cnxPtr : ℕ) : QuicEngine :=
  { s with
    connections := Function.update s.connections cnxPtr none
    protocols := Function.update s.protocols cnxPtr none }

/-- `route_event` from `conn._enqueue_raw` on. -/
def dispatch (s : QuicEngine) (i : ℕ) (d : Drained) : QuicEngine × Option Raised :=
  let s := s.enqueue i d
  match s.protocols d.ev.cnxPtr with
  | none => (s, some .keyError)
  | some p =>
    let s := s.processEvents p
    if d.ev.isClose then (s.forget d.ev.cnxPtr, none) else (s, none)

/-- The connection that `route_event` makes and stores for an address it does not know. -/
def spawn (s : QuicEngine) (cnxPtr : ℕ) : QuicEngine :=
  { s with
    connections := Function.update s.connections cnxPtr (some s.made)
    conns := Function.update s.conns s.made (.ofEngine cnxPtr)
    made := s.made + 1
    calls := s.calls + 1 }

/-- The protocol that `create_protocol` returned, stored. -/
def bind (s : QuicEngine) (cnxPtr i : ℕ) : QuicEngine :=
  { s with
    protocols := Function.update s.protocols cnxPtr (some i)
    protos := Function.update s.protos i {} }

/-- `route_event`. -/
def routeEvent (s : QuicEngine) (d : Drained) : QuicEngine × Option Raised :=
  if d.ev.cnxPtr = 0 then (s, none)
  else
    match s.connections d.ev.cnxPtr with
    | some i => s.dispatch i d
    | none =>
      if d.ev.isClose then (s, none)
      else
        let i := s.made
        let s := s.spawn d.ev.cnxPtr
        if d.raises then (s, some .createProtocol) else (s.bind d.ev.cnxPtr i).dispatch i d

/-- `route_batch`: what one event's handler raises is logged, and the next is routed. -/
def routeBatch (s : QuicEngine) (batch : List Drained) : QuicEngine :=
  batch.foldl (fun s d => (s.routeEvent d).1) s

@[simp] theorem routeBatch_nil (s : QuicEngine) : s.routeBatch [] = s := rfl

@[simp] theorem routeBatch_concat (s : QuicEngine) (batch : List Drained) (d : Drained) :
    s.routeBatch (batch ++ [d]) = ((s.routeBatch batch).routeEvent d).1 := by
  simp [routeBatch]

/-! ## The tables -/

section Tables

variable {s : QuicEngine} {d : Drained} {i a : ℕ}

@[simp] theorem enqueue_connections : (s.enqueue i d).connections = s.connections := rfl

@[simp] theorem enqueue_protocols : (s.enqueue i d).protocols = s.protocols := rfl

@[simp] theorem enqueue_calls : (s.enqueue i d).calls = s.calls := rfl

/-- Dispatching to a known protocol touches the tables only at a close. -/
theorem dispatch_known {p : ℕ} (hp : s.protocols d.ev.cnxPtr = some p) :
    (s.dispatch i d).1 =
      if d.ev.isClose then ((s.enqueue i d).processEvents p).forget d.ev.cnxPtr
      else (s.enqueue i d).processEvents p := by
  rw [dispatch]
  simp only [enqueue_protocols, hp]
  split <;> rfl

theorem dispatch_connections {p : ℕ} (hp : s.protocols d.ev.cnxPtr = some p) :
    (s.dispatch i d).1.connections =
      if d.ev.isClose then Function.update s.connections d.ev.cnxPtr none else s.connections := by
  rw [dispatch_known hp]
  split <;> rfl

theorem dispatch_protocols {p : ℕ} (hp : s.protocols d.ev.cnxPtr = some p) :
    (s.dispatch i d).1.protocols =
      if d.ev.isClose then Function.update s.protocols d.ev.cnxPtr none else s.protocols := by
  rw [dispatch_known hp]
  split <;> rfl

/-- `create_protocol` is not called for a known address. -/
theorem dispatch_calls : (s.dispatch i d).1.calls = s.calls := by
  rw [dispatch]
  simp only [enqueue_protocols]
  split
  · rfl
  · split <;> rfl

/-! `route_event`, case by case. -/

theorem routeEvent_zero (h0 : d.ev.cnxPtr = 0) : s.routeEvent d = (s, none) := if_pos h0

theorem routeEvent_known (h0 : d.ev.cnxPtr ≠ 0) (hc : s.connections d.ev.cnxPtr = some i) :
    s.routeEvent d = s.dispatch i d := by
  rw [routeEvent, if_neg h0, hc]

theorem routeEvent_close (hc : s.connections d.ev.cnxPtr = none) (hcl : d.ev.isClose = true) :
    s.routeEvent d = (s, none) := by
  rw [routeEvent, hc]
  simp [hcl]

theorem routeEvent_new (h0 : d.ev.cnxPtr ≠ 0) (hc : s.connections d.ev.cnxPtr = none)
    (hcl : d.ev.isClose = false) :
    s.routeEvent d = if d.raises then (s.spawn d.ev.cnxPtr, some .createProtocol)
      else ((s.spawn d.ev.cnxPtr).bind d.ev.cnxPtr s.made).dispatch s.made d := by
  rw [routeEvent, if_neg h0, hc]
  simp [hcl]

/-- `create_protocol` is called once, for an event that is no close at an address not in the
table. -/
theorem routeEvent_calls : (s.routeEvent d).1.calls =
    if d.ev.cnxPtr ≠ 0 ∧ d.ev.isClose = false ∧ s.connections d.ev.cnxPtr = none then s.calls + 1
    else s.calls := by
  by_cases h0 : d.ev.cnxPtr = 0
  · simp [routeEvent_zero h0, h0]
  cases hc : s.connections d.ev.cnxPtr with
  | some i =>
    rw [routeEvent_known h0 hc, dispatch_calls, if_neg (by simp)]
  | none =>
    cases hcl : d.ev.isClose with
    | true => rw [routeEvent_close hc hcl, if_neg (by simp)]
    | false =>
      rw [routeEvent_new h0 hc hcl, if_pos (show d.ev.cnxPtr ≠ 0 ∧ _ from ⟨h0, rfl, rfl⟩)]
      split
      · rfl
      · exact dispatch_calls

/-- The two tables name the same connections. -/
def TablesAgree (s : QuicEngine) : Prop := s.protocols = s.connections

/-- What an event does to tables that agree, unless `create_protocol` raises at it: a close forgets
the address, any other event stores it if it is new. -/
theorem routeEvent_tables (hs : s.TablesAgree) (h0 : d.ev.cnxPtr ≠ 0)
    (hr : d.ev.isClose = false → s.connections d.ev.cnxPtr = none → d.raises = false) :
    (s.routeEvent d).1.TablesAgree ∧ (s.routeEvent d).1.connections =
      if d.ev.isClose then Function.update s.connections d.ev.cnxPtr none
      else if s.connections d.ev.cnxPtr = none then Function.update s.connections d.ev.cnxPtr
      (some s.made)
      else s.connections := by
  have hs' : s.protocols = s.connections := hs
  cases hc : s.connections d.ev.cnxPtr with
  | some i =>
    have hp : s.protocols d.ev.cnxPtr = some i := by rw [hs']; exact hc
    rw [routeEvent_known h0 hc, TablesAgree, dispatch_connections hp, dispatch_protocols hp, hs']
    simp
  | none =>
    cases hcl : d.ev.isClose with
    | true =>
      have hsame : Function.update s.connections d.ev.cnxPtr none = s.connections := by
        rw [← hc]
        exact Function.update_eq_self _ _
      rw [routeEvent_close hc hcl]
      exact ⟨hs, by simp [hsame]⟩
    | false =>
      have hp : ((s.spawn d.ev.cnxPtr).bind d.ev.cnxPtr s.made).protocols d.ev.cnxPtr =
        some s.made :=
        Function.update_self _ _ _
      rw [routeEvent_new h0 hc hcl, hr hcl hc, if_neg Bool.false_ne_true, TablesAgree,
        dispatch_connections hp, dispatch_protocols hp, hcl]
      refine ⟨?_, by simp [spawn, bind]⟩
      show Function.update s.protocols _ _ = Function.update s.connections _ _
      rw [hs']

/-- An exception of `create_protocol` leaves a connection without a protocol. -/
theorem routeEvent_raises (hs : s.TablesAgree) (h0 : d.ev.cnxPtr ≠ 0) (hcl : d.ev.isClose = false)
    (hc : s.connections d.ev.cnxPtr = none) (hr : d.raises = true) :
    (s.routeEvent d).1.connections d.ev.cnxPtr ≠ none ∧ (s.routeEvent d).1.protocols d.ev.cnxPtr =
    none := by
  have hp : s.protocols d.ev.cnxPtr = none := by rw [hs]; exact hc
  rw [routeEvent_new h0 hc hcl, if_pos hr]
  exact ⟨by simp [spawn], hp⟩

end Tables

/-! ## What a batch says about an address -/

/-- The last event at an address. -/
def lastAt (batch : List Drained) (a : ℕ) : Option Drained :=
  (batch.filter (·.ev.cnxPtr = a)).getLast?

/-- An event that is no close, at an address where nothing came before or a close came last. -/
def Opens (batch : List Drained) (d : Drained) : Prop :=
  d.ev.cnxPtr ≠ 0 ∧ d.ev.isClose = false ∧ ∀ e, lastAt batch d.ev.cnxPtr = some e →
    e.ev.isClose = true

/-- The last event at the address is no close. -/
def Known (batch : List Drained) (a : ℕ) : Prop := ∃ e, lastAt batch a = some e ∧
    e.ev.isClose = false

variable {batch : List Drained} {d : Drained} {a : ℕ}

theorem lastAt_concat :
    lastAt (batch ++ [d]) a = if d.ev.cnxPtr = a then some d else lastAt batch a := by
  unfold lastAt
  by_cases h : d.ev.cnxPtr = a <;> simp [List.filter_append, h]

theorem known_concat : Known (batch ++ [d]) a ↔
    if d.ev.cnxPtr = a then d.ev.isClose = false else Known batch a := by
  unfold Known
  rw [lastAt_concat]
  split
  · simp
  · rfl

theorem opens_iff : Opens batch d ↔
    d.ev.cnxPtr ≠ 0 ∧ d.ev.isClose = false ∧ ¬ Known batch d.ev.cnxPtr := by
  unfold Opens Known
  constructor
  · rintro ⟨h0, hcl, hlast⟩
    refine ⟨h0, hcl, ?_⟩
    rintro ⟨e, he, hecl⟩
    exact absurd ((hlast e he).symm.trans hecl) (by simp)
  · rintro ⟨h0, hcl, hknown⟩
    refine ⟨h0, hcl, fun e he => ?_⟩
    cases hecl : e.ev.isClose with
    | true => rfl
    | false => exact absurd ⟨e, he, hecl⟩ hknown

/-- `create_protocol` never raises at an event that opens an address. -/
def NoRaise (batch : List Drained) : Prop := ∀ l d, l ++ [d] <+: batch → Opens l d →
    d.raises = false

theorem NoRaise.init (h : NoRaise (batch ++ [d])) : NoRaise batch :=
  fun l e hl => h l e (hl.trans (List.prefix_append _ _))

/-- The tables hold the addresses whose last event is no close. -/
theorem routeBatch_tables (h : NoRaise batch) :
    (routeBatch {} batch).TablesAgree ∧
      ∀ a, (routeBatch {} batch).connections a ≠ none ↔ a ≠ 0 ∧ Known batch a := by
  induction batch using List.reverseRecOn with
  | nil => exact ⟨rfl, fun a => by simp [Known, lastAt]⟩
  | append_singleton l d ih =>
    obtain ⟨hagree, hknown⟩ := ih h.init
    rw [routeBatch_concat]
    by_cases h0 : d.ev.cnxPtr = 0
    · rw [routeEvent_zero h0]
      refine ⟨hagree, fun a => ?_⟩
      rw [hknown a, known_concat, h0]
      constructor
      · rintro ⟨ha, hk⟩
        exact ⟨ha, by rwa [if_neg (Ne.symm ha)]⟩
      · rintro ⟨ha, hk⟩
        exact ⟨ha, by rwa [if_neg (Ne.symm ha)] at hk⟩
    · have hraise : d.ev.isClose = false → (routeBatch {} l).connections d.ev.cnxPtr = none →
          d.raises = false := by
        intro hcl hc
        refine h l d List.prefix_rfl (opens_iff.2 ⟨h0, hcl, fun hk => ?_⟩)
        exact (hknown d.ev.cnxPtr).2 ⟨h0, hk⟩ hc
      obtain ⟨hagree', hconn⟩ := routeEvent_tables hagree h0 hraise
      refine ⟨hagree', fun a => ?_⟩
      rw [hconn, known_concat]
      by_cases ha : d.ev.cnxPtr = a
      · subst ha
        cases hcl : d.ev.isClose with
        | true => simp
        | false =>
          by_cases hc : (routeBatch {} l).connections d.ev.cnxPtr = none <;> simp [hc, h0]
      · rw [if_neg ha, ← hknown a]
        split
        · rw [Function.update_of_ne (Ne.symm ha)]
        · split
          · rw [Function.update_of_ne (Ne.symm ha)]
          · rfl

/-- `create_protocol` is called at the events that open an address. -/
theorem routeBatch_calls (h : NoRaise batch) (d : Drained) :
    ((routeBatch {} batch).routeEvent d).1.calls ≠ (routeBatch {} batch).calls ↔ Opens batch d := by
  have hknown := (routeBatch_tables h).2 d.ev.cnxPtr
  rw [routeEvent_calls, opens_iff]
  constructor
  · intro hne
    by_contra hno
    refine hne (if_neg ?_)
    rintro ⟨h0, hcl, hc⟩
    exact hno ⟨h0, hcl, fun hk => hknown.2 ⟨h0, hk⟩ hc⟩
  · rintro ⟨h0, hcl, hk⟩
    have hc : (routeBatch {} batch).connections d.ev.cnxPtr = none := by
      by_contra hc
      exact hk (hknown.1 hc).2
    rw [if_pos ⟨h0, hcl, hc⟩]
    omega

/-! ## A failing `create_protocol` -/

/-- After each event of the batch the tables have the same keys, a close leaves its address in
neither, and an event that opens an address gets the protocol made for it. -/
def TablesSurvive (batch : List Drained) : Prop :=
  ∀ l d, l ++ [d] <+: batch →
    (∀ a, ((routeBatch {} (l ++ [d])).connections a).isSome =
      ((routeBatch {} (l ++ [d])).protocols a).isSome) ∧
    (d.ev.isClose = true → (routeBatch {} (l ++ [d])).connections d.ev.cnxPtr = none ∧
      (routeBatch {} (l ++ [d])).protocols d.ev.cnxPtr = none) ∧
    (Opens l d → d.raises = false →
      (routeBatch {} (l ++ [d])).protocols d.ev.cnxPtr = some (routeBatch {} l).made)

theorem TablesSurvive.init (h : TablesSurvive (batch ++ [d])) : TablesSurvive batch :=
  fun l e hl => h l e (hl.trans (List.prefix_append _ _))

theorem tablesSurvive_of_noRaise (h : NoRaise batch) : TablesSurvive batch := by
  intro l d hl
  have hpre : NoRaise (l ++ [d]) := fun l' e hl' => h l' e (hl'.trans hl)
  obtain ⟨hagree, hknown⟩ := routeBatch_tables hpre
  have hagree' : (routeBatch {} (l ++ [d])).protocols = (routeBatch {} (l ++ [d])).connections :=
    hagree
  rw [hagree']
  refine ⟨fun a => rfl, fun hcl => ?_, fun hopens hr => ?_⟩
  · have hnone : (routeBatch {} (l ++ [d])).connections d.ev.cnxPtr = none := by
      by_contra hc
      have hk := ((hknown _).1 hc).2
      rw [known_concat, if_pos rfl, hcl] at hk
      exact absurd hk (by simp)
    exact ⟨hnone, hnone⟩
  · obtain ⟨h0, hcl, hk⟩ := opens_iff.1 hopens
    obtain ⟨hagree₀, hknown₀⟩ := routeBatch_tables hpre.init
    have hc : (routeBatch {} l).connections d.ev.cnxPtr = none := by
      by_contra hc
      exact hk ((hknown₀ _).1 hc).2
    rw [routeBatch_concat, (routeEvent_tables hagree₀ h0 fun _ _ => hr).2, hcl]
    simp [hc]

/-- The tables survive exactly the batches in which `create_protocol` does not raise at an event
that opens an address. -/
theorem engine_tables_survive_iff (batch : List Drained) : TablesSurvive batch ↔ NoRaise batch := by
  refine ⟨fun h => ?_, tablesSurvive_of_noRaise⟩
  induction batch using List.reverseRecOn with
  | nil =>
    intro l d hl
    exact absurd (List.prefix_nil.1 hl) (by simp)
  | append_singleton b e ih =>
    have hb := ih h.init
    intro l d hl hopens
    rcases List.prefix_concat_iff.1 hl with heq | hl
    · obtain ⟨rfl, rfl⟩ : l = b ∧ d = e := by simpa using heq
      obtain ⟨h0, hcl, hk⟩ := opens_iff.1 hopens
      obtain ⟨hagree, hknown⟩ := routeBatch_tables hb
      have hc : (routeBatch {} l).connections d.ev.cnxPtr = none := by
        by_contra hc
        exact hk ((hknown _).1 hc).2
      by_contra hr
      obtain ⟨hsome, hnone⟩ := routeEvent_raises hagree h0 hcl hc (by simpa using hr)
      have hkeys := (h l d List.prefix_rfl).1 d.ev.cnxPtr
      rw [routeBatch_concat, hnone] at hkeys
      exact hsome (by simpa using hkeys)
    · exact hb l d hl hopens

/-- `create_protocol` raises at the first event of a connection, and then the connection closes. -/
def refusedBatch : List Drained :=
  [{ ev := { evtType := .ready, cnxPtr := 1 }, raises := true },
    { ev := { evtType := .close, cnxPtr := 1 } }]

theorem engine_tables_survive_refusedBatch :
    ¬ TablesSurvive refusedBatch ∧ (routeBatch {} refusedBatch).connections 1 = some 0 ∧
      (routeBatch {} refusedBatch).protocols 1 = none := by
  refine ⟨fun h => ?_, by decide, by decide⟩
  have hkeys := (h [_] _ List.prefix_rfl).1 1
  exact absurd hkeys (by decide)

/-! ## One protocol for each connection -/

/-- A queued event with the connection instance it is of. -/
structure Tagged where
  inst : ℕ
  ev : RawEvent
  answers : Answers := {}

/-- The event for the engine; `create_protocol` returns. -/
def Tagged.drained (e : Tagged) : Drained := { ev := e.ev, answers := e.answers }

/-- The events of per-connection instances in an order the worker can queue them: an instance keeps
its address, and picoquic gives the address to another instance only when it is done with the
first. -/
structure WorkerOrder (events : List Tagged) : Prop where
  cnx : ∀ e ∈ events, e.ev.cnxPtr ≠ 0
  addr : ∀ e ∈ events, ∀ f ∈ events, e.inst = f.inst → e.ev.cnxPtr = f.ev.cnxPtr
  block : ∀ (i j k : ℕ) (e f g : Tagged), i < j → j < k → events[i]? = some e →
    events[j]? = some f →
    events[k]? = some g → g.inst = e.inst → f.ev.cnxPtr = e.ev.cnxPtr → f.inst = e.inst

/-- The engine after the first `k` events. -/
def after (events : List Tagged) (k : ℕ) : QuicEngine := routeBatch {}
    ((events.take k).map (·.drained))

/-- `create_protocol` is called at event number `k`. -/
def CalledAt (events : List Tagged) (k : ℕ) : Prop := (after events (k + 1)).calls ≠
    (after events k).calls

/-- Each instance with an event gets one call of `create_protocol`, and none after its first
close. -/
def OneProtocol (events : List Tagged) : Prop :=
  ∀ k e, events[k]? = some e →
    (∃! j, (∃ f, events[j]? = some f ∧ f.inst = e.inst) ∧ CalledAt events j) ∧
    (CalledAt events k → ∀ j f, j < k → events[j]? = some f → f.inst = e.inst →
      f.ev.isClose = false)

/-- The last event before number `k` at the address `a`. -/
def lastBefore (events : List Tagged) (k a : ℕ) : Option Drained :=
  lastAt ((events.take k).map (·.drained)) a

/-- An instance begins with an event that is no close, at an address where nothing came before or a
close came last; and right after a close an instance has only closes. -/
structure Orderly (events : List Tagged) : Prop where
  first : ∀ k e, events[k]? = some e → (∀ j f, j < k → events[j]? = some f → f.inst ≠ e.inst) →
    e.ev.isClose = false ∧ ∀ p, lastBefore events k e.ev.cnxPtr = some p → p.ev.isClose = true
  later : ∀ k e j f, events[k]? = some e → j < k → events[j]? = some f → f.inst = e.inst →
    ∀ p, lastBefore events k e.ev.cnxPtr = some p → p.ev.isClose = true → e.ev.isClose = true

variable {events : List Tagged} {k : ℕ} {e : Tagged}

theorem take_succ_map (h : events[k]? = some e) :
    (events.take (k + 1)).map (·.drained) = (events.take k).map (·.drained) ++ [e.drained] := by
  rw [List.take_add_one, h]
  simp

/-- The engine calls `create_protocol` at the events that open an address. -/
theorem calledAt_iff (h : events[k]? = some e) :
    CalledAt events k ↔ Opens ((events.take k).map (·.drained)) e.drained := by
  have hno : NoRaise ((events.take k).map (·.drained)) := by
    intro l d hl _
    have hmem : d ∈ (events.take k).map (·.drained) := hl.subset (by simp)
    obtain ⟨f, -, rfl⟩ := List.mem_map.1 hmem
    rfl
  rw [CalledAt, after, after, take_succ_map h, routeBatch_concat]
  exact routeBatch_calls hno _

/-- Where the last event at an address is. -/
theorem lastBefore_spec (events : List Tagged) (k a : ℕ) :
    match lastBefore events k a with
    | some p => ∃ m g, m < k ∧ events[m]? = some g ∧ g.drained = p ∧ g.ev.cnxPtr = a ∧
        ∀ n f, m < n → n < k → events[n]? = some f → f.ev.cnxPtr ≠ a
    | none => ∀ n f, n < k → events[n]? = some f → f.ev.cnxPtr ≠ a := by
  unfold lastBefore
  induction k with
  | zero => simp [lastAt]
  | succ k ih =>
    cases hk : events[k]? with
    | none =>
      rw [List.take_add_one, hk]
      simp only [Option.toList_none, List.append_nil]
      -- past the end nothing changes
      have hlen := List.getElem?_eq_none_iff.1 hk
      cases hl : lastAt ((events.take k).map (·.drained)) a with
      | none =>
        rw [hl] at ih
        intro n f hn hf
        exact ih n f ((List.getElem?_eq_some_iff.1 hf).1.trans_le hlen) hf
      | some p =>
        rw [hl] at ih
        obtain ⟨m, g, hm, hg, hgp, hga, hlast⟩ := ih
        refine ⟨m, g, by omega, hg, hgp, hga, fun n f hmn _ hf => ?_⟩
        exact hlast n f hmn ((List.getElem?_eq_some_iff.1 hf).1.trans_le hlen) hf
    | some e =>
      rw [take_succ_map hk, lastAt_concat]
      by_cases ha : e.drained.ev.cnxPtr = a
      · rw [if_pos ha]
        exact ⟨k, e, by omega, hk, rfl, ha, fun n f hmn hn => by omega⟩
      · rw [if_neg ha]
        have hlt : ∀ n f, n < k + 1 → events[n]? = some f → f.ev.cnxPtr = a → n < k := by
          intro n f hn hf hfa
          rcases Nat.lt_succ_iff_lt_or_eq.1 hn with h | rfl
          · exact h
          · rw [hk] at hf
            exact absurd (Option.some.inj hf ▸ hfa) ha
        cases hl : lastAt ((events.take k).map (·.drained)) a with
        | none =>
          rw [hl] at ih
          exact fun n f hn hf hfa => ih n f (hlt n f hn hf hfa) hf hfa
        | some p =>
          rw [hl] at ih
          obtain ⟨m, g, hm, hg, hgp, hga, hlast⟩ := ih
          exact ⟨m, g, by omega, hg, hgp, hga,
            fun n f hmn hn hf hfa => hlast n f hmn (hlt n f hn hf hfa) hf hfa⟩

/-- The last event at the address of an instance that has an earlier event is of the same
instance. -/
theorem lastBefore_same (hw : WorkerOrder events) {j : ℕ} {f : Tagged} (hk : events[k]? = some e)
    (hj : j < k) (hf : events[j]? = some f) (hinst : f.inst = e.inst) :
    ∃ m g, m < k ∧ events[m]? = some g ∧ lastBefore events k e.ev.cnxPtr = some g.drained ∧
      g.inst = e.inst := by
  have hmem : ∀ {n h}, events[n]? = some h → h ∈ events := fun h => List.mem_of_getElem? h
  have haddr : f.ev.cnxPtr = e.ev.cnxPtr := hw.addr f (hmem hf) e (hmem hk) hinst
  have hspec := lastBefore_spec events k e.ev.cnxPtr
  cases hl : lastBefore events k e.ev.cnxPtr with
  | none =>
    rw [hl] at hspec
    exact absurd haddr (hspec j f hj hf)
  | some p =>
    rw [hl] at hspec
    obtain ⟨m, g, hm, hg, rfl, hga, hlast⟩ := hspec
    refine ⟨m, g, hm, hg, rfl, ?_⟩
    rcases lt_trichotomy m j with hlt | rfl | hgt
    · exact absurd haddr (hlast j f hlt hj hf)
    · rw [hf] at hg
      exact Option.some.inj hg ▸ hinst
    · exact (hw.block j m k f g e hgt hm hf hg hk hinst.symm (hga.trans haddr.symm)).trans hinst

/-- One protocol for each connection, exactly when every instance keeps to the order `Orderly`. -/
theorem one_protocol_iff (events : List Tagged) (hw : WorkerOrder events) :
    OneProtocol events ↔ Orderly events := by
  have hmem : ∀ {n h}, events[n]? = some h → h ∈ events := fun h => List.mem_of_getElem? h
  constructor
  · intro hp
    -- right after a close of its own instance there is no call
    have hafter : ∀ k e j f, events[k]? = some e → j < k → events[j]? = some f → f.inst = e.inst →
        ∀ p, lastBefore events k e.ev.cnxPtr = some p → p.ev.isClose = true →
          ¬ CalledAt events k := by
      intro k e j f hk hj hf hinst p hlast hcl hcall
      obtain ⟨m, g, hm, hg, hl, hgi⟩ := lastBefore_same hw hk hj hf hinst
      rw [hl] at hlast
      obtain rfl := Option.some.inj hlast
      have hno := (hp k e hk).2 hcall m g hm hg hgi
      exact absurd (hcl.symm.trans hno) (by simp)
    refine ⟨fun k e hk hfirst => ?_, fun k e j f hk hj hf hinst p hlast hcl => ?_⟩
    · obtain ⟨j, ⟨⟨f, hf, hinst⟩, hcall⟩, -⟩ := (hp k e hk).1
      have hopens := (calledAt_iff hf).1 hcall
      rcases lt_trichotomy j k with hlt | rfl | hgt
      · exact absurd hinst (hfirst j f hlt hf)
      · rw [hk] at hf
        obtain rfl := Option.some.inj hf
        exact ⟨hopens.2.1, hopens.2.2⟩
      · obtain ⟨m, g, hm, hg, hl, hgi⟩ := lastBefore_same hw hf hgt hk hinst.symm
        exact absurd hcall (hafter j f k e hf hgt hk hinst.symm _ hl (hopens.2.2 _ hl))
    · by_contra hno
      have hno : e.ev.isClose = false := by simpa using hno
      refine hafter k e j f hk hj hf hinst p hlast hcl ((calledAt_iff hk).2 ?_)
      refine ⟨hw.cnx e (hmem hk), hno, fun q hq => ?_⟩
      obtain rfl : p = q := Option.some.inj (hlast.symm.trans hq)
      exact hcl
  · intro ho
    -- a call is at the first event of an instance
    have hcalled : ∀ k e, events[k]? = some e →
        (CalledAt events k ↔ ∀ j f, j < k → events[j]? = some f → f.inst ≠ e.inst) := by
      intro k e hk
      rw [calledAt_iff hk]
      constructor
      · rintro ⟨-, hcl, hlast⟩ j f hj hf hinst
        obtain ⟨m, g, hm, hg, hl, -⟩ := lastBefore_same hw hk hj hf hinst
        have hcl' := ho.later k e j f hk hj hf hinst _ hl (hlast _ hl)
        exact absurd (hcl'.symm.trans hcl) (by simp)
      · intro hfirst
        obtain ⟨hcl, hlast⟩ := ho.first k e hk hfirst
        exact ⟨hw.cnx e (hmem hk), hcl, hlast⟩
    intro k e hk
    refine ⟨?_, fun hcall j f hj hf hinst => absurd hinst ((hcalled k e hk).1 hcall j f hj hf)⟩
    classical
    have hex : ∃ j : ℕ, ∃ f : Tagged, events[j]? = some f ∧ f.inst = e.inst := ⟨k, e, hk, rfl⟩
    obtain ⟨f, hf, hinst⟩ := Nat.find_spec hex
    have hmin : ∀ j g, j < Nat.find hex → events[j]? = some g → g.inst ≠ f.inst := by
      intro j g hj hg hgi
      exact Nat.find_min hex hj ⟨g, hg, hgi.trans hinst⟩
    refine ⟨Nat.find hex, ⟨⟨f, hf, hinst⟩, (hcalled _ f hf).2 hmin⟩, ?_⟩
    rintro j ⟨⟨g, hg, hgi⟩, hcall⟩
    rcases lt_trichotomy j (Nat.find hex) with hlt | heq | hgt
    · exact absurd (hgi.trans hinst.symm) (hmin j g hlt hg)
    · exact heq
    · exact absurd (hinst.trans hgi.symm) ((hcalled j g hg).1 hcall _ f hgt hf)

/-- The events of one connection. -/
theorem WorkerOrder.single {i a : ℕ} (ha : a ≠ 0) (h : ∀ e ∈ events, e.inst = i ∧ e.ev.cnxPtr = a) :
    WorkerOrder events := by
  refine ⟨fun e he => ?_, fun e he f hf _ => ?_, fun i' j k e f g _ _ he hf _ _ _ => ?_⟩
  · rw [(h e he).2]
    exact ha
  · rw [(h e he).2, (h f hf).2]
  · rw [(h e (List.mem_of_getElem? he)).1, (h f (List.mem_of_getElem? hf)).1]

/-- A connection becomes ready and its peer closes it; the acknowledgement of a datagram is queued
between the two close events. -/
def lateAckEvents : List Tagged :=
  [⟨0, { evtType := .ready, cnxPtr := 1 }, {}⟩, ⟨0, { evtType := .appClose, cnxPtr := 1 }, {}⟩,
    ⟨0, { evtType := .datagramAcked, cnxPtr := 1 }, {}⟩,
      ⟨0, { evtType := .close, cnxPtr := 1 }, {}⟩]

theorem lateAckEvents_order : WorkerOrder lateAckEvents :=
  .single (i := 0) (a := 1) (by decide) (by simp [lateAckEvents])

theorem one_protocol_iff_lateAckEvents :
    WorkerOrder lateAckEvents ∧ (OneProtocol lateAckEvents ↔ Orderly lateAckEvents) :=
  ⟨lateAckEvents_order, one_protocol_iff lateAckEvents lateAckEvents_order⟩

/-- The acknowledgement makes the engine call `create_protocol` a second time, after the close. -/
theorem second_protocol_lateAckEvents :
    WorkerOrder lateAckEvents ∧ CalledAt lateAckEvents 0 ∧ CalledAt lateAckEvents 2 ∧
      ¬ OneProtocol lateAckEvents := by
  have h₂ : CalledAt lateAckEvents 2 := by
    unfold CalledAt
    decide
  refine ⟨lateAckEvents_order, by unfold CalledAt; decide, h₂, fun h => ?_⟩
  have hclose := (h 2 _ rfl).2 h₂ 1 _ (by decide) rfl rfl
  exact absurd hclose (by decide)

end QuicEngine

end Aiopquic
