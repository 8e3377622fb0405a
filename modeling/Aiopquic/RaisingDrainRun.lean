import Aiopquic.RaisingDrainQueue

/-!
# Drains whose handlers raise, over whole runs

The worker makes stream contexts and links, queues events that own or borrow them, and takes
commands off the TX event ring. Asyncio drains the queue with handlers that may raise in any call,
and keeps some of the views it is given. What the worker does with a command is left out, but that
it gives up the command's reference. Nothing else runs during a drain.
-/

namespace Aiopquic

open Steps (run run_cons_eq_some run_append)

/-- The history of a ring follows what a drain has left in the head slot. -/
def SpscRing.settle (r : SpscRing) : SpscRing :=
  { r with log := r.log.set r.head (r.entries (r.head &&& r.geo.mask)), claimed := false }

/-- The same for the RX queue of a drain. -/
def DrainCtx.settle (s : DrainCtx) : DrainCtx :=
  { s with rx := { s.rx with q := { s.rx.q with ring := s.rx.q.ring.settle } } }

/-- The transport, and who holds the stream contexts. -/
structure RaisingRun where
  ctx : DrainCtx
  table : RefTable
  /-- The references of the worker and of asyncio outside the queue, one item for each. -/
  holders : List ℕ := []
  /-- The links that the worker has not released. -/
  own : List ℕ := []
  /-- The contexts of the views that asyncio keeps. -/
  kept : List ℕ := []
  /-- History: the references lost to notes, the events queued, and the calls of the handlers. -/
  lost : List ℕ := []
  pushed : List Entry := []
  calls : List Entry.Call := []

/-- What the worker and asyncio do. -/
inductive RaisingAct
  | create (sc : ℕ)
  | ref (sc : ℕ)
  | drop (sc : ℕ)
  | link (link sc : ℕ)
  | push (e : Entry) (data : List UInt8)
  | pushWt (link : ℕ) (e : Entry)
  | release (link : ℕ)
  | receive (scs : ℕ → StreamCtx) (mallocs : ℕ → Bool)
  | takeCommand
  | letGo (sc : ℕ)
  | drain (keeps raises : List DrainedEvent → Bool) (maxEvents : ℤ)

namespace RaisingRun

open DrainCtx (HandlerRaised CallbackLoop drainRaising viewsKept Books Ready)

/-- The queued events, with what the drains have left of the first. -/
def queued (s : RaisingRun) : List Entry := s.ctx.rx.q.queued

/-- `spsc_ring_push_or_overflow`. -/
def enqueue (s : RaisingRun) (e : Entry) (data : List UInt8) : RaisingRun :=
  { s with
    ctx := { s.ctx with rx := { s.ctx.rx with
      q := ((RxQueue.pushOrOverflow e data).exec s.ctx.rx.q).2 } }
    pushed := s.pushed ++ [RxQueue.slot e data] }

/-- A new context with one reference. -/
def newContext (r : RefTable) (sc : ℕ) : RefTable :=
  { r with refs := Function.update r.refs sc 1 }

/-- `aiopquic_rx_push` and `aiopquic_rx_push_sc`: an event with its own payload or none. One that
owns its context takes a reference; the end of a raw stream is given the worker's. -/
def push (s : RaisingRun) (e : Entry) (data : List UInt8) : Option RaisingRun :=
  if e.dataBuf = .null ∧ e.dataLength = 0 ∧ (data ≠ [] → e.eventType ≠ .wtStreamLinkRelease) then
    match e.owner with
    | none => some (s.enqueue e data)
    | some sc =>
      if sc ∈ s.holders then
        if e.eventType = .streamDestroy then
          some ({ s with holders := s.holders.erase sc }.enqueue e data)
        else (s.table.act (.ref sc)).map fun table => { s with table := table }.enqueue e data
      else none
  else none

/-- `aiopquic_wt_push_event_with_sc`: an event that borrows the context of a link. -/
def pushWt (s : RaisingRun) (link : ℕ) (e : Entry) : Option RaisingRun :=
  if link ∈ s.own ∧ e.dataLength = 0 ∧ e.owner = none ∧ e.eventType ≠ .wtStreamLinkRelease then
    (s.table.links link).map fun sc => s.enqueue { e with dataBuf := .borrowed sc } []
  else none

/-- `aiopquic_wt_push_link_release`. -/
def release (s : RaisingRun) (link : ℕ) : Option RaisingRun :=
  if link ∈ s.own then
    some ({ s with own := s.own.erase link }.enqueue
      { eventType := .wtStreamLinkRelease, dataBuf := .borrowed link } [])
  else none

/-- The worker takes a command off the TX event ring, and gives up its reference in the end. -/
def takeCommand (s : RaisingRun) : Option RaisingRun :=
  (SpscRing.peek.exec s.ctx.tx).1.bind fun e =>
    let s := { s with ctx := { s.ctx with tx := (SpscRing.pop.exec s.ctx.tx).2 } }
    match e.ref with
    | none => some s
    | some sc => (s.table.act (.destroy sc)).map fun table => { s with table := table }

/-- The calls of a drain. -/
def callsOf : Except HandlerRaised CallbackLoop → List Entry.Call
  | .ok v => v.calls.map (·, false)
  | .error x => x.loop.calls.dropLast.map (·, false) ++ [(x.event, true)]

/-- The local variables with which a drain ends. -/
def loopOf : Except HandlerRaised CallbackLoop → CallbackLoop
  | .ok v => v
  | .error x => x.loop

/-- The references that a drain has lost. -/
def lostBy : Except HandlerRaised CallbackLoop → List ℕ
  | .ok _ => []
  | .error x => x.lost

/-- `drain_rx_callback`, where it touches nothing that is freed. -/
def drain (s : RaisingRun) (keeps raises : List DrainedEvent → Bool) (maxEvents : ℤ) :
    Option RaisingRun :=
  let out := drainRaising keeps raises maxEvents s.ctx
  (run RefTable.act s.table out.2.2).map fun table =>
    { s with
      ctx := out.2.1.settle
      table := table
      kept := s.kept ++ viewsKept keeps [] (loopOf out.1).calls
      lost := s.lost ++ lostBy out.1
      calls := s.calls ++ callsOf out.1 }

def step (s : RaisingRun) : RaisingAct → Option RaisingRun
  | .create sc =>
    if sc ≠ 0 ∧ s.table.refs sc = 0 then
      some { s with table := newContext s.table sc, holders := sc :: s.holders }
    else none
  | .ref sc =>
    if sc ∈ s.holders then
      (s.table.act (.ref sc)).map fun table => { s with table := table, holders := sc :: s.holders }
    else none
  | .drop sc =>
    if sc ∈ s.holders then
      (s.table.act (.destroy sc)).map fun table =>
        { s with table := table, holders := s.holders.erase sc }
    else none
  | .link link sc =>
    if sc ≠ 0 ∧ s.table.refs sc = 0 ∧ s.table.links link = none then
      some { s with
        table := { newContext s.table sc with
          links := Function.update s.table.links link (some sc) }
        own := link :: s.own }
    else none
  | .push e data => s.push e data
  | .pushWt link e => s.pushWt link e
  | .release link => s.release link
  | .receive scs mallocs => some { s with ctx := { s.ctx with scs := scs, mallocs := mallocs } }
  | .takeCommand => s.takeCommand
  | .letGo sc =>
    if sc ∈ s.kept then
      (s.table.act (.destroy sc)).map fun table =>
        { s with table := table, kept := s.kept.erase sc }
    else none
  | .drain keeps raises maxEvents => s.drain keeps raises maxEvents

/-- A transport that starts on two empty rings. The rest of it is as in `ctx`. -/
def init (rx tx : Circular.Geometry) (ctx : DrainCtx) : RaisingRun where
  ctx := { ctx with rx := .create rx, tx := .create tx }
  table := { refs := fun _ => 0, links := fun _ => none }

/-! ## What the handlers are told -/

/-- The calls so far for the events still there, given as they were queued and as they are now. -/
inductive Behind : List Entry.Call → List Entry → List Entry → Prop
  | none : Behind [] [] []
  | head {calls : List Entry.Call} {e e' : Entry} {l : List Entry} :
    e.Trying e' calls → Behind calls (e :: l) (e' :: l)

/-- The calls of all drains: each event in order, presented again and again while its handler
raises, and once more to the end; then those for the event at the head. -/
def Presented (pushed queued : List Entry) (calls : List Entry.Call) : Prop :=
  ∃ done rest groups pending, pushed = done ++ rest ∧ List.Forall₂ Entry.Told done groups ∧
    calls = groups.flatten ++ pending ∧ Behind pending rest queued

variable {s t : RaisingRun} {l pushed done rest : List Entry} {calls pending : List Entry.Call}
  {group : List DrainedEvent} {groups : List (List DrainedEvent)} {e : Entry} {ev : DrainedEvent}

theorem Behind.same : ∀ l, Behind [] l l
  | [] => .none
  | _ :: _ => .head rfl

theorem Presented.push (h : Presented pushed l calls) (e : Entry) :
    Presented (pushed ++ [e]) (l ++ [e]) calls := by
  obtain ⟨done, rest, groups, pending, rfl, hdone, hcalls, hbehind⟩ := h
  refine ⟨done, rest ++ [e], groups, pending, List.append_assoc .., hdone, hcalls, ?_⟩
  cases hbehind with
  | none => exact .same [e]
  | head htry => exact .head htry

/-- The event at the head is popped after its last call. -/
theorem Presented.pop (h : Presented pushed (e :: l) calls) (hgroup : e.Handled group) :
    Presented pushed l (calls ++ group.map (·, false)) := by
  obtain ⟨done, rest, groups, pending, rfl, hdone, rfl, hbehind⟩ := h
  have htold : e.Told (group.map (·, false)) := by
    rcases hgroup with ⟨rfl, hquiet⟩ | ⟨ev, rfl, hev⟩
    · exact hquiet
    · exact ⟨hev, rfl⟩
  cases hbehind with
  | head htry =>
    rename_i e₀
    refine ⟨done ++ [e₀], l, groups ++ [pending ++ group.map (·, false)], [], ?_, ?_, ?_, .same l⟩
    · simp
    · exact List.rel_append hdone (.cons (htry.told htold) .nil)
    · simp

/-- A drain pops the events it has handled. -/
theorem Presented.pops (hdone : List.Forall₂ Entry.Handled done groups)
    (h : Presented pushed (done ++ l) calls) :
    Presented pushed l (calls ++ groups.flatten.map (·, false)) := by
  induction hdone generalizing calls with
  | nil => simpa using h
  | cons hgroup _ ih =>
    have := ih (h.pop hgroup)
    rwa [List.append_assoc, ← List.map_append] at this

/-- The handler raises: the event stays. -/
theorem Presented.raises (h : Presented pushed (e :: l) calls) (hev : e.Presents ev) :
    Presented pushed (e.left :: l) (calls ++ [(ev, true)]) := by
  obtain ⟨done, rest, groups, pending, rfl, hdone, rfl, hbehind⟩ := h
  cases hbehind with
  | head htry =>
    exact ⟨done, _, groups, pending ++ [(ev, true)], rfl, hdone, List.append_assoc ..,
      .head (htry.again hev)⟩

/-! ## The head slot after a drain -/

theorem settle_eq {r : SpscRing} (hr : r.Wf) (hc : r.claimed = false) : r.settle = r := by
  have hlog : r.log.set r.head (r.entries (r.head &&& r.geo.mask)) = r.log := by
    by_cases hlt : r.head < r.tail
    · have hslot := hr.slot_head hc hlt
      rw [r.geo.and_mask]
      refine List.ext_getElem? fun i => ?_
      rw [List.getElem?_set]
      split
      · subst i
        rw [if_pos (by rw [hr.length]; exact hlt)]
        exact hslot.symm
      · rfl
    · exact List.set_eq_of_length_le (by rw [hr.length]; omega)
  rw [SpscRing.settle, hlog, ← hc]

/-- Nothing has to be settled between two entries. -/
theorem settle_of_ready {ctx : DrainCtx} (h : Ready l ctx) : ctx.settle = ctx := by
  rw [DrainCtx.settle, settle_eq h.holding.inv.ring h.claimed]

/-- After a handler has raised the queue begins with what the call has left of the entry. -/
theorem ready_settle {ctx : DrainCtx} {shown : Entry} (h : ctx.AtSlot shown e l) :
    Ready (shown :: l) ctx.settle := by
  obtain ⟨⟨⟨hinv, hsettled, hqueued⟩, hlt⟩, hslot⟩ := h
  have hlength := hinv.ring.length
  have hset : ctx.rx.q.ring.log.set ctx.rx.q.ring.head (ctx.headSlot) =
      ctx.rx.q.ring.log.take ctx.rx.q.ring.head ++
        ctx.headSlot :: ctx.rx.q.ring.log.drop (ctx.rx.q.ring.head + 1) :=
    List.set_eq_take_append_cons_drop.trans (if_pos (by omega))
  have hwf : ctx.rx.q.ring.settle.Wf := by
    refine ⟨⟨hlt.le, hinv.ring.tail_le, ?_, fun i hi hi' => ?_⟩, ?_, hinv.ring.tail_le,
      hinv.ring.room⟩
    · show ctx.rx.q.ring.tail ≤ (ctx.rx.q.ring.log.set _ _).length
      rw [List.length_set, hlength]
    · show (ctx.rx.q.ring.log.set _ _)[i]? = some (ctx.rx.q.ring.entries (i % _))
      have hi : ctx.rx.q.ring.head ≤ i := hi
      have hi' : i < ctx.rx.q.ring.tail := hi'
      rw [List.getElem?_set]
      split
      · subst i
        rw [if_pos (by omega), ctx.rx.q.ring.geo.and_mask]
        rfl
      · refine hinv.ring.window.slot i ?_ hi'
        have := Bool.toNat_le ctx.rx.q.ring.claimed
        omega
    · show (ctx.rx.q.ring.log.set _ _).length = ctx.rx.q.ring.tail
      rw [List.length_set, hlength]
  refine ⟨⟨⟨hwf, hinv.depth, hinv.writing, hinv.transit, hinv.owed, hinv.refilling, hinv.fault⟩,
    ⟨hsettled.transit, hsettled.refilling, hsettled.refillOwed⟩, ?_⟩, rfl⟩
  -- the rest of the queue is as it was
  have htail : (ctx.rx.q.accepted).drop (ctx.rx.q.ring.head + 1) = l := by
    rw [← List.drop_drop, show ctx.rx.q.accepted.drop ctx.rx.q.ring.head = e :: l from hqueued]
    rfl
  have hshown : ctx.headSlot = shown := hslot
  show ((ctx.rx.q.ring.log.set _ ctx.headSlot ++ ctx.rx.q.transit.toList) ++
    ctx.rx.q.ovf.list).drop ctx.rx.q.ring.head = shown :: l
  have htake : (ctx.rx.q.ring.log.take ctx.rx.q.ring.head).length = ctx.rx.q.ring.head := by
    rw [List.length_take]
    omega
  rw [hset, ← htail, RxQueue.accepted, hshown, List.append_assoc, List.append_assoc,
    List.drop_left' htake, List.append_assoc, List.drop_append_of_le_length (by omega)]
  rfl

/-! ## The invariant -/

/-- The references are those of the holders, of the queue's events and of the links, and beside them
those of the views that are kept, of the commands and of the notes that were lost. -/
def Held (s : RaisingRun) (r : RefTable) : Prop :=
  Books (s.kept ++ s.lost) s.ctx r s.table ∧ Counts s.own s.queued r s.holders ∧
    Backed s.own r.links s.queued

/-- The notes of a cycle are lost where a handler has raised in a call that nothing guards. -/
def LostBare (s : RaisingRun) : Prop :=
  s.lost ≠ [] → ∃ ev, (ev, true) ∈ s.calls ∧
    (ev.eventType = .wtStreamDestroy ∨ ev.eventType = .streamDestroy)

structure Inv (s : RaisingRun) : Prop where
  ready : Ready s.queued s.ctx
  idle : s.ctx.pushing = (false, false)
  nodup : s.own.Nodup
  linked : ∀ k ∈ s.own, s.table.links k ≠ none
  held : ∃ r, s.Held r
  presented : Presented s.pushed s.queued s.calls
  lost : s.LostBare

variable {r : RefTable} {k sc : ℕ} {data : List UInt8}

theorem Held.links (h : s.Held r) : s.table.links = r.links := h.1.surplus.links

theorem Held.null (h : s.Held r) : r.refs 0 = 0 := by
  have hnull := h.1.surplus.null
  have := h.1.surplus.refs 0
  omega

/-- A context that a holder has a reference to is there. -/
theorem Held.pos (h : s.Held r) (hsc : sc ∈ s.holders) : 0 < r.refs sc := by
  have hcount := h.2.1 sc
  have := List.count_pos_iff.2 hsc
  omega

/-! ### The queue -/

/-- `spsc_ring_push_or_overflow` puts the event behind those that are queued. -/
theorem enqueue_spec (data : List UInt8) (hready : Ready s.queued s.ctx)
    (hidle : s.ctx.pushing = (false, false)) (hlen : e.dataLength = 0) :
    (s.enqueue e data).queued = s.queued ++ [RxQueue.slot e data] ∧
      Ready (s.enqueue e data).queued (s.enqueue e data).ctx ∧
      (s.enqueue e data).ctx.pushing = (false, false) := by
  have hnode : RxQueue.node e data = RxQueue.slot e data := by
    unfold RxQueue.node RxQueue.slot
    by_cases hdata : data = []
    · rw [if_pos hdata, if_neg (not_not.2 hdata), ← hlen]
    · rw [if_neg hdata, if_pos hdata, Entry.withData, if_neg hdata]
  have hinv := hready.holding.inv
  have hspec := RxQueue.pushOrOverflow_routes (q := s.ctx.rx.q) (· = RxQueue.slot e data) e data rfl
    hnode (congrArg Prod.fst hidle) (congrArg Prod.snd hidle)
  obtain ⟨hQ, hinv'⟩ := Interleave.wp_exec hspec hinv fun _ => trivial
  have hmoves := Interleave.wp_exec_rel (G := RxQueue.ProducerMoves) hspec hinv (fun _ => trivial)
    .refl .trans fun hstep => hstep.moves
  have hpushed : RxQueue.Pushed s.ctx.rx.q (· = RxQueue.slot e data)
      ((RxQueue.pushOrOverflow e data).exec s.ctx.rx.q).2 := by
    rcases hQ with ⟨-, h⟩ | ⟨-, h⟩
    · exact h
    · rw [hnode] at h
      exact h
  obtain ⟨_, rfl, hacc⟩ := hpushed.accepted
  have hhead : s.ctx.rx.q.ring.head ≤ s.ctx.rx.q.accepted.length := by
    have := hinv.ring.head_le
    rw [RxQueue.accepted, List.append_assoc, List.length_append, hinv.ring.length]
    omega
  refine ⟨?_, ⟨⟨hinv', hready.holding.settled.stable hmoves, rfl⟩,
    hmoves.claimed.trans hready.claimed⟩, Prod.ext hpushed.insertOwed hpushed.writing⟩
  show (((RxQueue.pushOrOverflow e data).exec s.ctx.rx.q).2.accepted).drop
    ((RxQueue.pushOrOverflow e data).exec s.ctx.rx.q).2.ring.head = _
  rw [hacc, hmoves.head, List.drop_append_of_le_length hhead]
  rfl

/-- An event is queued, by a worker that has given it what it holds. -/
theorem enqueue_inv (hready : Ready s.queued s.ctx) (hidle : s.ctx.pushing = (false, false))
    (hnodup : s.own.Nodup) (hlinked : ∀ k ∈ s.own, s.table.links k ≠ none)
    (hpresented : Presented s.pushed s.queued s.calls) (hlost : s.LostBare)
    (hlen : e.dataLength = 0)
    (hbooks : Books (s.kept ++ s.lost) s.ctx r s.table)
    (hcounts : Counts s.own (s.queued ++ [RxQueue.slot e data]) r s.holders)
    (hbacked : Backed s.own r.links (s.queued ++ [RxQueue.slot e data])) :
    (s.enqueue e data).Inv := by
  obtain ⟨hqueued, hready', hidle'⟩ := enqueue_spec data hready hidle hlen
  refine ⟨hready', hidle', hnodup, hlinked, ⟨r, hbooks.of_tx rfl, ?_, ?_⟩, ?_, hlost⟩
  · rw [hqueued]
    exact hcounts
  · rw [hqueued]
    exact hbacked
  · rw [hqueued]
    exact hpresented.push _

/-- What an event with its own payload, or with none, is in the queue. -/
theorem slot_plain (data : List UInt8) (hbuf : e.dataBuf = .null)
    (hdata : data ≠ [] → e.eventType ≠ .wtStreamLinkRelease) :
    (RxQueue.slot e data).Shaped ∧ (RxQueue.slot e data).borrows = none ∧
      (RxQueue.slot e data).releases = none ∧ (RxQueue.slot e data).owner = e.owner := by
  unfold RxQueue.slot
  by_cases hnil : data = []
  · rw [if_neg (not_not.2 hnil)]
    refine ⟨?_, Entry.borrows_of_not_borrowed (by simp [hbuf]),
      Entry.releases_of_not_borrowed (by simp [hbuf]), rfl⟩
    rw [Entry.Shaped, hbuf]
    trivial
  · rw [if_pos hnil, Entry.withData, if_neg hnil]
    exact ⟨⟨List.length_pos_of_ne_nil hnil, hdata hnil⟩, rfl, rfl, rfl⟩

/-- An event is queued that holds no more than what it owns, which was in `holders`. -/
theorem plain_inv {c : RefTable} {n : List ℕ} (h : s.Inv) (hbuf : e.dataBuf = .null)
    (hlen : e.dataLength = 0) (hdata : data ≠ [] → e.eventType ≠ .wtStreamLinkRelease)
    (hbooks : Books (s.kept ++ s.lost) s.ctx r c) (hlinks : c.links = s.table.links)
    (hcounts : Counts s.own s.queued r (e.owner.toList ++ n))
    (hbacked : Backed s.own r.links s.queued) :
    ({ s with table := c, holders := n }.enqueue e data).Inv := by
  obtain ⟨hshape, hborrows, hreleases, howner⟩ := slot_plain data hbuf hdata
  refine enqueue_inv (s := { s with table := c, holders := n }) h.ready h.idle h.nodup ?_
    h.presented h.lost hlen hbooks (hcounts.snoc fun p => ?_) (hbacked.snoc hshape ?_ ?_ ?_)
  · show ∀ k ∈ s.own, c.links k ≠ none
    rw [hlinks]
    exact h.linked
  · rw [howner, hreleases, List.count_append]
    simp only [Option.toList_none, List.countP_nil]
    omega
  · simp [hreleases]
  · simp [hborrows]
  · simp [hreleases]

theorem push_inv (h : s.Inv) (hstep : s.push e data = some t) : t.Inv := by
  obtain ⟨r, hheld⟩ := h.held
  obtain ⟨hbooks, hcounts, hbacked⟩ := id hheld
  unfold push at hstep
  split at hstep
  · rename_i hguard
    obtain ⟨hbuf, hlen, hdata⟩ := hguard
    cases howner : e.owner with
    | none =>
      rw [howner] at hstep
      cases hstep
      refine plain_inv (c := s.table) (n := s.holders) h hbuf hlen hdata hbooks rfl ?_
        hbacked
      rw [howner]
      exact hcounts
    | some sc =>
      rw [howner] at hstep
      dsimp only at hstep
      split at hstep
      · rename_i hsc
        split at hstep
        · -- the end of the stream is given the worker's reference
          cases hstep
          refine plain_inv (c := s.table) (n := s.holders.erase sc) h hbuf hlen hdata
            hbooks rfl ?_ hbacked
          rw [howner]
          intro p
          rw [hcounts p, (List.perm_cons_erase hsc).count_eq]
          rfl
        · obtain ⟨table, hact, rfl⟩ := Option.map_eq_some_iff.1 hstep
          obtain ⟨table', hact', hbooks'⟩ :=
            hbooks.one (RefTable.act_ref.2 ⟨hheld.pos hsc, rfl⟩)
          rw [hact] at hact'
          cases hact'
          have hlinks : table.links = s.table.links :=
            hbooks'.surplus.links.trans hheld.links.symm
          refine plain_inv (c := table) (n := s.holders) h hbuf hlen hdata hbooks' hlinks
            ?_ hbacked
          rw [howner]
          exact hcounts.raise sc
      · cases hstep
  · cases hstep

theorem pushWt_inv {link : ℕ} (h : s.Inv) (hstep : s.pushWt link e = some t) : t.Inv := by
  obtain ⟨r, hheld⟩ := h.held
  obtain ⟨hbooks, hcounts, hbacked⟩ := id hheld
  unfold pushWt at hstep
  split at hstep
  · rename_i hguard
    obtain ⟨hown, hlen, howner, htype⟩ := hguard
    obtain ⟨sc, hsc, rfl⟩ := Option.map_eq_some_iff.1 hstep
    have hslot : RxQueue.slot { e with dataBuf := .borrowed sc } [] =
        { e with dataBuf := .borrowed sc } := rfl
    have howner' : Entry.owner { e with dataBuf := .borrowed sc } = none := howner
    have hborrows : Entry.borrows { e with dataBuf := .borrowed sc } = some sc := if_neg htype
    have hreleases : Entry.releases { e with dataBuf := .borrowed sc } = none := if_neg htype
    refine enqueue_inv h.ready h.idle h.nodup h.linked h.presented h.lost hlen hbooks
      (hcounts.snoc fun p => ?_) (hbacked.snoc ⟨hlen, howner⟩ ?_ ?_ ?_)
    · rw [hslot, howner', hreleases]
      rfl
    · simp [hslot, hreleases]
    · intro p hp
      rw [hslot, hborrows] at hp
      cases hp
      exact ⟨link, hown, by rw [← hheld.links]; exact hsc⟩
    · simp [hslot, hreleases]
  · cases hstep

theorem release_inv {link : ℕ} (h : s.Inv) (hstep : s.release link = some t) : t.Inv := by
  obtain ⟨r, hheld⟩ := h.held
  obtain ⟨hbooks, hcounts, hbacked⟩ := id hheld
  unfold release at hstep
  split at hstep
  · rename_i hown
    cases hstep
    have hmem : ∀ k, k ∈ s.own.erase link ↔ k ≠ link ∧ k ∈ s.own := fun k => h.nodup.mem_erase_iff
    refine enqueue_inv (s := { s with own := s.own.erase link }) h.ready h.idle (h.nodup.erase link)
      (fun k hk => h.linked k ((hmem k).1 hk).2) h.presented h.lost rfl hbooks
      (hcounts.snoc fun p => ?_) (hbacked.snoc ⟨rfl, rfl⟩ ?_ ?_ ?_)
    · rw [(List.perm_cons_erase hown).countP_eq, List.countP_cons]
      show _ = _ + (List.countP _ (s.own.erase link) + List.countP _ [link])
      rw [List.countP_singleton]
      show _ = s.holders.count p + 0 + _
      omega
    · intro k
      show k ∈ s.own ↔ k ∈ s.own.erase link ∨ some link = some k
      rw [hmem, Option.some_inj]
      by_cases hk : k = link
      · simp [hk, hown]
      · simp [hk, Ne.symm hk]
    · intro p hp
      cases hp
    · intro k hk
      obtain rfl : link = k := Option.some.inj hk
      refine ⟨?_, fun hin => ((hmem link).1 hin).1 rfl⟩
      rw [← hheld.links]
      exact h.linked link hown
  · cases hstep

/-! ### References -/

/-- The holders' references change, and the table with them. -/
theorem Inv.retable {table : RefTable} {holders : List ℕ} (h : s.Inv)
    (hlinks : table.links = s.table.links) (hbooks : Books (s.kept ++ s.lost) s.ctx r table)
    (hcounts : Counts s.own s.queued r holders) (hbacked : Backed s.own r.links s.queued) :
    Inv { s with table := table, holders := holders } := by
  refine ⟨h.ready, h.idle, h.nodup, ?_, ⟨r, hbooks, hcounts, hbacked⟩, h.presented, h.lost⟩
  show ∀ k ∈ s.own, table.links k ≠ none
  rw [hlinks]
  exact h.linked

theorem newContext_surplus {S : List ℕ} {r c : RefTable} (h : RefTable.Surplus S r c)
    (hsc0 : sc ≠ 0) (hsc : c.refs sc = 0) :
    RefTable.Surplus S (newContext r sc) (newContext c sc) ∧ r.refs sc = 0 := by
  have hzero := h.refs sc
  refine ⟨⟨h.links, fun p => ?_, ?_⟩, by omega⟩
  · have := h.refs p
    simp only [newContext, Function.update_apply]
    split
    · subst p
      omega
    · exact this
  · simp only [newContext, Function.update_apply]
    rw [if_neg hsc0.symm]
    exact h.null

theorem Inv.create (h : s.Inv) (hsc0 : sc ≠ 0) (hsc : s.table.refs sc = 0) :
    Inv { s with table := newContext s.table sc, holders := sc :: s.holders } := by
  obtain ⟨r, hheld⟩ := h.held
  obtain ⟨hbooks, hcounts, hbacked⟩ := id hheld
  obtain ⟨hsurplus, hzero⟩ := newContext_surplus hbooks.surplus hsc0 hsc
  refine h.retable (r := newContext r sc) rfl ⟨hbooks.tx, hbooks.claimed, hsurplus⟩ (fun p => ?_)
    hbacked
  have hp : r.refs p = s.holders.count p + _ + _ := hcounts p
  show Function.update r.refs sc 1 p = (sc :: s.holders).count p + _ +
    (s.own ++ releasedBy s.queued).countP (fun k => r.links k = some p)
  rw [Function.update_apply, List.count_cons]
  split
  · subst p
    rw [beq_self_eq_true, if_pos rfl]
    omega
  · rename_i hne
    rw [if_neg (by simpa using Ne.symm hne)]
    omega

theorem Inv.ref {table : RefTable} (h : s.Inv) (hsc : sc ∈ s.holders)
    (hact : s.table.act (.ref sc) = some table) :
    Inv { s with table := table, holders := sc :: s.holders } := by
  obtain ⟨r, hheld⟩ := h.held
  obtain ⟨hbooks, hcounts, hbacked⟩ := id hheld
  obtain ⟨table', hact', hbooks'⟩ := hbooks.one (RefTable.act_ref.2 ⟨hheld.pos hsc, rfl⟩)
  rw [hact] at hact'
  cases hact'
  exact h.retable (hbooks'.surplus.links.trans hheld.links.symm) hbooks' (hcounts.raise sc) hbacked

/-- A reference is there to be dropped. -/
theorem Held.lower (h : s.Held r) (hsc : sc ∈ s.holders) :
    r.act (.destroy sc) = some (r.lower sc) := by
  refine RefTable.destroy_eq_some.2 (.inr ⟨?_, h.pos hsc, rfl⟩)
  rintro rfl
  have := h.pos hsc
  have := h.null
  omega

theorem Inv.dropped {table : RefTable} (h : s.Inv) (hsc : sc ∈ s.holders)
    (hact : s.table.act (.destroy sc) = some table) :
    Inv { s with table := table, holders := s.holders.erase sc } := by
  obtain ⟨r, hheld⟩ := h.held
  obtain ⟨hbooks, hcounts, hbacked⟩ := id hheld
  obtain ⟨table', hact', hbooks'⟩ := hbooks.one (hheld.lower hsc)
  rw [hact] at hact'
  cases hact'
  refine h.retable (hbooks'.surplus.links.trans hheld.links.symm) hbooks' (fun p => ?_) hbacked
  have hp := hcounts p
  rw [(List.perm_cons_erase hsc).count_eq, List.count_cons] at hp
  simp only [RefTable.lower, Function.update_apply] at hp ⊢
  grind

theorem Inv.link {link : ℕ} (h : s.Inv) (hsc0 : sc ≠ 0) (hsc : s.table.refs sc = 0)
    (hlink : s.table.links link = none) :
    Inv { s with
      table := { newContext s.table sc with
        links := Function.update s.table.links link (some sc) }
      own := link :: s.own } := by
  obtain ⟨r, hheld⟩ := h.held
  obtain ⟨hbooks, hcounts, hbacked⟩ := id hheld
  obtain ⟨hsurplus, hzero⟩ := newContext_surplus hbooks.surplus hsc0 hsc
  have hlinks := hheld.links
  have hfresh : link ∉ s.own := fun hmem => h.linked link hmem hlink
  have hrlink : r.links link = none := by
    rw [← hlinks]
    exact hlink
  have hown : ∀ k ∈ s.own, r.links k ≠ none := by
    rw [← hlinks]
    exact h.linked
  refine ⟨h.ready, h.idle, List.nodup_cons.2 ⟨hfresh, h.nodup⟩, fun k hk => ?_,
    ⟨{ newContext r sc with links := Function.update r.links link (some sc) },
      ⟨hbooks.tx, hbooks.claimed, ?_, hsurplus.refs, hsurplus.null⟩, fun p => ?_,
      hbacked.link hown hrlink sc⟩, h.presented, h.lost⟩
  · show Function.update s.table.links link (some sc) k ≠ none
    have hk : k = link ∨ k ∈ s.own := List.mem_cons.1 hk
    by_cases hne : k = link
    · rw [hne, Function.update_self]
      simp
    · rw [Function.update_of_ne hne]
      exact h.linked k (hk.resolve_left hne)
  · show Function.update s.table.links link (some sc) = Function.update r.links link (some sc)
    rw [hlinks]
  · -- the link that is new counts for its context, the others as before
    have hold : (s.own ++ releasedBy s.queued).countP
        (fun k => Function.update r.links link (some sc) k = some p) =
        (s.own ++ releasedBy s.queued).countP (fun k => r.links k = some p) := by
      refine List.countP_congr fun k hk => ?_
      have hne : k ≠ link := by
        rintro rfl
        rcases List.mem_append.1 hk with hk | hk
        · exact hfresh hk
        · exact hbacked.linked hk hrlink
      simp [Function.update_of_ne hne]
    have hp := hcounts p
    show Function.update r.refs sc 1 p =
      s.holders.count p + (s.queued.filterMap Entry.owner).count p +
        (link :: (s.own ++ releasedBy s.queued)).countP
          (fun k => Function.update r.links link (some sc) k = some p)
    rw [List.countP_cons, hold, Function.update_self, Function.update_apply]
    by_cases hps : p = sc
    · subst p
      simp only [decide_true, if_true]
      omega
    · have hps' : ¬ some sc = some p := fun heq => hps (Option.some.inj heq).symm
      rw [if_neg hps, if_neg (by simpa using hps')]
      omega

/-- The queue is drained to `l`, and `r` is the table without what the events that are gone held. -/
theorem Inv.drained {x : DrainCtx} {c : RefTable} {kept lost : List ℕ} (h : s.Inv)
    (hready : Ready l x) (hidle : x.pushing = (false, false))
    (hlinked : ∀ k ∈ s.own, r.links k ≠ none) (hbooks : Books (kept ++ lost) x r c)
    (hcounts : Counts s.own l r s.holders) (hbacked : Backed s.own r.links l)
    (hpresented : Presented s.pushed l calls)
    (hlost : LostBare { s with lost := lost, calls := calls }) :
    Inv { s with ctx := x, table := c, kept := kept, lost := lost, calls := calls } := by
  have hqueued : queued { s with ctx := x } = l := hready.holding.queued
  refine ⟨?_, hidle, h.nodup, fun k hk => ?_, ⟨r, hbooks, ?_, ?_⟩, ?_, hlost⟩
  · show Ready (queued { s with ctx := x }) x
    rw [hqueued]
    exact hready
  · show c.links k ≠ none
    rw [hbooks.surplus.links]
    exact hlinked k hk
  · show Counts s.own (queued { s with ctx := x }) r s.holders
    rw [hqueued]
    exact hcounts
  · show Backed s.own r.links (queued { s with ctx := x })
    rw [hqueued]
    exact hbacked
  · show Presented s.pushed (queued { s with ctx := x }) calls
    rw [hqueued]
    exact hpresented

/-- The references that asyncio keeps change, or the commands on the TX event ring. -/
theorem Inv.rebook {x : DrainCtx} {c : RefTable} {n : List ℕ} (h : s.Inv) (hheld : s.Held r)
    (hrx : x.rx = s.ctx.rx) (hbooks : Books (n ++ s.lost) x r c) :
    Inv { s with ctx := x, table := c, kept := n } := by
  obtain ⟨-, hcounts, hbacked⟩ := id hheld
  refine h.drained (l := s.queued) ⟨?_, ?_⟩ ?_ ?_ hbooks hcounts hbacked h.presented h.lost
  · rw [hrx]
    exact h.ready.holding
  · rw [hrx]
    exact h.ready.claimed
  · rw [DrainCtx.pushing, hrx]
    exact h.idle
  · rw [← hheld.links]
    exact h.linked

/-- A view that asyncio keeps can be let go of. -/
theorem letGo_spec (h : s.Inv) (hsc : sc ∈ s.kept) :
    ∃ c, s.table.act (.destroy sc) = some c ∧ Inv { s with table := c, kept := s.kept.erase sc } :=
    by
  obtain ⟨r, hheld⟩ := h.held
  have hbooks : Books (sc :: (s.kept.erase sc ++ s.lost)) s.ctx r s.table := by
    refine hheld.1.perm fun p => ?_
    rw [← List.cons_append, List.count_append, List.count_append,
      (List.perm_cons_erase hsc).count_eq]
  obtain ⟨c, hact, hbooks'⟩ := hbooks.drop
  exact ⟨c, hact, h.rebook hheld rfl hbooks'⟩

/-- The command at the head of the TX event ring is taken off it, with its reference. -/
theorem takeCommand_books {D : List ℕ} {ctx : DrainCtx} {c : RefTable} (h : Books D ctx r c)
    (hsome : (SpscRing.peek.exec ctx.tx).1 = some e) :
    Books (e.ref.toList ++ D) { ctx with tx := (SpscRing.pop.exec ctx.tx).2 } r c := by
  rw [DrainCtx.peekRing_exec] at hsome
  dsimp only at hsome
  split at hsome
  · cases hsome
  rename_i hlt
  have hlt : ctx.tx.head < ctx.tx.tail := not_le.1 hlt
  have hspec := SpscRing.pop_spec h.tx hlt
  obtain ⟨hpop, hwf⟩ := Interleave.wp_exec hspec h.tx fun _ => trivial
  have hmoves : SpscRing.ConsumerMoves ctx.tx (SpscRing.pop.exec ctx.tx).2 :=
    Interleave.wp_exec_rel hspec h.tx (fun _ => trivial) .refl .trans fun hstep => hstep.moves
  -- the command is what the history has at the head
  have hslot := h.tx.slot_head h.claimed hlt
  rw [← ctx.tx.geo.and_mask, Option.some.inj hsome] at hslot
  have hqueued : ctx.tx.queued = e :: (SpscRing.pop.exec ctx.tx).2.queued := by
    rw [SpscRing.queued, SpscRing.queued, hpop.head, hmoves.log]
    exact List.drop_eq_getElem?_toList_append.trans (by rw [hslot]; rfl)
  refine ⟨hwf, hpop.claimed, h.surplus.perm fun p => ?_⟩
  have hcredits : ctx.credits = e.ref.toList ++
      DrainCtx.credits { ctx with tx := (SpscRing.pop.exec ctx.tx).2 } := by
    rw [DrainCtx.credits, hqueued, List.filterMap_cons]
    cases e.ref with
    | none => rfl
    | some sc => rfl
  rw [hcredits]
  simp only [List.count_append]
  omega

theorem takeCommand_spec (h : s.Inv) (hsome : (SpscRing.peek.exec s.ctx.tx).1 = some e) :
    ∃ t, s.takeCommand = some t ∧ t.Inv := by
  obtain ⟨r, hheld⟩ := h.held
  have hbooks := takeCommand_books hheld.1 hsome
  unfold takeCommand
  rw [hsome, Option.bind_some]
  cases href : e.ref with
  | none =>
    rw [href] at hbooks
    exact ⟨_, rfl, h.rebook hheld rfl hbooks⟩
  | some sc =>
    rw [href] at hbooks
    obtain ⟨c, hact, hbooks'⟩ := Books.drop hbooks
    exact ⟨_, Option.map_eq_some_iff.2 ⟨c, hact, rfl⟩, h.rebook hheld rfl hbooks'⟩

/-! ### A drain -/

/-- A drain touches nothing that is freed, whatever its handler does. -/
theorem drain_spec (keeps raises : List DrainedEvent → Bool) (maxEvents : ℤ) (h : s.Inv) :
    ∃ t, s.drain keeps raises maxEvents = some t ∧ t.Inv := by
  obtain ⟨r, hheld⟩ := h.held
  obtain ⟨hbooks, hcounts, hbacked⟩ := id hheld
  have hall : (run RefTable.act r (s.queued.flatMap Entry.refOps)).isSome := by
    rw [← List.append_nil s.queued] at hbacked hcounts
    obtain ⟨_, hrun, -⟩ := hbacked.run hcounts hheld.null
    rw [hrun]
    rfl
  obtain ⟨c, hrun, done, rest, groups, r', hend⟩ :=
    DrainCtx.drainRaising_books keeps raises maxEvents h.ready hall hbooks
  -- the entries that were handled have given up what they held
  have hpresented := h.presented
  rw [hend.split] at hcounts hbacked hpresented
  obtain ⟨r₂, hr₂, hbacked', hcounts', hown⟩ := hbacked.run hcounts hheld.null
  obtain rfl : r₂ = r' := Option.some.inj (hr₂.symm.trans hend.gaveUp)
  have hpopped := hpresented.pops hend.handled
  have hidle : (drainRaising keeps raises maxEvents s.ctx).2.1.pushing = (false, false) :=
    (DrainCtx.apart_drain maxEvents s.ctx).trans h.idle
  have hlinked : ∀ k ∈ s.own, r₂.links k ≠ none := by
    intro k hk
    rw [hown k hk, ← hheld.links]
    exact h.linked k hk
  refine ⟨_, Option.map_eq_some_iff.2 ⟨c, hrun, rfl⟩, ?_⟩
  generalize drainRaising keeps raises maxEvents s.ctx = x at hend hidle
  obtain ⟨out, x, ops⟩ := x
  cases out with
  | ok v =>
    obtain ⟨hready, hcalls, hbooks'⟩ := hend.returned v rfl
    show Inv { s with
      ctx := x.settle, table := c, kept := s.kept ++ viewsKept keeps [] v.calls
      lost := s.lost ++ [], calls := s.calls ++ v.calls.map (·, false) }
    rw [settle_of_ready hready, List.append_nil, hcalls]
    refine h.drained hready hidle hlinked (hbooks'.perm fun p => ?_) hcounts' hbacked' hpopped ?_
    · simp only [List.count_append, List.nil_append, hcalls]
      omega
    · intro hne
      obtain ⟨ev, hev, htype⟩ := h.lost hne
      exact ⟨ev, List.mem_append_left _ hev, htype⟩
  | error y =>
    obtain ⟨l', rfl, hpresents, hcalls, hat, hbooks'⟩ := hend.raised y rfl
    show Inv { s with
      ctx := x.settle, table := c, kept := s.kept ++ viewsKept keeps [] y.loop.calls
      lost := s.lost ++ y.lost
      calls := s.calls ++ (y.loop.calls.dropLast.map (·, false) ++ [(y.event, true)]) }
    rw [hcalls, List.dropLast_concat, List.nil_append]
    have hsettled : Books (viewsKept keeps [] y.loop.calls ++ (y.lost ++ (s.kept ++ s.lost)))
        x.settle r₂ c := Books.of_tx hbooks' rfl
    refine h.drained (ready_settle hat) hidle hlinked (hsettled.perm fun p => ?_)
      (hcounts'.left hbacked'.1) hbacked'.left ?_ ?_
    · simp only [List.count_append, List.nil_append, hcalls]
      omega
    · rw [← List.append_assoc]
      exact hpopped.raises hpresents
    · intro hne
      by_cases hnil : s.lost = []
      · have hbare : y.entry.Bare := by
          by_contra hguarded
          refine hne (?_ : s.lost ++ y.lost = [])
          rw [hnil, HandlerRaised.lost, if_neg hguarded]
          rfl
        rw [Entry.Presents, if_pos hbare] at hpresents
        refine ⟨y.event, ?_, ?_⟩
        · exact List.mem_append_right _ (List.mem_append_right _ List.mem_cons_self)
        · rw [hpresents]
          exact hbare
      · obtain ⟨ev, hev, htype⟩ := h.lost hnil
        exact ⟨ev, List.mem_append_left _ hev, htype⟩

/-! ## Whole runs -/

theorem Inv.step {a : RaisingAct} (h : s.Inv) (hstep : step s a = some t) : t.Inv := by
  cases a with
  | create sc =>
    obtain ⟨hguard, hstep⟩ := Option.ite_none_right_eq_some.1 hstep
    cases hstep
    exact h.create hguard.1 hguard.2
  | ref sc =>
    obtain ⟨hsc, hstep⟩ := Option.ite_none_right_eq_some.1 hstep
    obtain ⟨c, hact, rfl⟩ := Option.map_eq_some_iff.1 hstep
    exact h.ref hsc hact
  | drop sc =>
    obtain ⟨hsc, hstep⟩ := Option.ite_none_right_eq_some.1 hstep
    obtain ⟨c, hact, rfl⟩ := Option.map_eq_some_iff.1 hstep
    exact h.dropped hsc hact
  | link link sc =>
    obtain ⟨hguard, hstep⟩ := Option.ite_none_right_eq_some.1 hstep
    cases hstep
    exact h.link hguard.1 hguard.2.1 hguard.2.2
  | push e data => exact push_inv h hstep
  | pushWt link e => exact pushWt_inv h hstep
  | release link => exact release_inv h hstep
  | receive scs mallocs =>
    cases hstep
    obtain ⟨r, hheld⟩ := h.held
    exact h.rebook hheld rfl (hheld.1.of_tx rfl)
  | takeCommand =>
    obtain ⟨e, hsome, -⟩ := Option.bind_eq_some_iff.1 hstep
    obtain ⟨t', ht', hinv⟩ := takeCommand_spec h hsome
    rw [Option.some.inj (hstep.symm.trans ht')]
    exact hinv
  | letGo sc =>
    obtain ⟨hsc, hstep⟩ := Option.ite_none_right_eq_some.1 hstep
    obtain ⟨c, hact, rfl⟩ := Option.map_eq_some_iff.1 hstep
    obtain ⟨c', hact', hinv⟩ := letGo_spec h hsc
    rw [Option.some.inj (hact.symm.trans hact')]
    exact hinv
  | drain keeps raises maxEvents =>
    obtain ⟨t', ht', hinv⟩ := drain_spec keeps raises maxEvents h
    rw [Option.some.inj (hstep.symm.trans ht')]
    exact hinv

theorem inv_init (rx tx : Circular.Geometry) (ctx : DrainCtx) : (init rx tx ctx).Inv := by
  refine ⟨⟨⟨RxQueue.create_inv rx, ⟨rfl, rfl, rfl⟩, rfl⟩, rfl⟩, rfl, List.nodup_nil, by simp [init],
    ⟨_, ⟨SpscRing.create_wf tx, rfl, rfl, fun p => ?_, rfl⟩, fun p => ?_, trivial⟩, ?_, ?_⟩
  · rfl
  · rfl
  · exact ⟨[], [], [], [], rfl, .nil, rfl, .none⟩
  · exact fun hne => absurd rfl hne

/-- Of every context, who holds its references: the worker and asyncio, the events in the queue, the
links, the views that are kept, the commands on the TX event ring, and nobody for those lost. -/
def Accounted (s : RaisingRun) : Prop :=
  ∀ p, s.table.refs p = s.holders.count p + (s.queued.filterMap Entry.owner).count p +
    (s.own ++ releasedBy s.queued).countP (fun k => s.table.links k = some p) + s.kept.count p +
    s.ctx.credits.count p + s.lost.count p

def fourSlots : Circular.Geometry := .ofExp 2 Circular.Geometry.exp_two

/-- A transport whose context `5` has received two bytes. -/
def received : DrainCtx where
  rx := .create fourSlots
  tx := .create fourSlots
  scs := fun _ => { rx := some ((StreamBuf.push [1, 2]).exec (.create 16 false)).2 }
  threadCtx := false
  txWorkerIdle := false
  workerWakes := 0
  txEventRingDrainPending := false
  txEventRingLowWater := 1
  dgramReleaseOwed := []
  rxDataRingCap := 16
  snapshotSize := 0
  cnxSnapshots := fun _ => none
  snapshotDrops := []
  refreshPosted := []
  txEventRingDrainEvent := none
  objects := 0
  mallocs := fun _ => true
  pendingFc := []
  hung := false

end RaisingRun

end Aiopquic
