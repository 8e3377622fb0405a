import Aiopquic.RxQueue
import Aiopquic.Threads

/-!
# Every interleaving of the RX event queue is first in, first out

The worker pushes, the asyncio thread peeks, pops and refills, one atomic step at a time in any
order. The calls are recorded: `started` and `returned` list the events of the pushes that have
begun and of those that returned `0` or `1`, `popped` the events the consumer popped.
-/

namespace Aiopquic

open Interleave Interleave.Prog Circular RxQueue

/-- The queue and the record of the calls made on it. -/
structure QueueRun where
  q : RxQueue
  started : List EventView
  returned : List EventView
  refused : List EventView
  popped : List EventView

namespace QueueRun

/-- An empty queue on a ring of the given geometry. -/
def init (geo : Geometry) : QueueRun := ⟨.create geo, [], [], [], []⟩

/-- The queue inside the run. -/
def qLoc : Loc QueueRun RxQueue where
  get := (·.q)
  set := fun q s => { s with q := q }
  get_set := fun _ _ => rfl

/-- One call of `spsc_ring_push_or_overflow`. -/
def pushCall (entry : Entry) (data : List UInt8) : Prog QueueRun Unit := do
  modify fun s => { s with started := s.started ++ [pushedView entry data] }
  let rc ← (pushOrOverflow entry data).on qLoc
  if rc = 0 ∨ rc = 1 then
    modify fun s => { s with returned := s.returned ++ [pushedView entry data] }
  else modify fun s => { s with refused := s.refused ++ [pushedView entry data] }

/-- `spsc_ring_peek`, and `spsc_ring_pop` when it found an entry. -/
def popCall : Prog QueueRun Unit := do
  let found ← peek.on qLoc
  match found with
  | none => pure ()
  | some e => do
    pop.on qLoc
    modify fun s => { s with popped := s.popped ++ [view e] }

/-- `spsc_ring_peek` alone. -/
def peekCall : Prog QueueRun Unit := do
  let _ ← peek.on qLoc
  pure ()

/-- `spsc_ring_refill_from_overflow`. -/
def refillCall : Prog QueueRun Unit := do
  let _ ← refill.on qLoc
  pure ()

/-- What each thread may call. -/
inductive Menu : Thread → QueueRun → Prog QueueRun Unit → Prop
  | push (s : QueueRun) (entry : Entry) (data : List UInt8) : Menu .worker s (pushCall entry data)
  | pop (s : QueueRun) : Menu .asyncio s popCall
  | peek (s : QueueRun) : Menu .asyncio s peekCall
  | refill (s : QueueRun) : Menu .asyncio s refillCall

/-! ## The proof outline -/

/-- The events the queue has taken in. -/
def views (s : QueueRun) : List EventView := s.q.accepted.map view

/-- What holds between any two steps. -/
structure Inv (s : QueueRun) : Prop where
  queue : s.q.Inv
  returned : s.returned <+: s.views
  started : s.views <+: s.started
  refused : s.refused = []
  popped : s.popped <+: s.views
  head_le : s.q.ring.head ≤ s.popped.length + 1
  le_head : s.popped.length ≤ s.q.ring.head

/-- A step of the worker. -/
structure WorkerMoves (s t : QueueRun) : Prop where
  queue : ProducerMoves s.q t.q
  popped : t.popped = s.popped

/-- A step of the asyncio thread. -/
structure AsyncioMoves (s t : QueueRun) : Prop where
  queue : ConsumerMoves s.q t.q
  started : t.started = s.started
  returned : t.returned = s.returned
  refused : t.refused = s.refused

theorem WorkerMoves.refl (s : QueueRun) : WorkerMoves s s := ⟨.refl _, rfl⟩

theorem WorkerMoves.trans {s t u : QueueRun} (h : WorkerMoves s t) (h' : WorkerMoves t u) :
    WorkerMoves s u :=
  ⟨h.queue.trans h'.queue, h'.popped.trans h.popped⟩

theorem AsyncioMoves.refl (s : QueueRun) : AsyncioMoves s s := ⟨.refl _, rfl, rfl, rfl⟩

theorem AsyncioMoves.trans {s t u : QueueRun} (h : AsyncioMoves s t) (h' : AsyncioMoves t u) :
    AsyncioMoves s u :=
  ⟨h.queue.trans h'.queue, h'.started.trans h.started, h'.returned.trans h.returned,
    h'.refused.trans h.refused⟩

/-- The worker outside a push. -/
structure WorkerIdle (s : QueueRun) : Prop where
  insertOwed : s.q.insertOwed = false
  writing : s.q.ring.writing = false
  returned : s.returned = s.views
  started : s.started = s.views

/-- The asyncio thread outside a call. -/
structure AsyncioIdle (s : QueueRun) : Prop where
  settled : Settled s.q
  claimed : s.q.ring.claimed = false
  popped : s.popped.length = s.q.ring.head

theorem AsyncioMoves.views {s t : QueueRun} (h : AsyncioMoves s t) : t.views = s.views := by
  rw [QueueRun.views, QueueRun.views, h.queue.accepted]

theorem WorkerMoves.views {s t : QueueRun} (h : WorkerMoves s t) : s.views <+: t.views :=
  h.queue.accepted.map view

theorem WorkerIdle.stable {s t : QueueRun} (h : WorkerIdle s) (hm : AsyncioMoves s t) :
    WorkerIdle t :=
  ⟨hm.queue.insertOwed.trans h.insertOwed, hm.queue.writing.trans h.writing,
    by rw [hm.returned, hm.views, h.returned], by rw [hm.started, hm.views, h.started]⟩

theorem AsyncioIdle.stable {s t : QueueRun} (h : AsyncioIdle s) (hm : WorkerMoves s t) :
    AsyncioIdle t :=
  ⟨h.settled.stable hm.queue, hm.queue.claimed.trans h.claimed,
    by rw [hm.popped, hm.queue.head, h.popped]⟩

/-- The rely–guarantee outline. -/
def outline : Outline Menu :=
  duo Inv WorkerMoves AsyncioMoves WorkerIdle AsyncioIdle .refl .trans .refl .trans
    (fun h hm _ => h.stable hm) (fun h hm _ => h.stable hm)

/-- The queue during a push of `v` that began after the events `before`. -/
theorem embeds_worker (before : List EventView) (v : EventView) :
    Embeds (outline.contract .worker) qLoc (producer before.length (view · = v))
      (fun s => s.started = before ++ [v] ∧ s.returned = before ∧
        (s.views = before ∨ s.views = before ++ [v])) where
  inv := fun s hs => hs.queue
  rely := by
    rintro s t ⟨hst, hrt, hv⟩ hm -
    exact ⟨hm.queue, hm.started.trans hst, hm.returned.trans hrt, by rw [hm.views]; exact hv⟩
  step := by
    rintro s q hs ⟨hst, hrt, hv⟩ hg hq
    have hmoves : WorkerMoves s (qLoc.set q s) := ⟨hg.moves, rfl⟩
    have hv' : (qLoc.set q s).views = before ∨ (qLoc.set q s).views = before ++ [v] := by
      rcases hg.accepted with hacc | ⟨hlen, e, he, hacc⟩
      · have : (qLoc.set q s).views = s.views := by
          show q.accepted.map view = s.q.accepted.map view
          rw [hacc]
          rfl
        rw [this]
        exact hv
      · refine .inr ?_
        have hb : s.views = before := by
          refine hv.resolve_right fun hr => ?_
          have : s.views.length = before.length := by
            rw [QueueRun.views, List.length_map]
            exact hlen
          rw [hr] at this
          simp at this
        show q.accepted.map view = before ++ [v]
        rw [hacc, List.map_append, ← hb, List.map_singleton, he]
        rfl
    refine ⟨hmoves, ⟨hq, ?_, ?_, hs.refused, hs.popped.trans hmoves.views, ?_, ?_⟩, hst, hrt, hv'⟩
    · show s.returned <+: _
      rw [hrt]
      rcases hv' with h | h
      · rw [h]
      · rw [h]
        exact List.prefix_append _ _
    · show _ <+: s.started
      rw [hst]
      rcases hv' with h | h
      · rw [h]
        exact List.prefix_append _ _
      · rw [h]
    · show q.ring.head ≤ s.popped.length + 1
      rw [hg.moves.head]
      exact hs.head_le
    · show s.popped.length ≤ q.ring.head
      rw [hg.moves.head]
      exact hs.le_head

/-- The queue during a call of the consumer that has recorded `popped`. -/
theorem embeds_asyncio (popped : List EventView) (h : Option ℕ) :
    Embeds (outline.contract .asyncio) qLoc (consumer h)
      (fun s => s.popped = popped ∧ (s.q.ring.head = popped.length ∨
        h = some popped.length ∧ s.q.ring.head = popped.length + 1)) where
  inv := fun s hs => hs.queue
  rely := by
    rintro s t ⟨hp, hh⟩ hm -
    exact ⟨hm.queue, hm.popped.trans hp, by rw [hm.queue.head]; exact hh⟩
  step := by
    rintro s q hs ⟨hp, hh⟩ hg hq
    have hmoves : AsyncioMoves s (qLoc.set q s) := ⟨hg.moves, rfl, rfl, rfl⟩
    have hh' : q.ring.head = popped.length ∨
        h = some popped.length ∧ q.ring.head = popped.length + 1 := by
      rcases hg.head with heq | ⟨hsome, hsucc⟩
      · rw [heq]
        exact hh
      · have heq : s.q.ring.head = popped.length := by
          rcases hh with hh | ⟨hh, -⟩
          · exact hh
          · exact Option.some.inj (hsome.symm.trans hh)
        exact .inr ⟨by rw [hsome]; exact congrArg some heq, hsucc.trans (congrArg (· + 1) heq)⟩
    refine ⟨hmoves, ⟨hq, ?_, ?_, hs.refused, ?_, ?_, ?_⟩, hp, hh'⟩
    · rw [hmoves.views]
      exact hs.returned
    · rw [hmoves.views]
      exact hs.started
    · rw [hmoves.views]
      exact hs.popped
    · show q.ring.head ≤ s.popped.length + 1
      rw [hp]
      omega
    · show s.popped.length ≤ q.ring.head
      rw [hp]
      omega

/-! ## Every call keeps the outline -/

/-- A push keeps the outline. -/
theorem pushCall_spec {s : QueueRun} {entry : Entry} {data : List UInt8} (hidle : WorkerIdle s) :
    wp (outline.contract .worker) (pushCall entry data) (fun _ => WorkerIdle) s := by
  unfold pushCall
  refine wp_modify_bind fun t hst ht => ?_
  have hidle' : WorkerIdle t := hidle.stable hst
  have hinv : Inv { t with started := t.started ++ [pushedView entry data] } :=
    ⟨ht.queue, ht.returned, ht.started.trans (List.prefix_append _ _), ht.refused, ht.popped,
      ht.head_le, ht.le_head⟩
  refine ⟨⟨.refl _, rfl⟩, hinv, ?_⟩
  have hspec := pushOrOverflow_spec (view · = pushedView entry data) entry data
    (view_slot entry data) (view_node entry data) ht.queue hidle'.insertOwed hidle'.writing
  rw [show t.q.accepted.length = t.views.length from (List.length_map view).symm] at hspec
  refine wp_seq (wp_on (embeds_worker t.views _) ⟨by rw [hidle'.started], hidle'.returned, .inl rfl⟩
    hspec) hinv fun rc u hu h => ?_
  obtain ⟨⟨hrc, hpushed⟩, hstarted, hreturned, -⟩ := h
  obtain ⟨e, he, hacc⟩ := hpushed.accepted
  have hviews : u.views = t.views ++ [pushedView entry data] := by
    rw [QueueRun.views, show u.q.accepted = t.q.accepted ++ [e] from hacc, List.map_append,
      List.map_singleton, he]
    rfl
  rw [if_pos hrc]
  refine wp_modify fun w huw hw => ?_
  have hret : w.returned ++ [pushedView entry data] = w.views := by
    rw [huw.views, hviews, huw.returned, hreturned]
  refine ⟨⟨.refl _, rfl⟩, ⟨hw.queue, ?_, hw.started, hw.refused, hw.popped, hw.head_le, hw.le_head⟩,
    ?_⟩
  · show w.returned ++ [_] <+: w.views
    rw [hret]
  · exact ⟨huw.queue.insertOwed.trans hpushed.insertOwed, huw.queue.writing.trans hpushed.writing,
      hret,
      by rw [show w.started = _ from huw.started, hstarted, ← hviews]; exact huw.views.symm⟩

/-- So does a pop. -/
theorem popCall_spec {s : QueueRun} (hs : Inv s) (hidle : AsyncioIdle s) :
    wp (outline.contract .asyncio) popCall (fun _ => AsyncioIdle) s := by
  unfold popCall
  refine wp_seq (wp_on (embeds_asyncio s.popped none) ⟨rfl, .inl hidle.popped.symm⟩
    (peek_spec hs.queue hidle.settled hidle.claimed)) hs fun found t ht h => ?_
  obtain ⟨⟨hpeek, hfound⟩, hpop, hhead⟩ := h
  have hhead' : t.q.ring.head = s.popped.length := hhead.resolve_right fun h => by simp at h
  cases found with
  | none => exact ⟨hpeek.settled, hpeek.claimed.trans hidle.claimed, by rw [hpop, hhead']⟩
  | some e =>
    have hlog : t.q.ring.log[t.q.ring.head]? = some e := by
      have hh : t.q.ring.head = s.q.ring.head := hpeek.head
      rw [hh]
      exact hfound
    have hlt : t.q.ring.head < t.q.ring.tail := by
      have := (List.getElem?_eq_some_iff.1 hlog).1
      rwa [ht.queue.ring.length] at this
    refine wp_seq (wp_on (embeds_asyncio s.popped (some t.q.ring.head))
      ⟨hpop, .inl hhead'⟩ (RxQueue.pop_spec ht.queue hpeek.settled hlt)) ht fun _ u hu h => ?_
    obtain ⟨hpopped, hpop', -⟩ := h
    refine wp_modify fun w huw hw => ?_
    have hwhead : w.q.ring.head = s.popped.length + 1 := by
      rw [huw.queue.head, show u.q.ring.head = t.q.ring.head + 1 from hpopped.head, hhead']
    have hwpop : w.popped = s.popped := huw.popped.trans hpop'
    have hview : w.views[w.popped.length]? = some (view e) := by
      have hacc : t.q.accepted <+: w.q.accepted :=
        (show t.q.accepted <+: u.q.accepted from hpopped.accepted).trans huw.queue.accepted
      have hte := accepted_getElem? hlog
      rw [QueueRun.views, List.getElem?_map, hwpop, ← hhead', getElem?_of_isPrefix hacc hte]
      rfl
    refine ⟨⟨.refl _, rfl, rfl, rfl⟩, ⟨hw.queue, hw.returned, hw.started, hw.refused,
      prefix_snoc hw.popped hview, ?_, ?_⟩, ⟨?_, ?_, ?_⟩⟩
    · simp [hwpop, hwhead]
    · simp [hwpop, hwhead]
    · exact hpopped.settled.stable huw.queue
    · exact huw.queue.claimed.trans hpopped.claimed
    · simp [hwpop, hwhead]

/-- A call that leaves the ring's head where it is. -/
theorem settled_call {α : Type} {s : QueueRun} {p : Prog RxQueue α} {Q : α → RxQueue → Prop}
    (hs : Inv s) (hidle : AsyncioIdle s) (hp : wp (consumer none) p Q s.q)
    (hQ : ∀ a q', Q a q' → Refilled s.q q') :
    wp (outline.contract .asyncio) (do let _ ← p.on qLoc; pure ()) (fun _ => AsyncioIdle) s := by
  refine wp_seq (wp_on (embeds_asyncio s.popped none) ⟨rfl, .inl hidle.popped.symm⟩ hp)
    hs fun a t ht h => ?_
  obtain ⟨hq, hpop, hhead⟩ := h
  have hr := hQ a _ hq
  exact ⟨hr.settled, hr.claimed.trans hidle.claimed,
    by rw [hpop]; exact (hhead.resolve_right fun h => by simp at h).symm⟩

theorem outline_sound : outline.Sound := by
  rintro i s p hs hidle hp
  cases hp with
  | push _ entry data => exact pushCall_spec hidle
  | pop => exact popCall_spec hs hidle
  | peek =>
    exact settled_call hs hidle (RxQueue.peek_spec hs.queue hidle.settled hidle.claimed)
      fun _ _ h => h.1
  | refill => exact settled_call hs hidle (refill_spec hidle.settled) fun _ _ h => h

theorem init_inv (geo : Geometry) : Inv (init geo) :=
  ⟨create_inv geo, List.prefix_rfl, List.prefix_rfl, rfl, List.prefix_rfl, Nat.zero_le _,
    Nat.zero_le _⟩

theorem init_idle (geo : Geometry) (i : Thread) : outline.idle i (init geo) := by
  cases i with
  | worker => exact ⟨rfl, rfl, rfl, rfl⟩
  | asyncio => exact ⟨⟨rfl, rfl, rfl⟩, rfl, rfl⟩

/-! ## The theorem -/

/-- First in, first out, exactly once, with the ring written by one thread at a time. -/
structure Fifo (c : Config Thread QueueRun) : Prop where
  /-- The popped events are the first pushed ones, in push order. -/
  popped : c.mem.popped <+: c.mem.started
  /-- Every push that has returned returned `0` or `1`. -/
  returned : c.mem.returned <+: c.mem.started
  refused : c.mem.refused = []
  all_returned : c.Idle .worker → c.mem.returned = c.mem.started
  /-- Between calls, what was accepted and not popped stands in the ring's slots and the list. -/
  conserved : c.Idle .worker → c.Idle .asyncio →
    c.mem.returned = c.mem.popped ++ (c.mem.q.ring.contents ++ c.mem.q.ovf.list).map view
  one_writer : ¬ (c.mem.q.ring.writing ∧ c.mem.q.refilling)
  head_le : c.mem.q.ring.head ≤ c.mem.q.ring.tail
  capacity : c.mem.q.ring.tail - c.mem.q.ring.head ≤ c.mem.q.ring.geo.capacity
  no_fault : c.mem.q.fault = false

/-- The RX event queue is first in, first out under every interleaving of its producer and
consumer. -/
theorem rxQueue_fifo (geo : Geometry) {c : Config Thread QueueRun}
    (hc : Reachable Menu (init geo) c) : Fifo c := by
  have h := outline.reachable outline_sound (init_inv geo) (init_idle geo) hc
  have hinv : Inv c.mem := h.1
  have hring := hinv.queue.ring
  refine ⟨hinv.popped.trans hinv.started, hinv.returned.trans hinv.started, hinv.refused,
    fun hw => ?_, fun hw ha => ?_, ?_, hring.head_le, ?_, hinv.queue.fault⟩
  · have hidle : WorkerIdle c.mem := h.idle hw
    rw [hidle.returned, hidle.started]
  · have hwi : WorkerIdle c.mem := h.idle hw
    have hai : AsyncioIdle c.mem := h.idle ha
    have hpop : c.mem.popped = c.mem.views.take c.mem.q.ring.head := by
      rw [← hai.popped]
      exact List.prefix_iff_eq_take.1 hinv.popped
    rw [hwi.returned, hpop, ← hinv.queue.queued_eq hai.settled hai.claimed, queued, List.map_drop]
    exact (List.take_append_drop _ _).symm
  · rintro ⟨hwr, hrf⟩
    have hd := (hinv.queue.writing hwr).1
    have := hinv.queue.transit (hinv.queue.refilling hrf).1
    omega
  · have := hring.tail_le
    omega

/-- Two pushes into a ring of one slot: the second finds it full, and goes to the overflow while the
first is being popped; a refill brings it back. -/
def overflowRun : Config Thread QueueRun :=
  (((((((Config.start (init (.ofExp 0 Geometry.exp_zero))).call .worker
    (pushCall { streamId := 4 } [1])).drive
    (.replicate 8 .worker)).call .worker (pushCall { streamId := 8 } [2])).call .asyncio
      popCall).drive
    (.replicate 4 .worker ++ .replicate 12 .asyncio ++ .replicate 8 .worker)).call .asyncio
    refillCall).drive (.replicate 20 .asyncio)

theorem rxQueue_fifo_overflowRun : Fifo overflowRun ∧
    overflowRun.mem.returned.map (·.payload) = [[1], [2]] ∧
    overflowRun.mem.popped.map (·.payload) = [[1]] ∧
    overflowRun.mem.q.ring.contents.map (·.payload) = [[2]] := by
  refine ⟨rxQueue_fifo (.ofExp 0 (by decide)) ?_, by decide, by decide, by decide⟩
  have h₁ : Reachable Menu (init (.ofExp 0 (by decide)))
    (Config.start (init (.ofExp 0 (by decide)))) :=
    .refl
  have h₂ := (h₁.call (i := .worker) rfl (.push _ { streamId := 4 } [1])).drive
    (.replicate 8 .worker)
  have h₃ := (h₂.call (i := .worker) rfl (.push _ { streamId := 8 } [2])).call (i := .asyncio)
    rfl (.pop _)
  have h₄ := h₃.drive (.replicate 4 .worker ++ .replicate 12 .asyncio ++ .replicate 8 .worker)
  exact (h₄.call (i := .asyncio) rfl (.refill _)).drive (.replicate 20 .asyncio)

end QueueRun

end Aiopquic
