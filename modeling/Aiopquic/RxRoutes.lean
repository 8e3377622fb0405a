import Aiopquic.Lib.Atomic
import Aiopquic.RxQueue
import Aiopquic.Threads

/-!
# The two routes of an RX event

`aiopquic_rx_push` puts an event in the ring or, when the ring is full or the overflow in use, in an
overflow node that a refill later copies into the ring. The two routes fill the slot that the drain
reads differently: `spsc_ring_push_borrowed` keeps the entry as it is, and the overflow's node
clears `data_length`. The runs here record which way each push went and the entries that the drain
was shown.
-/

namespace Aiopquic

open Interleave Interleave.Prog Circular RxQueue

/-- A push that put its event in, and whether it went through the overflow. -/
structure Routed where
  entry : Entry
  data : List UInt8
  overflowed : Bool
  deriving DecidableEq

/-- The entry it put in. -/
def Routed.queues (r : Routed) : Entry :=
  if r.overflowed then node r.entry r.data else slot r.entry r.data

/-- The queue, the pushes that returned `0` or `1`, and the entries that a peek has shown the
drain. -/
structure RouteRun where
  q : RxQueue
  pushed : List Routed
  seen : List Entry

namespace RouteRun

/-- An empty queue on a ring of the given geometry. -/
def init (geo : Geometry) : RouteRun := ⟨.create geo, [], []⟩

/-- The queue inside the run. -/
def qLoc : Loc RouteRun RxQueue where
  get := (·.q)
  set := fun q s => { s with q := q }
  get_set := fun _ _ => rfl

/-- `aiopquic_rx_push`. -/
def pushCall (entry : Entry) (data : List UInt8) : Prog RouteRun Unit := do
  let rc ← (pushOrOverflow entry data).on qLoc
  if rc = 0 then modify fun s => { s with pushed := s.pushed ++ [⟨entry, data, false⟩] }
  else if rc = 1 then modify fun s => { s with pushed := s.pushed ++ [⟨entry, data, true⟩] }
  else pure ()

/-- One round of a drain: `spsc_ring_peek`, and `spsc_ring_pop` when it found an entry. -/
def popCall : Prog RouteRun Unit := do
  let found ← peek.on qLoc
  match found with
  | none => pure ()
  | some e => do
    modify fun s => { s with seen := s.seen ++ [e] }
    pop.on qLoc

/-- `spsc_ring_refill_from_overflow`. -/
def refillCall : Prog RouteRun Unit := do
  let _ ← refill.on qLoc
  pure ()

/-- What each thread may call. -/
inductive Menu : Thread → RouteRun → Prog RouteRun Unit → Prop
  | push (s : RouteRun) (entry : Entry) (data : List UInt8) : Menu .worker s (pushCall entry data)
  | pop (s : RouteRun) : Menu .asyncio s popCall
  | refill (s : RouteRun) : Menu .asyncio s refillCall

/-! ## The proof outline -/

/-- What holds between any two steps. -/
structure Inv (s : RouteRun) : Prop where
  queue : s.q.Inv
  pushed : s.pushed.map Routed.queues <+: s.q.accepted
  seen : s.seen <+: s.q.accepted

/-- A step of the worker. -/
structure WorkerMoves (s t : RouteRun) : Prop where
  queue : ProducerMoves s.q t.q
  seen : t.seen = s.seen

/-- A step of the asyncio thread. -/
structure AsyncioMoves (s t : RouteRun) : Prop where
  queue : ConsumerMoves s.q t.q
  pushed : t.pushed = s.pushed

theorem WorkerMoves.refl (s : RouteRun) : WorkerMoves s s := ⟨.refl _, rfl⟩

theorem WorkerMoves.trans {s t u : RouteRun} (h : WorkerMoves s t) (h' : WorkerMoves t u) :
    WorkerMoves s u :=
  ⟨h.queue.trans h'.queue, h'.seen.trans h.seen⟩

theorem AsyncioMoves.refl (s : RouteRun) : AsyncioMoves s s := ⟨.refl _, rfl⟩

theorem AsyncioMoves.trans {s t u : RouteRun} (h : AsyncioMoves s t) (h' : AsyncioMoves t u) :
    AsyncioMoves s u :=
  ⟨h.queue.trans h'.queue, h'.pushed.trans h.pushed⟩

/-- The worker outside a push: every entry it put in is recorded. -/
structure WorkerIdle (s : RouteRun) : Prop where
  insertOwed : s.q.insertOwed = false
  writing : s.q.ring.writing = false
  pushed : s.pushed.map Routed.queues = s.q.accepted

/-- The asyncio thread outside a call. -/
structure AsyncioIdle (s : RouteRun) : Prop where
  settled : Settled s.q
  claimed : s.q.ring.claimed = false
  seen : s.seen.length = s.q.ring.head

theorem WorkerIdle.stable {s t : RouteRun} (h : WorkerIdle s) (hm : AsyncioMoves s t) :
    WorkerIdle t :=
  ⟨hm.queue.insertOwed.trans h.insertOwed, hm.queue.writing.trans h.writing,
    by rw [hm.pushed, h.pushed, hm.queue.accepted]⟩

theorem AsyncioIdle.stable {s t : RouteRun} (h : AsyncioIdle s) (hm : WorkerMoves s t) :
    AsyncioIdle t :=
  ⟨h.settled.stable hm.queue, hm.queue.claimed.trans h.claimed, by
    rw [hm.seen, hm.queue.head, h.seen]⟩

/-- The rely–guarantee outline. -/
def outline : Outline Menu :=
  duo Inv WorkerMoves AsyncioMoves WorkerIdle AsyncioIdle .refl .trans .refl .trans
    (fun h hm _ => h.stable hm) (fun h hm _ => h.stable hm)

/-- The queue during a push. -/
theorem embeds_worker {n : ℕ} {P : Entry → Prop} (pushed : List Routed) :
    Embeds (outline.contract .worker) qLoc (producer n P) (·.pushed = pushed) where
  inv := fun s hs => hs.queue
  rely := fun s t hst hm _ => ⟨hm.queue, hm.pushed.trans hst⟩
  step := by
    intro s q hs hst hg hq
    have hmoves : WorkerMoves s (qLoc.set q s) := ⟨hg.moves, rfl⟩
    have hgrow : s.q.accepted <+: q.accepted := hg.moves.accepted
    exact ⟨hmoves, ⟨hq, hs.pushed.trans hgrow, hs.seen.trans hgrow⟩, hst⟩

/-- The queue during a call of the drain. -/
theorem embeds_asyncio {h : Option ℕ} (seen : List Entry) :
    Embeds (outline.contract .asyncio) qLoc (consumer h) (·.seen = seen) where
  inv := fun s hs => hs.queue
  rely := fun s t hst hm _ => ⟨hm.queue, hm.seen.trans hst⟩
  step := by
    intro s q hs hst hg hq
    have hmoves : AsyncioMoves s (qLoc.set q s) := ⟨hg.moves, rfl⟩
    have hsame : q.accepted = s.q.accepted := hg.moves.accepted
    refine ⟨hmoves, ⟨hq, ?_, ?_⟩, hst⟩
    · show s.pushed.map Routed.queues <+: q.accepted
      rw [hsame]
      exact hs.pushed
    · show s.seen <+: q.accepted
      rw [hsame]
      exact hs.seen

/-- Recording the push that has just put its entry in. -/
theorem record_spec {s t : RouteRun} {r : Routed} (hidle : WorkerIdle s)
    (hpushed : Pushed s.q (· = r.queues) t.q) (hsame : t.pushed = s.pushed) :
    wp (outline.contract .worker) (modify fun s => { s with pushed := s.pushed ++ [r] })
      (fun _ => WorkerIdle) t := by
  obtain ⟨e, rfl, hacc⟩ := hpushed.accepted
  refine wp_modify fun u htu hu => ?_
  have hrecord : (u.pushed ++ [r]).map Routed.queues = u.q.accepted := by
    rw [htu.queue.accepted, hacc, htu.pushed, hsame, List.map_append, hidle.pushed,
      List.map_singleton]
  refine ⟨⟨.refl _, rfl⟩, ⟨hu.queue, ?_, hu.seen⟩, ?_⟩
  · show (u.pushed ++ [r]).map Routed.queues <+: u.q.accepted
    rw [hrecord]
  · exact ⟨htu.queue.insertOwed.trans hpushed.insertOwed, htu.queue.writing.trans hpushed.writing,
      hrecord⟩

/-- A push keeps the outline. -/
theorem pushCall_spec {s : RouteRun} {entry : Entry} {data : List UInt8} (hs : Inv s)
    (hidle : WorkerIdle s) :
    wp (outline.contract .worker) (pushCall entry data) (fun _ => WorkerIdle) s := by
  unfold pushCall
  have hspec := pushOrOverflow_routes (q := s.q) (fun _ => True) entry data trivial trivial
    hidle.insertOwed hidle.writing
  refine wp_seq (wp_on (embeds_worker s.pushed) rfl hspec) hs fun rc t ht h => ?_
  obtain ⟨⟨rfl, hpushed⟩ | ⟨rfl, hpushed⟩, hsame⟩ := h
  · rw [if_pos rfl]
    exact record_spec hidle hpushed hsame
  · rw [if_neg (by decide), if_pos rfl]
    exact record_spec hidle hpushed hsame

/-- So does a round of the drain. -/
theorem popCall_spec {s : RouteRun} (hs : Inv s) (hidle : AsyncioIdle s) :
    wp (outline.contract .asyncio) popCall (fun _ => AsyncioIdle) s := by
  unfold popCall
  refine wp_seq (wp_on (embeds_asyncio (h := none) s.seen) rfl
    (peek_spec hs.queue hidle.settled hidle.claimed)) hs fun found t ht h => ?_
  obtain ⟨⟨hpeek, hfound⟩, hseen⟩ := h
  have hhead : t.q.ring.head = s.seen.length := by
    rw [show t.q.ring.head = s.q.ring.head from hpeek.head, hidle.seen]
  cases found with
  | none => exact ⟨hpeek.settled, hpeek.claimed.trans hidle.claimed, by rw [hseen, hhead]⟩
  | some e =>
    have hentry : t.q.accepted[s.seen.length]? = some e := by
      rw [hidle.seen]
      exact accepted_getElem? hfound
    refine wp_modify_bind fun u htu hu => ?_
    have hentry' := getElem?_of_isPrefix htu.queue.accepted hentry
    have huseen : u.seen = s.seen := htu.seen.trans hseen
    have hinv : Inv { u with seen := u.seen ++ [e] } :=
      ⟨hu.queue, hu.pushed, prefix_snoc hu.seen (by rw [huseen]; exact hentry')⟩
    refine ⟨⟨.refl _, rfl⟩, hinv, ?_⟩
    have hlt : u.q.ring.head < u.q.ring.tail := by
      have hslot : t.q.ring.log[s.q.ring.head]? = some e := hfound
      have hlen := (List.getElem?_eq_some_iff.1 (getElem?_of_isPrefix htu.queue.log hslot)).1
      rwa [hu.queue.ring.length, ← show t.q.ring.head = s.q.ring.head from hpeek.head,
        ← htu.queue.head] at hlen
    have hsettled : Settled u.q := hpeek.settled.stable htu.queue
    refine wp_mono (wp_on (embeds_asyncio (u.seen ++ [e])) rfl
      (RxQueue.pop_spec hu.queue hsettled hlt)) hinv fun _ v hv h => ?_
    obtain ⟨hpopped, hvseen⟩ := h
    have hvhead : v.q.ring.head = u.q.ring.head + 1 := hpopped.head
    refine ⟨hpopped.settled, hpopped.claimed, ?_⟩
    rw [hvseen, List.length_append, List.length_singleton, huseen, hvhead, htu.queue.head, hhead]

theorem refillCall_spec {s : RouteRun} (hs : Inv s) (hidle : AsyncioIdle s) :
    wp (outline.contract .asyncio) refillCall (fun _ => AsyncioIdle) s := by
  unfold refillCall
  refine wp_seq (wp_on (embeds_asyncio (h := none) s.seen) rfl (refill_spec hidle.settled)) hs
    fun _ t ht h => ?_
  obtain ⟨hr, hseen⟩ := h
  refine ⟨hr.settled, hr.claimed.trans hidle.claimed, ?_⟩
  rw [hseen, show t.q.ring.head = s.q.ring.head from hr.head, hidle.seen]

theorem init_inv (geo : Geometry) : Inv (init geo) :=
  ⟨create_inv geo, List.nil_prefix, List.nil_prefix⟩

theorem init_idle (geo : Geometry) (i : Thread) : outline.idle i (init geo) := by
  cases i with
  | worker => exact ⟨rfl, rfl, rfl⟩
  | asyncio => exact ⟨⟨rfl, rfl, rfl⟩, rfl, rfl⟩

theorem outline_sound : outline.Sound := by
  rintro i s p hs hidle hp
  cases hp with
  | push _ entry data => exact pushCall_spec hs hidle
  | pop => exact popCall_spec hs hidle
  | refill => exact refillCall_spec hs hidle

/-- The drain sees what the pushes put in, each push's entry in its place. -/
theorem seen_queues {geo : Geometry} {c : Config Thread RouteRun} (hc : Reachable Menu (init geo) c)
    {i : ℕ} {e : Entry} {r : Routed} (hseen : c.mem.seen[i]? = some e)
    (hpushed : c.mem.pushed[i]? = some r) : e = r.queues := by
  have h : Inv c.mem := (outline.reachable outline_sound (init_inv geo) (init_idle geo) hc).1
  have h₁ := getElem?_of_isPrefix h.seen hseen
  have h₂ : (c.mem.pushed.map Routed.queues)[i]? =
    some r.queues := by rw [List.getElem?_map, hpushed]; rfl
  exact Option.some.inj (h₁.symm.trans (getElem?_of_isPrefix h.pushed h₂))

/-! ## When the routes agree -/

/-- The drain sees the same entry for a push of `entry` and `data`, whichever way the push went and
whatever ran around it. -/
def Interchangeable (entry : Entry) (data : List UInt8) : Prop :=
  ∀ (geo geo' : Geometry) (c c' : Config Thread RouteRun),
    Reachable Menu (init geo) c → Reachable Menu (init geo') c' → ∀ (i i' : ℕ) (e e' : Entry),
    c.mem.pushed[i]? = some (Routed.mk entry data false) → c.mem.seen[i]? = some e →
    c'.mem.pushed[i']? = some (Routed.mk entry data true) → c'.mem.seen[i']? = some e' → e = e'

theorem slot_eq_node {entry : Entry} {data : List UInt8} (h : data ≠ [] ∨ entry.dataLength = 0) :
    slot entry data = node entry data := by
  unfold slot node
  by_cases hdata : data = []
  · have hlen := h.resolve_left (not_not.2 hdata)
    rw [if_neg (not_not.2 hdata), if_pos hdata, ← hlen]
  · rw [if_pos hdata, if_neg hdata, Entry.withData, if_neg hdata]

/-- A ring of one slot. -/
def oneSlot : Geometry := .ofExp 0 Geometry.exp_zero

/-- A push without a payload into an empty ring, and a round of the drain. -/
def ringRoute (entry : Entry) : RouteRun :=
  (popCall.exec ((pushCall entry []).exec (init oneSlot)).2).2

/-- A push behind another one, a round of the drain and a refill. -/
def overflowRefilled (entry : Entry) : RouteRun :=
  (refillCall.exec (popCall.exec
    ((pushCall entry []).exec ((pushCall {} []).exec (init oneSlot)).2).2).2).2

/-- The round of the drain that finds the second push. -/
def overflowRoute (entry : Entry) : RouteRun := (popCall.exec (overflowRefilled entry)).2

theorem ringRoute_reachable (entry : Entry) :
    Reachable Menu (init oneSlot) ⟨ringRoute entry, fun _ => .ret ()⟩ := by
  have h : Reachable Menu (init oneSlot) (Config.start (init oneSlot)) := .refl
  have hpush := h.exec (i := .worker) rfl (.push _ entry [])
  exact hpush.exec (i := .asyncio) rfl (.pop _)

theorem overflowRefilled_reachable (entry : Entry) :
    Reachable Menu (init oneSlot) ⟨overflowRefilled entry, fun _ => .ret ()⟩ := by
  have h : Reachable Menu (init oneSlot) (Config.start (init oneSlot)) := .refl
  have hfull := h.exec (i := .worker) rfl (.push _ {} [])
  have hpush := hfull.exec (i := .worker) rfl (.push _ entry [])
  have hpop := hpush.exec (i := .asyncio) rfl (.pop _)
  have hrefill := hpop.exec (i := .asyncio) rfl (.refill _)
  unfold overflowRefilled
  exact hrefill

theorem overflowRoute_reachable (entry : Entry) :
    Reachable Menu (init oneSlot) ⟨overflowRoute entry, fun _ => .ret ()⟩ := by
  have h := overflowRefilled_reachable entry
  rw [overflowRoute]
  generalize overflowRefilled entry = s at h
  exact h.exec (i := .asyncio) rfl (.pop _)

@[simp] theorem exec_on_qLoc {α : Type} (p : Prog RxQueue α) (s : RouteRun) :
    (p.on qLoc).exec s = ((p.exec s.q).1, { s with q := (p.exec s.q).2 }) :=
  Prog.exec_on qLoc (fun _ _ _ => rfl) (fun _ => rfl) p s

@[simp] theorem exec_on_ringLoc {α : Type} (p : Prog SpscRing α) (q : RxQueue) :
    (p.on ringLoc).exec q = ((p.exec q.ring).1, { q with ring := (p.exec q.ring).2 }) :=
  Prog.exec_on ringLoc (fun _ _ _ => rfl) (fun _ => rfl) p q

/-- A push without a payload: into a ring with room, or behind what waits. -/
theorem exec_pushOrOverflow (entry : Entry) (q : RxQueue) :
    (pushOrOverflow entry []).exec q =
      if q.ovf.depth = 0 ∧ diff64 q.ring.tail q.ring.head < q.ring.geo.capacity then
        (0, { q with ring := (q.ring.fill q.ring.tail entry).publish (q.ring.tail + 1) entry })
      else (1, (q.link (node entry [])).countIn.note (q.ovf.depth + 1)) := by
  have hover : (pushOverflow entry []).exec q =
      (1, (q.link (node entry [])).countIn.note (q.ovf.depth + 1)) := by
    simp [pushOverflow, Prog.exec_bind, link]
  by_cases hdepth : q.ovf.depth = 0
  · by_cases hroom : diff64 q.ring.tail q.ring.head < q.ring.geo.capacity
    · simp [pushOrOverflow, Prog.exec_bind, SpscRing.pushBorrowed, SpscRing.put, when,
        hdepth, hroom,
        not_le.2 hroom]
    · simp [pushOrOverflow, Prog.exec_bind, SpscRing.pushBorrowed, SpscRing.put, hdepth, hroom,
        not_lt.1 hroom, hover]
  · simp [pushOrOverflow, Prog.exec_bind, hdepth, hover]

theorem exec_peek (q : RxQueue) :
    peek.exec q = (if q.ring.tail ≤ q.ring.head then none
      else some (q.ring.entries (q.ring.head &&& q.ring.geo.mask)), q) := by
  rw [peek, exec_on_ringLoc]
  by_cases hempty : q.ring.tail ≤ q.ring.head <;> simp [SpscRing.peek, Prog.exec_bind, hempty]

theorem exec_pushCall (entry : Entry) (s : RouteRun) :
    (pushCall entry []).exec s =
      if s.q.ovf.depth = 0 ∧ diff64 s.q.ring.tail s.q.ring.head < s.q.ring.geo.capacity then
        ((), { s with
          q := { s.q with ring := (s.q.ring.fill s.q.ring.tail entry).publish (s.q.ring.tail + 1) entry }
          pushed := s.pushed ++ [⟨entry, [], false⟩] })
      else
        ((), { s with
          q := (s.q.link (node entry [])).countIn.note (s.q.ovf.depth + 1)
          pushed := s.pushed ++ [⟨entry, [], true⟩] }) := by
  rw [pushCall, Prog.exec_bind, exec_on_qLoc, exec_pushOrOverflow]
  split <;> rfl

theorem ringRoute_records (entry : Entry) :
    (ringRoute entry).pushed = [⟨entry, [], false⟩] ∧ (ringRoute entry).seen = [entry] := by
  have hempty : diff64 0 0 = 0 := by decide
  simp [ringRoute, exec_pushCall, init, RxQueue.create, SpscRing.create, oneSlot,
    Geometry.ofExp, hempty,
    popCall, exec_peek, SpscRing.fill, SpscRing.publish, Prog.exec_bind]

theorem overflowRefilled_records (entry : Entry) :
    (overflowRefilled entry).pushed = [⟨{}, [], false⟩, ⟨entry, [], true⟩] ∧
      (overflowRefilled entry).seen = [{}] ∧
      (peek.exec (overflowRefilled entry).q).1 = some (node entry []) := by
  have hempty : diff64 0 0 = 0 := by decide
  have hfull : diff64 1 0 = 1 := by decide
  have hroom : diff64 1 1 = 0 := by decide
  simp [overflowRefilled, exec_pushCall, init, RxQueue.create, SpscRing.create, oneSlot,
    Geometry.ofExp, hempty,
    hfull, hroom, popCall, exec_peek, SpscRing.fill, SpscRing.publish, Prog.exec_bind, link,
      countIn, note, pop,
    SpscRing.pop, when, SpscRing.advance, refillCall, refill, refillLoop, unlink, refillEntry,
      refillSlot, node,
    refillPublish, countOut, Entry.Frees]

theorem overflowRoute_records (entry : Entry) :
    (overflowRoute entry).pushed = [⟨{}, [], false⟩, ⟨entry, [], true⟩] ∧
      (overflowRoute entry).seen = [{}, node entry []] := by
  obtain ⟨hpushed, hseen, hpeek⟩ := overflowRefilled_records entry
  rw [overflowRoute]
  generalize overflowRefilled entry = s at hpushed hseen hpeek
  simp [popCall, Prog.exec_bind, hpeek, hpushed, hseen]

/-- The two runs show the drain the entry, and the entry without its length. -/
theorem Interchangeable.dataLength_eq {entry : Entry} (h : Interchangeable entry []) :
    entry.dataLength = 0 := by
  obtain ⟨hpushed, hseen⟩ := ringRoute_records entry
  obtain ⟨hpushed', hseen'⟩ := overflowRoute_records entry
  have hsame := h oneSlot oneSlot _ _ (ringRoute_reachable entry) (overflowRoute_reachable entry) 0
    1
    entry (node entry []) (by rw [hpushed]; rfl) (by rw [hseen]; rfl) (by rw [hpushed']; rfl)
    (by rw [hseen']; rfl)
  exact congrArg Entry.dataLength hsame

/-- The routes agree exactly on an event with a payload or without a length. -/
theorem interchangeable_iff (entry : Entry) (data : List UInt8) :
    Interchangeable entry data ↔ data ≠ [] ∨ entry.dataLength = 0 := by
  constructor
  · intro h
    by_cases hdata : data = []
    · subst hdata
      exact .inr h.dataLength_eq
    · exact .inl hdata
  · intro hwhen geo geo' c c' hc hc' i i' e e' hpushed hseen hpushed' hseen'
    rw [seen_queues hc hseen hpushed, seen_queues hc' hseen' hpushed']
    exact slot_eq_node hwhen

/-- A DATAGRAM_ACKED of 1200 bytes carries its length through the ring and loses it in the
overflow. -/
theorem datagramAcked_not_interchangeable :
    ¬ Interchangeable { eventType := .datagramAcked, streamId := 7, dataLength := 1200 } [] := by
  intro h
  exact absurd h.dataLength_eq (by decide)

end RouteRun

end Aiopquic
