import Aiopquic.SpscRing

/-!
# The RX event queue: ring plus overflow (`spsc_ring.h`)

The worker pushes events with `spsc_ring_push_or_overflow`: into the ring while it has room, else
into a locked list. The consumer pops from the ring and moves list entries back into it with
`spsc_ring_refill_from_overflow`. The list's `depth` counter decides who may write the ring: the
producer only at depth zero, the refill only above.

`accepted` puts the pieces together: the ring's log, the node a refill has in hand, and the list. A
push appends one entry to it in a single step, whichever way it goes, and nothing the consumer does
changes it.
-/

namespace Aiopquic

open Interleave Interleave.Prog Circular

/-- `spsc_overflow_t`: `list` is the chain from `head` to `tail`, which only changes under the
lock. -/
structure Overflow where
  list : List Entry
  depth : ℕ
  pushed : ℕ
  maxDepth : ℕ

/-- The ring and its overflow. The last five fields are section variables that no function reads. -/
structure RxQueue where
  ring : SpscRing
  ovf : Overflow
  /-- A refill has dereferenced an empty list, or did not end. -/
  fault : Bool
  /-- The node a refill has unlinked and not yet published. -/
  transit : Option Entry
  /-- A refill has written a slot and not yet published it. -/
  refilling : Bool
  /-- A refill has published an entry and not yet counted it off `depth`. -/
  refillOwed : Bool
  /-- The producer has linked a node and not yet counted it in `depth`. -/
  insertOwed : Bool

namespace RxQueue

/-- `spsc_ring_create` and `spsc_overflow_init`. -/
def create (geo : Geometry) : RxQueue where
  ring := .create geo
  ovf := ⟨[], 0, 0, 0⟩
  fault := false
  transit := none
  refilling := false
  refillOwed := false
  insertOwed := false

/-- The ring inside the queue. -/
def ringLoc : Loc RxQueue SpscRing where
  get := (·.ring)
  set := fun r q => { q with ring := r }
  get_set := fun _ _ => rfl

/-- The node that carries an entry through the overflow: it owns a copy of the payload, or keeps the
entry's pointer with a zero length. -/
def node (entry : Entry) (data : List UInt8) : Entry :=
  if data = [] then { entry with dataLength := 0 }
  else { entry with dataBuf := .owned data, dataLength := data.length }

/-- Linking a node at the end of the list, under the lock. -/
def link (q : RxQueue) (e : Entry) : RxQueue :=
  { q with ovf := { q.ovf with list := q.ovf.list ++ [e] }, insertOwed := true }

/-- The atomic increment of `depth` by the producer. -/
def countIn (q : RxQueue) : RxQueue :=
  { q with ovf := { q.ovf with depth := q.ovf.depth + 1 }, insertOwed := false }

/-- The producer's counters. -/
def note (q : RxQueue) (depth : ℕ) : RxQueue :=
  { q with ovf := { q.ovf with pushed := q.ovf.pushed + 1, maxDepth := max q.ovf.maxDepth depth } }

/-- The overflow half of `spsc_ring_push_or_overflow`. -/
def pushOverflow (entry : Entry) (data : List UInt8) : Prog RxQueue ℤ := do
  modify (·.link (node entry data))
  let depth ← rmw countIn fun q => q.ovf.depth + 1
  modify (·.note depth)
  pure 1

/-- `spsc_ring_push_or_overflow`; `data` empty stands for `NULL`. Returns `0` for the ring and `1`
for the overflow; allocation succeeds. -/
def pushOrOverflow (entry : Entry) (data : List UInt8) : Prog RxQueue ℤ := do
  let depth ← load (·.ovf.depth)
  let rc ← (if depth = 0 then
      (if data ≠ [] then SpscRing.push entry data else SpscRing.pushBorrowed entry).on ringLoc
    else pure (-1))
  if rc = 0 then pure 0 else pushOverflow entry data

/-- Unlinking the first node, under the lock. On an empty list the source dereferences `NULL`. -/
def unlink (q : RxQueue) : RxQueue :=
  match q.ovf.list with
  | [] => { q with fault := true }
  | e :: rest => { q with ovf := { q.ovf with list := rest }, transit := some e }

/-- The refill's write of a slot. -/
def refillSlot (q : RxQueue) (tail : ℕ) (e : Entry) : RxQueue :=
  { q with
    ring := { q.ring with entries := Function.update q.ring.entries (tail &&& q.ring.geo.mask) e }
    refilling := true }

/-- The refill's tail store. -/
def refillPublish (q : RxQueue) (tail : ℕ) (e : Entry) : RxQueue :=
  { q with
    ring := { q.ring with tail := tail, log := q.ring.log ++ [e] }
    transit := none
    refilling := false
    refillOwed := true }

/-- The atomic decrement of `depth` by the refill. -/
def countOut (q : RxQueue) : RxQueue :=
  { q with ovf := { q.ovf with depth := q.ovf.depth - 1 }, refillOwed := false }

/-- The refill's count of a payload it moves. -/
def countBytes (q : RxQueue) (n : ℕ) : RxQueue :=
  { q with ring := { q.ring with bytesPending := q.ring.bytesPending + n } }

/-- The rest of a refill round, once the node `e` is unlinked. -/
def refillEntry (tail : ℕ) (e : Entry) : Prog RxQueue Unit := do
  modify (·.refillSlot tail e)
  when (0 < e.dataLength) <| modify (·.countBytes e.dataLength)
  modify (·.refillPublish (tail + 1) e)
  modify countOut

/-- The loop of `spsc_ring_refill_from_overflow`, for at most `fuel` rounds. -/
def refillLoop : ℕ → ℕ → Prog RxQueue ℕ
  | 0, moved => do
    modify fun q => { q with fault := true }
    pure moved
  | fuel + 1, moved => do
    let depth ← load (·.ovf.depth)
    if depth = 0 then pure moved
    else do
      let (tail, geo) ← load fun q => (q.ring.tail, q.ring.geo)
      let head ← load (·.ring.head)
      if geo.capacity ≤ diff64 tail head then pure moved
      else do
        let first ← rmw unlink (·.ovf.list.head?)
        match first with
        | none => pure moved
        | some e => do
          refillEntry tail e
          refillLoop fuel (moved + 1)

/-- `spsc_ring_refill_from_overflow`. Only the caller advances the head, so the loop moves at most a
ring full; `fault` records that the rounds did not suffice. -/
def refill : Prog RxQueue ℕ := do
  let capacity ← load (·.ring.geo.capacity)
  refillLoop (capacity + 1) 0

/-- `spsc_ring_peek` on the queue's ring. -/
def peek : Prog RxQueue (Option Entry) := SpscRing.peek.on ringLoc

/-- `spsc_ring_take_data` on the queue's ring. -/
def takeData (e : Entry) : Prog RxQueue Unit := (SpscRing.takeData e).on ringLoc

/-- `spsc_ring_pop` on the queue's ring. -/
def pop : Prog RxQueue Unit := SpscRing.pop.on ringLoc

/-- `spsc_ring_count` on the queue's ring. -/
def count : Prog RxQueue ℕ := SpscRing.count.on ringLoc

/-! ## What the queue holds -/

/-- Every entry a push has put into the queue, in push order. -/
def accepted (q : RxQueue) : List Entry := q.ring.log ++ q.transit.toList ++ q.ovf.list

/-- The entries put in and not yet popped. -/
def queued (q : RxQueue) : List Entry := q.accepted.drop q.ring.head

/-- The invariant of the hand-over between ring and overflow. -/
structure Inv (q : RxQueue) : Prop where
  ring : q.ring.Wf
  depth : q.ovf.depth + q.insertOwed.toNat =
    q.ovf.list.length + q.transit.toList.length + q.refillOwed.toNat
  writing : q.ring.writing → q.ovf.depth = 0 ∧ q.insertOwed = false
  transit : q.transit ≠ none → 0 < q.ovf.depth
  owed : q.refillOwed → 0 < q.ovf.depth
  refilling : q.refilling → q.transit ≠ none ∧ q.ring.tail < q.ring.head + q.ring.geo.capacity
  fault : q.fault = false

theorem create_inv (geo : Geometry) : (create geo).Inv :=
  ⟨SpscRing.create_wf geo, rfl, by simp [create, SpscRing.create], by simp [create],
    by simp [create], by simp [create], rfl⟩

/-- At depth zero with nothing uncounted, everything is in the ring. -/
theorem Inv.accepted_eq {q : RxQueue} (hq : q.Inv) (hd : q.ovf.depth = 0)
    (hi : q.insertOwed = false) : q.ovf.list = [] ∧ q.transit = none ∧ q.accepted = q.ring.log := by
  have h := hq.depth
  rw [hd, hi] at h
  simp only [Bool.toNat_false] at h
  have hl : q.ovf.list = [] := List.length_eq_zero_iff.1 (by omega)
  have ht : q.transit = none := by
    by_contra hne
    have := hq.transit hne
    omega
  exact ⟨hl, ht, by simp [accepted, hl, ht]⟩

theorem accepted_getElem? {q : RxQueue} {i : ℕ} {e : Entry} (h : q.ring.log[i]? = some e) :
    q.accepted[i]? = some e := by
  have hlt : i < q.ring.log.length := (List.getElem?_eq_some_iff.1 h).1
  rw [accepted, List.append_assoc, List.getElem?_append_left hlt]
  exact h

/-- What two pushes of one event agree on, whichever way they went. -/
structure EventView where
  eventType : EventType
  streamId : ℕ
  cnx : ℕ
  streamCtx : ℕ
  errorCode : ℕ
  isFin : ℕ
  payload : List UInt8
  deriving DecidableEq, Repr

/-- The event a queued entry stands for. -/
def view (e : Entry) : EventView :=
  ⟨e.eventType, e.streamId, e.cnx, e.streamCtx, e.errorCode, e.isFin, e.payload⟩

/-- The event a push is given. -/
def pushedView (entry : Entry) (data : List UInt8) : EventView :=
  { view entry with payload := if data = [] then entry.payload else data }

theorem view_node (entry : Entry) (data : List UInt8) :
    view (node entry data) = pushedView entry data := by
  unfold node pushedView
  split <;> rfl

theorem view_withData {entry : Entry} {data : List UInt8} (h : data ≠ []) :
    view (entry.withData data) = pushedView entry data := by
  simp [view, pushedView, Entry.withData, Entry.payload, h]

/-! ## The two sides -/

/-- What the producer sees of the consumer. While the producer owns the ring, the consumer only pops
from it. -/
structure ConsumerMoves (q q' : RxQueue) : Prop where
  geo : q'.ring.geo = q.ring.geo
  accepted : q'.accepted = q.accepted
  head_le : q.ring.head ≤ q'.ring.head
  depth_le : q'.ovf.depth ≤ q.ovf.depth
  insertOwed : q'.insertOwed = q.insertOwed
  writing : q'.ring.writing = q.ring.writing
  ring : q.ovf.depth = 0 → q.insertOwed = false → SpscRing.ConsumerMoves q.ring q'.ring

/-- What the consumer sees of the producer. While the depth is above zero, the producer stays off
the ring. -/
structure ProducerMoves (q q' : RxQueue) : Prop where
  geo : q'.ring.geo = q.ring.geo
  head : q'.ring.head = q.ring.head
  claimed : q'.ring.claimed = q.ring.claimed
  transit : q'.transit = q.transit
  refilling : q'.refilling = q.refilling
  refillOwed : q'.refillOwed = q.refillOwed
  log : q.ring.log <+: q'.ring.log
  list : q.ovf.list <+: q'.ovf.list
  accepted : q.accepted <+: q'.accepted
  depth_le : q.ovf.depth ≤ q'.ovf.depth
  ring : 0 < q.ovf.depth → q'.ring.tail = q.ring.tail ∧ q'.ring.log = q.ring.log ∧
    q'.ring.entries = q.ring.entries

theorem ConsumerMoves.refl (q : RxQueue) : ConsumerMoves q q :=
  ⟨rfl, rfl, le_rfl, le_rfl, rfl, rfl, fun _ _ => .refl _⟩

theorem ConsumerMoves.trans {q r s : RxQueue} (h : ConsumerMoves q r) (h' : ConsumerMoves r s) :
    ConsumerMoves q s := by
  refine ⟨h'.geo.trans h.geo, h'.accepted.trans h.accepted, h.head_le.trans h'.head_le,
    h'.depth_le.trans h.depth_le, h'.insertOwed.trans h.insertOwed, h'.writing.trans h.writing,
    fun hd hi => ?_⟩
  have := h.depth_le
  exact (h.ring hd hi).trans (h'.ring (by omega) (h.insertOwed.trans hi))

theorem ProducerMoves.refl (q : RxQueue) : ProducerMoves q q :=
  ⟨rfl, rfl, rfl, rfl, rfl, rfl, List.prefix_rfl, List.prefix_rfl, List.prefix_rfl, le_rfl,
    fun _ => ⟨rfl, rfl, rfl⟩⟩

theorem ProducerMoves.trans {q r s : RxQueue} (h : ProducerMoves q r) (h' : ProducerMoves r s) :
    ProducerMoves q s := by
  refine ⟨h'.geo.trans h.geo, h'.head.trans h.head, h'.claimed.trans h.claimed,
    h'.transit.trans h.transit, h'.refilling.trans h.refilling, h'.refillOwed.trans h.refillOwed,
    h.log.trans h'.log, h.list.trans h'.list, h.accepted.trans h'.accepted,
    h.depth_le.trans h'.depth_le, fun hd => ?_⟩
  obtain ⟨ht, hl, he⟩ := h.ring hd
  obtain ⟨ht', hl', he'⟩ := h'.ring (hd.trans_le h.depth_le)
  exact ⟨ht'.trans ht, hl'.trans hl, he'.trans he⟩

/-- One action of a producer that may put one entry with `P` into the queue, as number `n`. -/
structure ProducerStep (n : ℕ) (P : Entry → Prop) (q q' : RxQueue) : Prop where
  moves : ProducerMoves q q'
  accepted : q'.accepted = q.accepted ∨
    q.accepted.length = n ∧ ∃ e, P e ∧ q'.accepted = q.accepted ++ [e]
  insertOwed : q'.insertOwed = q.insertOwed ∨ q'.insertOwed = false ∨ n < q'.accepted.length

/-- One action of a consumer that may pop entry number `h`. -/
structure ConsumerStep (h : Option ℕ) (q q' : RxQueue) : Prop where
  moves : ConsumerMoves q q'
  head : q'.ring.head = q.ring.head ∨ h = some q.ring.head ∧ q'.ring.head = q.ring.head + 1

/-- The contract of a producer that puts one entry with `P` into the queue, as number `n`. -/
def producer (n : ℕ) (P : Entry → Prop) : Contract RxQueue where
  inv := Inv
  rely := ConsumerMoves
  guar := ProducerStep n P
  rely_refl := .refl
  rely_trans := .trans
  guar_refl := fun q => ⟨.refl q, .inl rfl, .inl rfl⟩

/-- The contract of a consumer that pops entry number `h`, or none. -/
def consumer (h : Option ℕ) : Contract RxQueue where
  inv := Inv
  rely := ProducerMoves
  guar := ConsumerStep h
  rely_refl := .refl
  rely_trans := .trans
  guar_refl := fun q => ⟨.refl q, .inl rfl⟩

/-- The ring under a producer that found depth zero. -/
theorem embeds_producer {n : ℕ} {P : Entry → Prop} {e : Entry} (he : P e) :
    Embeds (producer n P) ringLoc (SpscRing.producer n e)
      (fun q => q.ovf.depth = 0 ∧ q.insertOwed = false) where
  inv := fun q hq => hq.ring
  rely := by
    rintro q q' ⟨hd, hi⟩ hm -
    have := hm.depth_le
    exact ⟨hm.ring hd hi, by omega, hm.insertOwed.trans hi⟩
  step := by
    rintro q r hq ⟨hd, hi⟩ hs hr
    obtain ⟨hl, ht, hacc⟩ := hq.accepted_eq hd hi
    have hmoves := hs.moves
    have hr' : r.Wf := hr
    have hmv : ProducerMoves q (ringLoc.set r q) := by
      refine ⟨hmoves.geo, hmoves.head, hmoves.claimed, rfl, rfl, rfl, hmoves.log,
        List.prefix_rfl, ?_, le_rfl, fun hpos => ?_⟩
      · simpa [RxQueue.accepted, ringLoc, ht, hl] using hmoves.log
      · omega
    refine ⟨⟨hmv, ?_, .inl rfl⟩, ?_, hd, hi⟩
    · cases hs with
      | stay => exact .inl rfl
      | slot h => exact .inl rfl
      | count k => exact .inl rfl
      | publish h =>
        refine .inr ⟨by rw [hacc, hq.ring.length]; exact h, e, he, ?_⟩
        simp [RxQueue.accepted, ringLoc, ht, hl, SpscRing.publish]
    · exact ⟨hr', hq.depth, fun _ => ⟨hd, hi⟩, hq.transit, hq.owed,
        fun hrf => absurd ht (hq.refilling hrf).1, hq.fault⟩

/-- The consumer has no refill round under way. -/
structure Settled (q : RxQueue) : Prop where
  transit : q.transit = none
  refilling : q.refilling = false
  refillOwed : q.refillOwed = false

theorem Settled.stable {q r : RxQueue} (h : Settled q) (hm : ProducerMoves q r) : Settled r :=
  ⟨hm.transit.trans h.transit, hm.refilling.trans h.refilling, hm.refillOwed.trans h.refillOwed⟩

/-- Outside a refill and a pop, what is queued stands in the ring's slots and in the list. -/
theorem Inv.queued_eq {q : RxQueue} (hq : q.Inv) (hs : Settled q) (hc : q.ring.claimed = false) :
    q.queued = q.ring.contents ++ q.ovf.list := by
  have hle : q.ring.head ≤ q.ring.log.length := by
    rw [hq.ring.length]
    exact hq.ring.head_le
  rw [queued, accepted, hs.transit, Option.toList_none, List.append_nil, hq.ring.contents_eq hc,
    SpscRing.queued, List.drop_append_of_le_length hle]

/-- The ring under a consumer that is not in the middle of a refill. -/
theorem embeds_consumer {h : Option ℕ} {before : List Entry} {depth : ℕ} :
    Embeds (consumer h) ringLoc (SpscRing.consumer h)
      (fun q => Settled q ∧ before <+: q.accepted ∧ depth ≤ q.ovf.depth) where
  inv := fun q hq => hq.ring
  rely := fun q q' hF hm _ =>
    ⟨⟨hm.geo, hm.head, hm.claimed, hm.log⟩, hF.1.stable hm, hF.2.1.trans hm.accepted,
      hF.2.2.trans hm.depth_le⟩
  step := by
    rintro q r hq ⟨hset, hacc, hdepth⟩ hs hr
    have hmoves := hs.moves
    have hlog : (ringLoc.set r q).accepted = q.accepted := by
      simp [RxQueue.accepted, ringLoc, hmoves.log]
    refine ⟨⟨⟨hmoves.geo, hlog, hmoves.head_le, le_rfl, rfl, hmoves.writing, fun _ _ => hmoves⟩,
      ?_⟩,
      ⟨hr, hq.depth, fun hw => hq.writing (hmoves.writing ▸ hw), hq.transit, hq.owed, ?_, hq.fault⟩,
      ⟨hset.transit, hset.refilling, hset.refillOwed⟩, hlog ▸ hacc, hdepth⟩
    · cases hs with
      | stay => exact .inl rfl
      | count k => exact .inl rfl
      | claim e hlt => exact .inl rfl
      | advance hh hlt => exact .inr ⟨hh, rfl⟩
    · exact fun hrf => absurd (hset.refilling.symm.trans hrf) (by simp)

/-! ## Specifications -/

/-- From `q` the producer has put an entry with `P` into the queue and is out of it. -/
structure Pushed (q : RxQueue) (P : Entry → Prop) (q' : RxQueue) : Prop where
  accepted : ∃ e, P e ∧ q'.accepted = q.accepted ++ [e]
  insertOwed : q'.insertOwed = false
  writing : q'.ring.writing = false

theorem Pushed.mono {q q' : RxQueue} {P P' : Entry → Prop} (h : Pushed q P q')
    (hP : ∀ e, P e → P' e) :
    Pushed q P' q' :=
  ⟨h.accepted.imp fun e he => ⟨hP e he.1, he.2⟩, h.insertOwed, h.writing⟩

/-- The overflow half of a push. -/
theorem pushOverflow_spec {q r : RxQueue} {P : Entry → Prop} {entry : Entry} {data : List UInt8}
    (hP : P (node entry data)) (hacc : r.accepted = q.accepted) (hi : r.insertOwed = false)
    (hw : r.ring.writing = false) :
    wp (producer q.accepted.length P) (pushOverflow entry data)
      (fun rc q' => rc = 1 ∧ Pushed q (· = node entry data) q') r := by
  unfold pushOverflow
  generalize node entry data = e at hP
  refine wp_modify_bind fun s hrs hs => ?_
  have hacc' : (s.link e).accepted = s.accepted ++ [e] := by
    simp [RxQueue.accepted, link]
  have hi' := hrs.insertOwed.trans hi
  have hw' := hrs.writing.trans hw
  have hdep := hs.depth
  rw [hi', Bool.toNat_false] at hdep
  refine ⟨⟨?_, .inr ⟨by rw [hrs.accepted, hacc], e, hP, hacc'⟩, .inr (.inr ?_)⟩, ?_, ?_⟩
  · exact ⟨rfl, rfl, rfl, rfl, rfl, rfl, List.prefix_rfl, List.prefix_append _ _,
      by rw [hacc']; exact List.prefix_append _ _, le_rfl, fun _ => ⟨rfl, rfl, rfl⟩⟩
  · rw [hacc', hrs.accepted, hacc]
    simp
  · refine ⟨hs.ring, ?_, fun h => absurd (hw'.symm.trans h) (by simp), hs.transit, hs.owed,
      hs.refilling, hs.fault⟩
    simp only [link, List.length_append, List.length_singleton, Bool.toNat_true]
    omega
  refine wp_rmw_bind fun t hst ht => ?_
  have hacct : t.accepted = q.accepted ++ [e] := by
    rw [hst.accepted, hacc', hrs.accepted, hacc]
  have hit : t.insertOwed = true := hst.insertOwed
  have hwt : t.ring.writing = false := hst.writing.trans hw'
  have hdt := ht.depth
  rw [hit, Bool.toNat_true] at hdt
  refine ⟨⟨?_, .inl rfl, .inr (.inl rfl)⟩, ?_, ?_⟩
  · exact ⟨rfl, rfl, rfl, rfl, rfl, rfl, List.prefix_rfl, List.prefix_rfl, List.prefix_rfl,
      Nat.le_succ _, fun _ => ⟨rfl, rfl, rfl⟩⟩
  · refine ⟨ht.ring, ?_, fun h => absurd (hwt.symm.trans h) (by simp), fun _ => Nat.succ_pos _,
      fun _ => Nat.succ_pos _, ht.refilling, ht.fault⟩
    simpa [countIn] using hdt
  refine wp_modify_bind fun u htu hu => ⟨⟨?_, .inl rfl, .inl rfl⟩, ?_, rfl, ⟨e, rfl, ?_⟩, ?_, ?_⟩
  · exact ⟨rfl, rfl, rfl, rfl, rfl, rfl, List.prefix_rfl, List.prefix_rfl, List.prefix_rfl, le_rfl,
      fun _ => ⟨rfl, rfl, rfl⟩⟩
  · exact ⟨hu.ring, hu.depth, hu.writing, hu.transit, hu.owed, hu.refilling, hu.fault⟩
  · exact htu.accepted.trans hacct
  · exact htu.insertOwed
  · exact htu.writing.trans hwt

/-- The slot that a push through the ring fills. -/
def slot (entry : Entry) (data : List UInt8) : Entry :=
  if data ≠ [] then entry.withData data else entry

theorem view_slot (entry : Entry) (data : List UInt8) :
    view (slot entry data) = pushedView entry data := by
  unfold slot
  split
  · exact view_withData ‹_›
  · rename_i hdata
    simp [pushedView, view, not_not.1 hdata]

/-- A push goes one of two ways, and its result says which: `0` for the slot, `1` for the node. -/
theorem pushOrOverflow_routes {q : RxQueue} (P : Entry → Prop) (entry : Entry) (data : List UInt8)
    (hslot : P (slot entry data)) (hnode : P (node entry data))
    (hi : q.insertOwed = false) (hw : q.ring.writing = false) :
    wp (producer q.accepted.length P) (pushOrOverflow entry data)
      (fun rc q' => rc = 0 ∧ Pushed q (· = slot entry data) q' ∨
        rc = 1 ∧ Pushed q (· = node entry data) q') q := by
  unfold pushOrOverflow
  refine wp_load_bind fun r hqr hr => ?_
  have hir := hqr.insertOwed.trans hi
  have hwr := hqr.writing.trans hw
  split
  · rename_i hdepth
    obtain ⟨hl, ht, hacc⟩ := hr.accepted_eq hdepth hir
    -- the ring half: `put` of the slot for this entry
    obtain ⟨counted, hput⟩ : ∃ counted,
        (if data ≠ [] then SpscRing.push entry data else SpscRing.pushBorrowed entry) =
          SpscRing.put (slot entry data) counted := by
      unfold slot
      split
      · exact ⟨_, rfl⟩
      · exact ⟨0, rfl⟩
    have htail : r.ring.tail = q.accepted.length := by
      rw [← hqr.accepted, hacc, hr.ring.length]
    have hspec := wp_on (embeds_producer (n := r.ring.tail) hslot) (s := r) ⟨hdepth, hir⟩
      (SpscRing.put_spec (k := counted) hr.ring)
    rw [htail] at hspec
    rw [hput]
    refine wp_seq hspec hr fun rc s hs h => ?_
    obtain ⟨⟨hrc, hput⟩ | ⟨hrc, hmv, -⟩, hsd, hsi⟩ := h
    · obtain ⟨-, -, hacc'⟩ := hs.accepted_eq hsd hsi
      rw [if_pos hrc]
      refine .inl ⟨rfl, ⟨_, rfl, ?_⟩, hsi, hput.writing⟩
      rw [hacc', show s.ring.log = r.ring.log ++ [slot entry data] from hput.log, ← hacc,
        hqr.accepted]
    · obtain ⟨-, -, hacc'⟩ := hs.accepted_eq hsd hsi
      rw [if_neg (by rw [hrc]; decide)]
      refine wp_mono (pushOverflow_spec hnode ?_ hsi (hmv.writing.trans hwr)) hs fun _ _ _ => .inr
      rw [hacc', show s.ring.log = r.ring.log from hmv.log, ← hacc, hqr.accepted]
  · show wp _ (if (-1 : ℤ) = 0 then pure 0 else pushOverflow entry data) _ r
    rw [if_neg (by decide)]
    exact wp_mono (pushOverflow_spec hnode hqr.accepted hir hwr) hr fun _ _ _ => .inr

/-- `pushOrOverflow` puts the event into the queue, whatever the consumer does meanwhile. -/
theorem pushOrOverflow_spec {q : RxQueue} (P : Entry → Prop) (entry : Entry) (data : List UInt8)
    (hslot : P (slot entry data)) (hnode : P (node entry data)) (hq : q.Inv)
    (hi : q.insertOwed = false) (hw : q.ring.writing = false) :
    wp (producer q.accepted.length P) (pushOrOverflow entry data)
      (fun rc q' => (rc = 0 ∨ rc = 1) ∧ Pushed q P q') q := by
  refine wp_mono (pushOrOverflow_routes P entry data hslot hnode hi hw) hq fun rc q' _ h => ?_
  rcases h with ⟨hrc, hpushed⟩ | ⟨hrc, hpushed⟩
  · exact ⟨.inl hrc, hpushed.mono fun e he => he ▸ hslot⟩
  · exact ⟨.inr hrc, hpushed.mono fun e he => he ▸ hnode⟩

/-- What a refill leaves of `q`. -/
structure Refilled (q q' : RxQueue) : Prop where
  settled : Settled q'
  geo : q'.ring.geo = q.ring.geo
  head : q'.ring.head = q.ring.head
  claimed : q'.ring.claimed = q.ring.claimed
  accepted : q.accepted <+: q'.accepted
  log : q.ring.log <+: q'.ring.log

theorem Refilled.of_moves {q r : RxQueue} (h : Settled q) (hm : ProducerMoves q r) : Refilled q r :=
  ⟨h.stable hm, hm.geo, hm.head, hm.claimed, hm.accepted, hm.log⟩

theorem Refilled.trans {q r s : RxQueue} (h : Refilled q r) (h' : Refilled r s) : Refilled q s :=
  ⟨h'.settled, h'.geo.trans h.geo, h'.head.trans h.head, h'.claimed.trans h.claimed,
    h.accepted.trans h'.accepted, h.log.trans h'.log⟩

/-- Above depth zero no producer writes the ring. -/
theorem Inv.not_writing {q : RxQueue} (hq : q.Inv) (hd : 0 < q.ovf.depth) :
    q.ring.writing = false := by
  by_contra hw
  have := (hq.writing (by simpa using hw)).1
  omega

/-- The consumer's state between the slot write and the tail store of a refill round. -/
structure Refilling (q : RxQueue) (e : Entry) (s : RxQueue) : Prop where
  transit : s.transit = some e
  refillOwed : s.refillOwed = false
  depth : 0 < s.ovf.depth
  tail : s.ring.tail = q.ring.tail
  head : s.ring.head = q.ring.head
  geo : s.ring.geo = q.ring.geo
  claimed : s.ring.claimed = q.ring.claimed
  log : s.ring.log = q.ring.log
  slot : s.ring.entries (q.ring.tail % q.ring.geo.capacity) = e
  accepted : q.accepted <+: s.accepted

theorem Refilling.stable {q s t : RxQueue} {e : Entry} (h : Refilling q e s)
    (hm : ProducerMoves s t) : Refilling q e t := by
  obtain ⟨htail, hlog, hent⟩ := hm.ring h.depth
  refine ⟨hm.transit.trans h.transit, hm.refillOwed.trans h.refillOwed,
    h.depth.trans_le hm.depth_le,
    htail.trans h.tail, hm.head.trans h.head, hm.geo.trans h.geo, hm.claimed.trans h.claimed,
    hlog.trans h.log, ?_, h.accepted.trans hm.accepted⟩
  rw [hent]
  exact h.slot

/-- The tail store and the decrement that end a refill round. -/
theorem refillPublish_spec {q s : RxQueue} {e : Entry} (h : Refilling q e s)
    (hroom : q.ring.tail < q.ring.head + q.ring.geo.capacity) :
    wp (consumer none) (do modify (·.refillPublish (q.ring.tail + 1) e); modify countOut)
      (fun _ q' => Refilled q q' ∧ q'.ring.tail = q.ring.tail + 1) s := by
  refine wp_modify_bind fun t hst ht => ?_
  have hs := h.stable hst
  have hroomt : t.ring.tail < t.ring.head + t.ring.geo.capacity := by
    rw [hs.tail, hs.head, hs.geo]
    exact hroom
  have hacc : (t.refillPublish (q.ring.tail + 1) e).accepted = t.accepted := by
    simp [RxQueue.accepted, refillPublish, hs.transit]
  have hdep := ht.depth
  rw [hs.transit, hs.refillOwed] at hdep
  have hslot : t.ring.entries (t.ring.tail % t.ring.geo.capacity) = e := by
    rw [hs.tail, hs.geo]
    exact hs.slot
  have hwin := ht.ring.window_publish hroomt hslot
  refine ⟨⟨?_, .inl rfl⟩, ?_, ?_⟩
  · exact ⟨rfl, hacc, le_rfl, le_rfl, rfl, rfl, fun hd _ => absurd hd hs.depth.ne'⟩
  · rw [← hs.tail]
    refine ⟨⟨hwin, by simp [refillPublish, ht.ring.length], hroomt, fun hw => ?_⟩, ?_, ht.writing,
      fun hne => absurd rfl hne, fun _ => hs.depth, fun hr => absurd hr (by simp [refillPublish]),
      ht.fault⟩
    · exact absurd ((ht.not_writing hs.depth).symm.trans hw) (by simp)
    · simpa [refillPublish] using hdep
  refine wp_modify fun u htu hu => ?_
  have hdu : 0 < u.ovf.depth := hs.depth.trans_le htu.depth_le
  have howed : u.refillOwed = true := htu.refillOwed
  have htr : u.transit = none := htu.transit
  have hdepu := hu.depth
  rw [htr, howed] at hdepu
  obtain ⟨htl, hlog, -⟩ := htu.ring hs.depth
  refine ⟨⟨?_, .inl rfl⟩, ?_, ⟨⟨htr, ?_, rfl⟩, ?_, ?_, ?_, ?_, ?_⟩, htl⟩
  · exact ⟨rfl, rfl, le_rfl, Nat.sub_le _ _, rfl, rfl, fun hd _ => absurd hd hdu.ne'⟩
  · refine ⟨hu.ring, ?_, fun hw => ?_, fun hne => absurd htr hne, fun h =>
      absurd h (by simp [countOut]),
      fun hr => absurd htr (hu.refilling hr).1, hu.fault⟩
    · simp only [countOut, htr, Option.toList_none, List.length_nil, Bool.toNat_false,
        Bool.toNat_true] at hdepu ⊢
      omega
    · exact absurd ((hu.not_writing hdu).symm.trans hw) (by simp)
  · exact htu.refilling
  · exact htu.geo.trans hs.geo
  · exact htu.head.trans hs.head
  · exact htu.claimed.trans hs.claimed
  · exact hs.accepted.trans (hacc ▸ htu.accepted)
  · rw [show countOut u = { u with ovf := _, refillOwed := false } from rfl]
    dsimp only
    rw [hlog]
    exact hs.log ▸ List.prefix_append _ _

/-- The rest of a refill round keeps the queue's contents and moves `e` into the ring. -/
theorem refillEntry_spec {q : RxQueue} {e : Entry} (hq : q.Inv) (ht : q.transit = some e)
    (ho : q.refillOwed = false) (hroom : q.ring.tail < q.ring.head + q.ring.geo.capacity) :
    wp (consumer none) (refillEntry q.ring.tail e)
      (fun _ q' => Refilled q q' ∧ q'.ring.tail = q.ring.tail + 1) q := by
  have hpos : 0 < q.ovf.depth := hq.transit (by simp [ht])
  unfold refillEntry
  refine wp_modify_bind fun r hqr hr => ?_
  obtain ⟨htail, hlog, -⟩ := hqr.ring hpos
  have hposr : 0 < r.ovf.depth := hpos.trans_le hqr.depth_le
  have hroomr : r.ring.tail < r.ring.head + r.ring.geo.capacity := by
    rw [htail, hqr.head, hqr.geo]
    exact hroom
  have hfilled : Refilling q e (r.refillSlot q.ring.tail e) := by
    refine ⟨hqr.transit.trans ht, hqr.refillOwed.trans ho, hposr, htail, hqr.head, hqr.geo,
      hqr.claimed, hlog, ?_, hqr.accepted⟩
    rw [← hqr.geo]
    simp [refillSlot, r.ring.geo.and_mask]
  refine ⟨⟨?_, .inl rfl⟩, ?_, wp_when_bind (fun _ => ?_)
    (fun _ => refillPublish_spec hfilled hroom)⟩
  · exact ⟨rfl, rfl, le_rfl, le_rfl, rfl, rfl, fun hd _ => absurd hd hposr.ne'⟩
  · rw [← htail]
    exact ⟨⟨hr.ring.update_tail hroomr e, hr.ring.length, hr.ring.tail_le, hr.ring.room⟩, hr.depth,
      hr.writing, hr.transit, hr.owed, fun _ => ⟨by simp [refillSlot, hqr.transit, ht], hroomr⟩,
        hr.fault⟩
  · refine wp_modify_bind fun s hrs hs => ?_
    have hs' := hfilled.stable hrs
    refine ⟨⟨?_, .inl rfl⟩, ?_, refillPublish_spec ?_ hroom⟩
    · exact ⟨rfl, rfl, le_rfl, le_rfl, rfl, rfl, fun hd _ => absurd hd hs'.depth.ne'⟩
    · exact ⟨⟨hs.ring.window, hs.ring.length, hs.ring.tail_le, hs.ring.room⟩, hs.depth, hs.writing,
        hs.transit, hs.owed, hs.refilling, hs.fault⟩
    · exact ⟨hs'.transit, hs'.refillOwed, hs'.depth, hs'.tail, hs'.head, hs'.geo, hs'.claimed,
        hs'.log, hs'.slot, hs'.accepted⟩

theorem refillLoop_spec {fuel moved : ℕ} {q : RxQueue} (hq : q.Inv) (hs : Settled q)
    (hfuel : q.ring.head + q.ring.geo.capacity + 1 ≤ q.ring.tail + fuel) :
    wp (consumer none) (refillLoop fuel moved) (fun _ => Refilled q) q := by
  induction fuel generalizing q moved with
  | zero =>
    -- a full ring's worth of rounds is enough: this round cannot happen
    refine wp_modify_bind fun r hqr hr => ?_
    have hlen := hqr.log.length_le
    rw [hq.ring.length, hr.ring.length] at hlen
    have := hr.ring.tail_le
    rw [hqr.head, hqr.geo] at this
    omega
  | succ fuel ih =>
    unfold refillLoop
    refine wp_load_bind fun r hqr hr => ?_
    split
    · exact .of_moves hs hqr
    rename_i hdepth
    have hpos : 0 < r.ovf.depth := Nat.pos_of_ne_zero hdepth
    refine wp_load_bind fun s hrs hsi => ?_
    dsimp only
    refine wp_load_bind fun t hst hti => ?_
    have hrt := hrs.trans hst
    have hqt := hqr.trans hrt
    have hsett := hs.stable hqt
    have hposs : 0 < s.ovf.depth := hpos.trans_le hrs.depth_le
    rw [← (hst.ring hposs).1, ← hst.geo, hti.ring.diff64_eq]
    split
    · exact .of_moves hs hqt
    rename_i hroom
    have hroom' : t.ring.tail < t.ring.head + t.ring.geo.capacity := by
      have := hti.ring.head_le
      omega
    refine wp_rmw_bind fun u htu hu => ?_
    have hqu := hqt.trans htu
    have hsu := hsett.stable htu
    have hposu : 0 < u.ovf.depth := hpos.trans_le (hrt.trans htu).depth_le
    -- the count says that there is a node
    obtain ⟨e, rest, hlist⟩ : ∃ e rest, u.ovf.list = e :: rest := by
      have hd := hu.depth
      rw [hsu.transit, hsu.refillOwed] at hd
      simp only [Option.toList_none, List.length_nil, Bool.toNat_false] at hd
      cases hl : u.ovf.list with
      | nil => rw [hl] at hd; simp at hd; omega
      | cons e rest => exact ⟨e, rest, rfl⟩
    have hunlink : u.unlink = { u with ovf := { u.ovf with list := rest }, transit := some e } := by
      simp [unlink, hlist]
    have hacc : u.unlink.accepted = u.accepted := by
      simp [hunlink, RxQueue.accepted, hlist, hsu.transit]
    have hinv : u.unlink.Inv := by
      have hd := hu.depth
      rw [hsu.transit, hlist] at hd
      rw [hunlink]
      refine ⟨hu.ring, ?_, hu.writing, fun _ => hposu, hu.owed, ?_, hu.fault⟩
      · simpa [Nat.add_assoc, Nat.add_comm, Nat.add_left_comm] using hd
      · intro hrf
        exact absurd (hsu.refilling.symm.trans hrf) (by simp)
    have htail : u.unlink.ring.tail = t.ring.tail := by
      rw [hunlink]
      exact (htu.ring (hpos.trans_le hrt.depth_le)).1
    refine ⟨⟨?_, .inl (by rw [hunlink])⟩, hinv, ?_⟩
    · refine ⟨by rw [hunlink], hacc, by rw [hunlink], by rw [hunlink], by rw [hunlink],
        by rw [hunlink], fun hd => ?_⟩
      omega
    rw [hlist, List.head?_cons]
    dsimp only
    rw [← htail]
    have hur : u.unlink.ring = u.ring := by rw [hunlink]
    refine wp_seq (refillEntry_spec hinv (by rw [hunlink]) (by rw [hunlink]; exact hsu.refillOwed)
      ?_) hinv
      fun _ v hv hmv => ?_
    · rw [htail, hur, htu.head, htu.geo]
      exact hroom'
    · obtain ⟨hmv, htl⟩ := hmv
      have hqv : Refilled q v := by
        refine ⟨hmv.settled, hmv.geo.trans ?_, hmv.head.trans ?_, hmv.claimed.trans ?_, ?_, ?_⟩
        · rw [hur, hqu.geo]
        · rw [hur, hqu.head]
        · rw [hur, hqu.claimed]
        · exact (hacc ▸ hqu.accepted).trans hmv.accepted
        · exact (hur ▸ hqu.log : q.ring.log <+: u.unlink.ring.log).trans hmv.log
      refine wp_mono (ih hv hmv.settled ?_) hv fun _ w _ hw => hqv.trans hw
      have hlen := hqt.log.length_le
      rw [hq.ring.length, hti.ring.length] at hlen
      rw [htl, htail, hqv.head, hqv.geo]
      omega

/-- `refill` keeps the queue's contents, dereferences no empty list and ends. -/
theorem refill_spec {q : RxQueue} (hs : Settled q) :
    wp (consumer none) refill (fun _ => Refilled q) q := by
  unfold refill
  refine wp_load_bind fun r hqr hr => ?_
  have := hr.ring.head_le
  refine wp_mono (refillLoop_spec hr (hs.stable hqr) (by omega)) hr fun _ s _ hs' => ?_
  exact (Refilled.of_moves hs hqr).trans hs'

/-- `peek` returns the oldest entry of the queue, if the ring has one. -/
theorem peek_spec {q : RxQueue} {h : Option ℕ} (hq : q.Inv) (hs : Settled q)
    (hc : q.ring.claimed = false) :
    wp (consumer h) peek
      (fun o q' => Refilled q q' ∧ match o with
        | some e => q'.ring.log[q.ring.head]? = some e
        | none => q.ring.head = q.ring.tail) q := by
  refine wp_mono (wp_on embeds_consumer ⟨hs, List.prefix_rfl, le_rfl⟩
    (SpscRing.peek_spec hq.ring hc)) hq
    fun o r _ hr => ?_
  obtain ⟨⟨hm, ho⟩, hs', hacc, -⟩ := hr
  exact ⟨⟨hs', hm.geo, hm.head, hm.claimed, hacc, hm.log⟩, ho⟩

/-- `takeData` leaves the queue as it is. -/
theorem takeData_spec {q : RxQueue} {h : Option ℕ} {e : Entry} (hq : q.Inv) (hs : Settled q)
    (hlt : q.ring.head < q.ring.tail) :
    wp (consumer h) (takeData e)
      (fun _ q' => Settled q' ∧ q'.ring.head = q.ring.head ∧ q'.ring.head < q'.ring.tail ∧
        q.accepted <+: q'.accepted) q := by
  refine wp_mono (wp_on embeds_consumer ⟨hs, List.prefix_rfl, le_rfl⟩
    (SpscRing.takeData_spec hq.ring hlt)) hq
    fun _ r hr h => ?_
  obtain ⟨⟨-, hhead, hlog⟩, hs', hacc, -⟩ := h
  refine ⟨hs', hhead, ?_, hacc⟩
  have hlen := hlog.length_le
  rw [show (ringLoc.get r).log.length = r.ring.tail from hr.ring.length,
    show (ringLoc.get q).log.length = q.ring.tail from hq.ring.length] at hlen
  have hhead' : r.ring.head = q.ring.head := hhead
  omega

/-- From `q` the consumer has popped one entry. -/
structure Popped (q q' : RxQueue) : Prop where
  settled : Settled q'
  geo : q'.ring.geo = q.ring.geo
  head : q'.ring.head = q.ring.head + 1
  claimed : q'.ring.claimed = false
  accepted : q.accepted <+: q'.accepted

/-- `pop` takes the entry at the head off the queue. -/
theorem pop_spec {q : RxQueue} (hq : q.Inv) (hs : Settled q) (hlt : q.ring.head < q.ring.tail) :
    wp (consumer (some q.ring.head)) pop (fun _ => Popped q) q := by
  refine wp_mono (wp_on embeds_consumer ⟨hs, List.prefix_rfl, le_rfl⟩
    (SpscRing.pop_spec hq.ring hlt)) hq
    fun _ r _ hr => ?_
  obtain ⟨hp, hs', hacc, -⟩ := hr
  exact ⟨hs', hp.geo, hp.head, hp.claimed, hacc⟩

/-- `count` covers what the ring held at the start. -/
theorem count_spec {q : RxQueue} {h : Option ℕ} (hq : q.Inv) (hs : Settled q) :
    wp (consumer h) count
      (fun n q' => Refilled q q' ∧ q.ring.tail - q.ring.head ≤ n ∧ q.ovf.depth ≤ q'.ovf.depth)
      q := by
  refine wp_mono (wp_on embeds_consumer ⟨hs, List.prefix_rfl, le_rfl⟩ (SpscRing.count_spec hq.ring))
    hq
    fun n r _ hr => ?_
  obtain ⟨⟨hm, hn⟩, hs', hacc, hd⟩ := hr
  exact ⟨⟨hs', hm.geo, hm.head, hm.claimed, hacc, hm.log⟩, hn.1, hd⟩

end RxQueue

end Aiopquic
