import Aiopquic.Lib.Atomic
import Aiopquic.Lib.Steps
import Aiopquic.RxQueue
import Mathlib.Algebra.Order.BigOperators.Group.List

/-!
# The byte count of an event ring (`spsc_ring.h`)

`bytes_pending` is raised where a payload enters the ring and lowered where one is popped.
`spsc_ring_take_data` zeroes the length of the entry, from which the pop then lowers the count by
nothing: the count is right as long as no entry is popped whose payload was taken, and from the
first such pop on it is too high (`bytes_pending_counts_iff`).

A step is a whole operation of one side.
-/

namespace Aiopquic

open Interleave Circular

namespace RxQueue

/-- An operation on the ring or on its overflow. -/
inductive RingOp
  | push (entry : Entry) (data : List UInt8)
  | pushOrOverflow (entry : Entry) (data : List UInt8)
  | refill
  | takeData
  | pop
  deriving DecidableEq, Repr

/-- The entry at the head, if the ring has one. -/
def headEntry (q : RxQueue) : Entry := q.ring.entries (q.ring.head &&& q.ring.geo.mask)

/-- A payload has a 32-bit length, an entry that is pushed with a borrowed pointer has length `0`,
and the consumer takes and pops where `spsc_ring_peek` shows an entry. -/
def ringStep (q : RxQueue) : RingOp → Option RxQueue
  | .push entry data =>
    if data.length < 2 ^ 32 then some (((SpscRing.push entry data).on ringLoc).exec q).2 else none
  | .pushOrOverflow entry data =>
    if data.length < 2 ^ 32 ∧ (data = [] → entry.dataLength = 0)
      then some ((pushOrOverflow entry data).exec q).2 else none
  | .refill => some (refill.exec q).2
  | .takeData => if q.ring.head < q.ring.tail then some ((takeData q.headEntry).exec q).2 else none
  | .pop => if q.ring.head < q.ring.tail then some (pop.exec q).2 else none

/-- The payload lengths of the entries that were pushed to the ring and not yet popped. -/
def payloadBytes (q : RxQueue) : ℕ := ((q.ring.log.drop q.ring.head).map (·.dataLength)).sum

/-- `spsc_ring_bytes_pending` is the sum of the payload lengths, so it is `0` for an empty ring, and
the next pop does not take more off than there is. -/
structure BytesCounted (q : RxQueue) : Prop where
  eq : q.ring.bytesPending = q.payloadBytes
  empty : q.ring.tail ≤ q.ring.head → q.ring.bytesPending = 0
  enough : q.ring.head < q.ring.tail → q.headEntry.Frees → q.headEntry.dataLength ≤
    q.ring.bytesPending

/-- The entry that is popped has its payload, or had none. -/
def PopsWhole (q : RxQueue) : RingOp → Prop
  | .pop => q.ring.claimed = true → ∀ e ∈ q.ring.log[q.ring.head]?, e.dataLength = 0
  | _ => True

/-! ## What all operations keep -/

/-- The length of an entry is that of a payload it points to. -/
def Owns (e : Entry) : Prop := e.dataLength < 2 ^ 32 ∧ (0 < e.dataLength → e.dataBuf ≠ .null)

/-- The ring is in order, what entered it owns its payload, and what the consumer has taken has none
left. -/
structure Accounted (q : RxQueue) : Prop where
  ring : q.ring.Wf
  writing : q.ring.writing = false
  log : ∀ e ∈ q.ring.log, Owns e
  list : ∀ e ∈ q.ovf.list, Owns e
  claimed : q.ring.claimed = true → ¬ q.headEntry.Frees

/-- The count and the payloads have changed by the same amount. -/
def Balanced (q q' : RxQueue) : Prop :=
  q'.ring.bytesPending + q.payloadBytes = q.ring.bytesPending + q'.payloadBytes

variable {q q' : RxQueue} {e : Entry}

theorem Balanced.trans {t : RxQueue} (h : Balanced q q') (h' : Balanced q' t) : Balanced q t := by
  unfold Balanced at *
  omega

theorem owns_withData {entry : Entry} {data : List UInt8} (hlen : data.length < 2 ^ 32) :
    Owns (entry.withData data) := by
  refine ⟨hlen, fun hpos => ?_⟩
  have hne : data ≠ [] := List.ne_nil_of_length_pos hpos
  simp [Entry.withData, hne]

theorem owns_empty (h : e.dataLength = 0) : Owns e := by
  refine ⟨by omega, fun hpos => ?_⟩
  omega

theorem owns_node {entry : Entry} {data : List UInt8} (hlen : data.length < 2 ^ 32) :
    Owns (node entry data) := by
  unfold node
  split
  · exact owns_empty rfl
  · exact ⟨hlen, fun _ => by simp⟩

/-- The ring after an entry was put into it. -/
def putEntry (q : RxQueue) (e : Entry) : RxQueue :=
  { q with
    ring :=
      ({ q.ring.fill q.ring.tail e with bytesPending := q.ring.bytesPending + e.dataLength } :
        SpscRing).publish
        (q.ring.tail + 1) e }

theorem Accounted.not_empty (h : q.Accounted) (hc : q.ring.claimed = true) :
    q.ring.head < q.ring.tail := by
  have := h.ring.window.head_le
  rw [hc] at this
  exact this

/-- A put keeps the order and the balance. -/
theorem Accounted.putEntry (h : q.Accounted)
    (hroom : q.ring.tail < q.ring.head + q.ring.geo.capacity) (he : Owns e) :
    (q.putEntry e).Accounted ∧ Balanced q (q.putEntry e) := by
  have hfill := h.ring.fill hroom e
  have hcounted : ({ q.ring.fill q.ring.tail e with bytesPending := q.ring.bytesPending + e.dataLength } : SpscRing).Wf :=
    ⟨hfill.window, hfill.length, hfill.tail_le, hfill.room⟩
  have hslot : (q.ring.fill q.ring.tail e).entries (q.ring.tail % q.ring.geo.capacity) = e := by
    simp [SpscRing.fill, q.ring.geo.and_mask]
  refine ⟨⟨hcounted.publish hroom hslot, rfl, ?_, h.list, fun hc => ?_⟩, ?_⟩
  · intro x hx
    rcases List.mem_append.1 (show x ∈ q.ring.log ++ [e] from hx) with hx | hx
    · exact h.log x hx
    · rw [List.mem_singleton.1 hx]
      exact he
  · -- the slot at the head is another one
    have hne : q.ring.head % q.ring.geo.capacity ≠ q.ring.tail % q.ring.geo.capacity :=
      slot_ne (h.not_empty hc) hroom
    have hsame : (q.putEntry e).headEntry = q.headEntry := by
      simp only [headEntry, RxQueue.putEntry, SpscRing.publish, SpscRing.fill, q.ring.geo.and_mask]
      exact Function.update_of_ne hne _ _
    rw [hsame]
    exact h.claimed hc
  · have hle : q.ring.head ≤ q.ring.log.length := by
      rw [h.ring.length]
      exact h.ring.head_le
    show q.ring.bytesPending + e.dataLength + q.payloadBytes = q.ring.bytesPending +
      (((q.ring.log ++ [e]).drop q.ring.head).map (·.dataLength)).sum
    rw [List.drop_append_of_le_length hle, List.map_append, List.sum_append, payloadBytes,
      List.map_singleton,
      List.sum_singleton]
    omega

/-! ## The operations -/

/-- `put` fails on a full ring and leaves it as it is. -/
theorem put_exec (r : SpscRing) (e : Entry) (counted : ℕ) :
    (SpscRing.put e counted).exec r = (-1, r) ∨ diff64 r.tail r.head < r.geo.capacity ∧
      (SpscRing.put e counted).exec r =
        (0, ({ r.fill r.tail e with bytesPending := r.bytesPending + counted } : SpscRing).publish
        (r.tail + 1) e) := by
  show Prog.exec (if r.geo.capacity ≤ diff64 r.tail r.head then _ else _) r = _ ∨ _ ∧
    Prog.exec (if r.geo.capacity ≤ diff64 r.tail r.head then _ else _) r = _
  by_cases hfull : r.geo.capacity ≤ diff64 r.tail r.head
  · rw [if_pos hfull]
    exact .inl rfl
  · rw [if_neg hfull]
    refine .inr ⟨by omega, ?_⟩
    cases counted with
    | zero => rfl
    | succ n => rfl

theorem on_exec {α : Type} (p : Prog SpscRing α) (q : RxQueue) :
    (p.on ringLoc).exec q = ((p.exec q.ring).1, { q with ring := (p.exec q.ring).2 }) :=
  Prog.exec_on ringLoc (fun _ _ _ => rfl) (fun _ => rfl) p q

/-- A put through the queue, of an entry whose length is what is counted. -/
theorem Accounted.put (h : q.Accounted) (he : Owns e) :
    (((SpscRing.put e e.dataLength).on ringLoc).exec q).2.Accounted ∧
      Balanced q (((SpscRing.put e e.dataLength).on ringLoc).exec q).2 := by
  rw [on_exec]
  rcases put_exec q.ring e e.dataLength with hput | ⟨hroom, hput⟩
  · rw [hput]
    exact ⟨h, rfl⟩
  · rw [hput]
    rw [h.ring.diff64_eq] at hroom
    have := h.ring.head_le
    exact h.putEntry (by omega) he

theorem Accounted.push (h : q.Accounted) {entry : Entry} {data : List UInt8}
    (hlen : data.length < 2 ^ 32) :
    (((SpscRing.push entry data).on ringLoc).exec q).2.Accounted ∧
      Balanced q (((SpscRing.push entry data).on ringLoc).exec q).2 :=
  h.put (owns_withData hlen)

/-- The overflow half leaves the ring alone. -/
theorem Accounted.pushOverflow (h : q.Accounted) {entry : Entry} {data : List UInt8}
    (hlen : data.length < 2 ^ 32) :
    ((RxQueue.pushOverflow entry data).exec q).2.Accounted ∧
      Balanced q ((RxQueue.pushOverflow entry data).exec q).2 := by
  refine ⟨⟨h.ring, h.writing, h.log, fun x hx => ?_, h.claimed⟩, rfl⟩
  rcases List.mem_append.1 (show x ∈ q.ovf.list ++ [node entry data] from hx) with hx | hx
  · exact h.list x hx
  · rw [List.mem_singleton.1 hx]
    exact owns_node hlen

theorem Accounted.pushOrOverflow (h : q.Accounted) {entry : Entry} {data : List UInt8}
    (hlen : data.length < 2 ^ 32)
    (hempty : data = [] → entry.dataLength = 0) :
    ((RxQueue.pushOrOverflow entry data).exec q).2.Accounted ∧
      Balanced q ((RxQueue.pushOrOverflow entry data).exec q).2 := by
  have hrest : ∀ (rc : ℤ) (t : RxQueue), t.Accounted → Balanced q t →
      ((if rc = 0 then pure 0 else RxQueue.pushOverflow entry data).exec t).2.Accounted ∧
        Balanced q ((if rc = 0 then pure 0 else RxQueue.pushOverflow entry data).exec t).2 := by
    intro rc t ht hbal
    split
    · exact ⟨ht, hbal⟩
    · exact ⟨(ht.pushOverflow hlen).1, hbal.trans (ht.pushOverflow hlen).2⟩
  unfold RxQueue.pushOrOverflow
  rw [Prog.exec_bind, Prog.exec_bind]
  by_cases hdepth : q.ovf.depth = 0
  · rw [Prog.exec_load, if_pos hdepth]
    by_cases hdata : data = []
    · rw [if_neg (not_not.2 hdata)]
      have hput := h.put (owns_empty (hempty hdata))
      rw [hempty hdata] at hput
      exact hrest _ _ hput.1 hput.2
    · rw [if_pos hdata]
      exact hrest _ _ (h.push hlen).1 (h.push hlen).2
  · rw [Prog.exec_load, if_neg hdepth]
    exact hrest _ _ h rfl

/-- One round of a refill moves an entry to the ring. -/
theorem refillEntry_exec (hw : q.ring.writing = false) (e : Entry) :
    ((refillEntry q.ring.tail e).exec q).2.ring = (q.putEntry e).ring ∧
      ((refillEntry q.ring.tail e).exec q).2.ovf.list = q.ovf.list := by
  have hfields : (q.putEntry e).ring =
      { q.ring with
        entries := Function.update q.ring.entries (q.ring.tail &&& q.ring.geo.mask) e
        bytesPending := q.ring.bytesPending + e.dataLength
        tail := q.ring.tail + 1
        log := q.ring.log ++ [e] } := by
    simp only [putEntry, SpscRing.publish, SpscRing.fill, hw]
  rw [hfields]
  unfold refillEntry
  by_cases hpos : 0 < e.dataLength
  · rw [Prog.when, if_pos hpos]
    exact ⟨rfl, rfl⟩
  · rw [Prog.when, if_neg hpos, show e.dataLength = 0 by omega]
    exact ⟨rfl, rfl⟩

/-- Neither the order nor the balance depends on more than the ring and the list. -/
theorem Accounted.of_eq {t : RxQueue} (h : q.Accounted) (hring : t.ring = q.ring)
    (hlist : ∀ e ∈ t.ovf.list, e ∈ q.ovf.list) : t.Accounted ∧ Balanced q t := by
  refine ⟨⟨?_, ?_, ?_, fun e he => h.list e (hlist e he), ?_⟩, ?_⟩
  · rw [hring]
    exact h.ring
  · rw [hring]
    exact h.writing
  · rw [hring]
    exact h.log
  · rw [headEntry, hring]
    exact h.claimed
  · rw [Balanced, payloadBytes, payloadBytes, hring]

theorem Accounted.refillLoop (fuel moved : ℕ) (h : q.Accounted) :
    ((RxQueue.refillLoop fuel moved).exec q).2.Accounted ∧
    Balanced q ((RxQueue.refillLoop fuel moved).exec q).2 := by
  induction fuel generalizing q moved with
  | zero => exact h.of_eq rfl fun _ h => h
  | succ fuel ih =>
    show (Prog.exec (if q.ovf.depth = 0 then _ else _) q).2.Accounted ∧
      Balanced q (Prog.exec (if q.ovf.depth = 0 then _ else _) q).2
    by_cases hdepth : q.ovf.depth = 0
    · rw [if_pos hdepth]
      exact ⟨h, rfl⟩
    rw [if_neg hdepth]
    show (Prog.exec (if q.ring.geo.capacity ≤ diff64 q.ring.tail q.ring.head then _ else _)
      q).2.Accounted ∧
      Balanced q (Prog.exec (if q.ring.geo.capacity ≤ diff64 q.ring.tail q.ring.head then _ else _)
        q).2
    by_cases hfull : q.ring.geo.capacity ≤ diff64 q.ring.tail q.ring.head
    · rw [if_pos hfull]
      exact ⟨h, rfl⟩
    rw [if_neg hfull, Prog.exec_bind, Prog.exec_rmw]
    cases hlist : q.ovf.list with
    | nil =>
      have hunlink : q.unlink = { q with fault := true } := by rw [unlink, hlist]
      show q.unlink.Accounted ∧ Balanced q q.unlink
      rw [hunlink]
      exact h.of_eq rfl fun _ hx => hx
    | cons e rest =>
      have hring : q.unlink.ring = q.ring := by rw [unlink, hlist]
      have hrest : q.unlink.ovf.list = rest := by rw [unlink, hlist]
      obtain ⟨hunlinked, hbal⟩ := h.of_eq hring fun x hx => by
        rw [hlist]
        exact List.mem_cons_of_mem e (hrest ▸ hx)
      have hroom : q.unlink.ring.tail < q.unlink.ring.head + q.unlink.ring.geo.capacity := by
        rw [hring]
        rw [h.ring.diff64_eq] at hfull
        have := h.ring.head_le
        omega
      have he : Owns e := h.list e (by rw [hlist]; exact List.mem_cons_self)
      obtain ⟨hput, hput'⟩ := hunlinked.putEntry hroom he
      obtain ⟨hentry, hovf⟩ := refillEntry_exec hunlinked.writing e
      obtain ⟨hmoved, hmoved'⟩ := hput.of_eq hentry fun x hx => by rwa [hovf] at hx
      rw [hring] at hmoved hmoved'
      show (Prog.exec (refillEntry q.ring.tail e >>= fun _ => RxQueue.refillLoop fuel (moved + 1))
        q.unlink).2.Accounted ∧
        Balanced q (Prog.exec
          (refillEntry q.ring.tail e >>= fun _ => RxQueue.refillLoop fuel (moved + 1)) q.unlink).2
      rw [Prog.exec_bind]
      obtain ⟨hend, hend'⟩ := ih (moved + 1) hmoved
      exact ⟨hend, hbal.trans (hput'.trans (hmoved'.trans hend'))⟩

theorem Accounted.refill (h : q.Accounted) :
    (RxQueue.refill.exec q).2.Accounted ∧ Balanced q (RxQueue.refill.exec q).2 :=
  h.refillLoop (q.ring.geo.capacity + 1) 0

theorem takeData_exec (q : RxQueue) (e : Entry) : ((RxQueue.takeData e).exec q).2 =
    { q with ring := q.ring.claim q.ring.head { e with dataBuf := .null, dataLength := 0 } } := rfl

/-- The payload is gone from the slot, and the count stays. -/
theorem Accounted.takeData (h : q.Accounted) (hlt : q.ring.head < q.ring.tail) :
    ((RxQueue.takeData q.headEntry).exec q).2.Accounted ∧
    Balanced q ((RxQueue.takeData q.headEntry).exec q).2 := by
  rw [takeData_exec]
  refine ⟨⟨h.ring.claim hlt _, h.writing, h.log, h.list, fun _ => ?_⟩, rfl⟩
  simp [headEntry, SpscRing.claim, Entry.Frees]

/-- A ring after a pop of `e`, with `bytes` for the count if the payload is freed. -/
def popped (r : SpscRing) (e : Entry) (bytes : ℕ) : SpscRing :=
  if e.Frees then
    (({ r with bytesPending := bytes } : SpscRing).claim r.head { e with dataBuf := .null }).advance
      (r.head + 1)
  else r.advance (r.head + 1)

section Popped

variable {r : SpscRing} {e : Entry} {bytes : ℕ}

theorem popped_log : (popped r e bytes).log = r.log := by
  unfold popped
  split <;> rfl

theorem popped_head : (popped r e bytes).head = r.head + 1 := by
  unfold popped
  split <;> rfl

theorem popped_bytesPending :
    (popped r e bytes).bytesPending = if e.Frees then bytes else r.bytesPending := by
  unfold popped
  split <;> rfl

theorem popped_writing : (popped r e bytes).writing = r.writing := by
  unfold popped
  split <;> rfl

theorem popped_claimed : (popped r e bytes).claimed = false := by
  unfold popped
  split <;> rfl

theorem popped_wf (h : r.Wf) (hlt : r.head < r.tail) : (popped r e bytes).Wf := by
  unfold popped
  split
  · have hcounted : ({ r with bytesPending := bytes } : SpscRing).Wf :=
      ⟨h.window, h.length, h.tail_le, h.room⟩
    exact (hcounted.claim hlt _).advance hlt
  · exact h.advance hlt

/-- The actions of a pop after it has read the slot, for any subtraction. -/
theorem popSlot_exec (head : ℕ) (hhead : r.head = head) (sub : ℕ → ℕ → ℕ) :
    (Prog.exec (do
      Prog.when e.Frees <| Prog.modify fun r : SpscRing =>
      { r with bytesPending := sub r.bytesPending e.dataLength }
      Prog.when e.Frees <| Prog.modify fun r => r.claim head { e with dataBuf := .null }
      Prog.modify fun r => r.advance (head + 1)) r).2 =
        popped r e (sub r.bytesPending e.dataLength) := by
  subst hhead
  by_cases hfrees : e.Frees
  · rw [Prog.when, if_pos hfrees, Prog.when, if_pos hfrees, popped, if_pos hfrees]
    rfl
  · rw [Prog.when, if_neg hfrees, Prog.when, if_neg hfrees, popped, if_neg hfrees]
    rfl

/-- `pop` takes off the length that the entry still has. -/
theorem popRing_exec (he : r.entries (r.head &&& r.geo.mask) = e) :
    (SpscRing.pop.exec r).2 = popped r e (diff64 r.bytesPending e.dataLength) := by
  subst he
  rw [SpscRing.pop, Prog.exec_bind, Prog.exec_load]
  dsimp only
  rw [Prog.exec_bind, Prog.exec_load]
  exact popSlot_exec r.head rfl diff64

end Popped

theorem pop_exec (q : RxQueue) : (RxQueue.pop.exec q).2 =
    { q with ring := popped q.ring q.headEntry (diff64 q.ring.bytesPending q.headEntry.dataLength) } := by
  rw [RxQueue.pop, on_exec, popRing_exec rfl]
  rfl

theorem pop_ring (q : RxQueue) : (RxQueue.pop.exec q).2.ring.log = q.ring.log ∧
    (RxQueue.pop.exec q).2.ring.head = q.ring.head + 1 ∧
    (RxQueue.pop.exec q).2.ring.bytesPending =
      if q.headEntry.Frees then diff64 q.ring.bytesPending q.headEntry.dataLength
      else q.ring.bytesPending := by
  rw [pop_exec]
  exact ⟨popped_log, popped_head, popped_bytesPending⟩

theorem Accounted.pop (h : q.Accounted) (hlt : q.ring.head < q.ring.tail) :
    (RxQueue.pop.exec q).2.Accounted := by
  rw [pop_exec]
  refine ⟨popped_wf h.ring hlt, popped_writing.trans h.writing, ?_, h.list, fun hc => ?_⟩
  · rw [popped_log]
    exact h.log
  · rw [popped_claimed] at hc
    exact nomatch hc

theorem step_accounted {op : RingOp} (h : q.Accounted) (hstep : q.ringStep op = some q') :
    q'.Accounted := by
  cases op with
  | push entry data =>
    obtain ⟨hlen, rfl⟩ : data.length < 2 ^ 32 ∧ _ := by simpa [ringStep] using hstep
    exact (h.push hlen).1
  | pushOrOverflow entry data =>
    obtain ⟨⟨hlen, hempty⟩, rfl⟩ :
      (data.length < 2 ^ 32 ∧ (data = [] → entry.dataLength = 0)) ∧ _ := by
      simpa [ringStep] using hstep
    exact (h.pushOrOverflow hlen hempty).1
  | refill =>
    cases hstep
    exact h.refill.1
  | takeData =>
    obtain ⟨hlt, rfl⟩ : q.ring.head < q.ring.tail ∧ _ := by simpa [ringStep] using hstep
    exact (h.takeData hlt).1
  | pop =>
    obtain ⟨hlt, rfl⟩ : q.ring.head < q.ring.tail ∧ _ := by simpa [ringStep] using hstep
    exact h.pop hlt

/-! ## The count -/

/-- The payloads of a ring stay far below `2 ^ 64`. -/
theorem Accounted.payloadBytes_lt (h : q.Accounted) : q.payloadBytes < 2 ^ 64 := by
  have hle : q.payloadBytes ≤ (q.ring.log.drop q.ring.head).length * 2 ^ 32 := by
    have hall : ∀ x ∈ (q.ring.log.drop q.ring.head).map (·.dataLength), x ≤ 2 ^ 32 := by
      intro x hx
      obtain ⟨e, he, rfl⟩ := List.mem_map.1 hx
      exact (h.log e (List.mem_of_mem_drop he)).1.le
    have hsum := List.sum_le_card_nsmul _ _ hall
    rwa [List.length_map] at hsum
  have hlen : (q.ring.log.drop q.ring.head).length < 2 ^ 32 := by
    rw [List.length_drop, h.ring.length]
    have := h.ring.tail_le
    have := q.ring.geo.capacity_lt
    omega
  calc q.payloadBytes ≤ _ := hle
    _ < 2 ^ 32 * 2 ^ 32 := Nat.mul_lt_mul_of_pos_right hlen (by decide)
    _ = 2 ^ 64 := by norm_num

/-- The slot at the head holds the oldest entry, or what is left of it. -/
theorem Accounted.headEntry_eq (h : q.Accounted) (hlt : q.ring.head < q.ring.tail)
    (hc : q.ring.claimed = false) :
    q.ring.log[q.ring.head]? = some q.headEntry := by
  rw [h.ring.slot_head hc hlt, headEntry, q.ring.geo.and_mask]

theorem payloadBytes_cons (he : q.ring.log[q.ring.head]? = some e) :
    q.payloadBytes = e.dataLength +
    ((q.ring.log.drop (q.ring.head + 1)).map (·.dataLength)).sum := by
  obtain ⟨hlt, hget⟩ := List.getElem?_eq_some_iff.1 he
  rw [payloadBytes, List.drop_eq_getElem_cons hlt, hget, List.map_cons, List.sum_cons]

/-- A slot that frees its payload was not taken from. -/
theorem Accounted.frees_le (h : q.Accounted) (hlt : q.ring.head < q.ring.tail)
    (hfrees : q.headEntry.Frees) :
    q.ring.claimed = false ∧ q.headEntry.dataLength ≤ q.payloadBytes := by
  have hc : q.ring.claimed = false := by
    by_contra hne
    exact h.claimed (by simpa using hne) hfrees
  refine ⟨hc, ?_⟩
  rw [payloadBytes_cons (h.headEntry_eq hlt hc)]
  exact Nat.le_add_right _ _

/-- The rest of what is said of the count follows from the equation. -/
theorem Accounted.counted_iff (h : q.Accounted) :
    BytesCounted q ↔ q.ring.bytesPending = q.payloadBytes := by
  refine ⟨fun hcounted => hcounted.eq, fun heq => ⟨heq, fun hle => ?_, fun hlt hfrees => ?_⟩⟩
  · rw [heq, payloadBytes, List.drop_eq_nil_of_le (by rw [h.ring.length]; exact hle)]
    rfl
  · rw [heq]
    exact (h.frees_le hlt hfrees).2

/-- What a pop does to the count: it takes off what the slot still has. -/
theorem Accounted.pop_counted (h : q.Accounted) (hlt : q.ring.head < q.ring.tail)
    (heq : q.ring.bytesPending = q.payloadBytes) :
    (RxQueue.pop.exec q).2.ring.bytesPending = (RxQueue.pop.exec q).2.payloadBytes ↔
    PopsWhole q .pop := by
  have hget : ∃ e, q.ring.log[q.ring.head]? = some e :=
    ⟨_, List.getElem?_eq_getElem (by rw [h.ring.length]; exact hlt)⟩
  obtain ⟨e, he⟩ := hget
  have hcons := payloadBytes_cons he
  have hafter : (RxQueue.pop.exec q).2.payloadBytes =
      ((q.ring.log.drop (q.ring.head + 1)).map (·.dataLength)).sum := by
    rw [payloadBytes, (pop_ring q).1, (pop_ring q).2.1]
  have howns := h.log e (List.mem_of_getElem? he)
  rw [hafter, PopsWhole, he]
  by_cases hc : q.ring.claimed = true
  · -- the payload was taken, and nothing comes off
    have hbytes : (RxQueue.pop.exec q).2.ring.bytesPending = q.ring.bytesPending := by
      rw [(pop_ring q).2.2, if_neg (h.claimed hc)]
    rw [hbytes, heq, hcons]
    constructor
    · rintro hsum - x hx
      cases hx
      omega
    · intro hwhole
      have := hwhole hc e rfl
      omega
  · have hc : q.ring.claimed = false := by simpa using hc
    have hslot : q.headEntry = e := Option.some.inj ((h.headEntry_eq hlt hc).symm.trans he)
    refine iff_of_true ?_ fun hc' => absurd hc' (by rw [hc]; decide)
    by_cases hfrees : q.headEntry.Frees
    · have hbytes : (RxQueue.pop.exec q).2.ring.bytesPending = diff64 q.ring.bytesPending
        q.headEntry.dataLength := by
        rw [(pop_ring q).2.2, if_pos hfrees]
      have hbound := h.payloadBytes_lt
      rw [hbytes, hslot, diff64_eq (by omega) (by omega)]
      omega
    · have hbytes : (RxQueue.pop.exec q).2.ring.bytesPending = q.ring.bytesPending := by
        rw [(pop_ring q).2.2, if_neg hfrees]
      have hzero : e.dataLength = 0 := by
        by_contra hne
        rw [hslot] at hfrees
        exact hfrees ⟨howns.2 (by omega), by omega⟩
      omega

theorem Balanced.eq (h : Balanced q q') (heq : q.ring.bytesPending = q.payloadBytes) :
    q'.ring.bytesPending = q'.payloadBytes := by
  unfold Balanced at h
  omega

/-- A step from a right count leads to a right count exactly if it pops no entry whose payload was
taken. -/
theorem step_counted_iff (op : RingOp) (h : q.Accounted) (hcounted : BytesCounted q) :
    (∀ q' ∈ q.ringStep op, BytesCounted q') ↔ PopsWhole q op := by
  by_cases hpop : op = .pop
  · subst hpop
    by_cases hlt : q.ring.head < q.ring.tail
    · have hstep : q.ringStep .pop = some (RxQueue.pop.exec q).2 := if_pos hlt
      rw [hstep, ← h.pop_counted hlt hcounted.eq, ← (h.pop hlt).counted_iff]
      exact ⟨fun hall => hall _ rfl, fun hcounted q' hq' => Option.some.inj hq' ▸ hcounted⟩
    · have hstep : q.ringStep .pop = none := if_neg hlt
      rw [hstep]
      exact iff_of_true (fun _ hmem => nomatch hmem) fun hc => absurd (h.not_empty hc) hlt
  · have hwhole : PopsWhole q op := by
      cases op with
      | pop => exact absurd rfl hpop
      | _ => trivial
    refine iff_of_true (fun q' hstep => ?_) hwhole
    rw [(step_accounted h hstep).counted_iff]
    refine Balanced.eq (q := q) ?_ hcounted.eq
    cases op with
    | push entry data =>
      obtain ⟨hlen, rfl⟩ : data.length < 2 ^ 32 ∧ _ := by simpa [ringStep] using hstep
      exact (h.push hlen).2
    | pushOrOverflow entry data =>
      obtain ⟨⟨hlen, hempty⟩, rfl⟩ : (data.length < 2 ^ 32 ∧ (data = [] → entry.dataLength = 0)) ∧
        _ := by
        simpa [ringStep] using hstep
      exact (h.pushOrOverflow hlen hempty).2
    | refill =>
      cases hstep
      exact h.refill.2
    | takeData =>
      obtain ⟨hlt, rfl⟩ : q.ring.head < q.ring.tail ∧ _ := by simpa [ringStep] using hstep
      exact (h.takeData hlt).2
    | pop => exact absurd rfl hpop

theorem create_accounted (geo : Geometry) : (create geo).Accounted :=
  ⟨SpscRing.create_wf geo, rfl, fun _ h => (List.not_mem_nil h).elim, fun _ h =>
    (List.not_mem_nil h).elim, nofun⟩

/-- In a sequence of operations on a new ring `spsc_ring_bytes_pending` is right after each of them
exactly if no entry is popped whose payload, of at least one byte, was taken with
`spsc_ring_take_data`. -/
theorem bytes_pending_counts_iff (geo : Geometry) (ops : List RingOp) :
    Steps.Always ringStep BytesCounted (create geo) ops ↔
    Steps.Along ringStep PopsWhole (create geo) ops :=
  Steps.always_iff (fun _ _ _ h hstep => step_accounted h hstep)
    (fun _ op h hcounted => step_counted_iff op h hcounted)
    (create_accounted geo) ((create_accounted geo).counted_iff.2 rfl)

/-- A payload of two bytes is taken and its entry popped: the ring is empty and two bytes are
pending. -/
theorem bytes_pending_taken :
    (Steps.run ringStep (create (.ofExp 2 (by decide))) [.push {} [7, 8], .takeData, .pop]).map
        (fun q => (q.ring.tail - q.ring.head, q.ring.bytesPending)) = some (0, 2) ∧
      ¬ Steps.Always ringStep BytesCounted (create (.ofExp 2 (by decide)))
      [.push {} [7, 8], .takeData, .pop] := by
  refine ⟨by decide, fun h => ?_⟩
  obtain ⟨-, hrest⟩ := h
  obtain ⟨-, hrest⟩ := hrest _ rfl
  have hcounted := (hrest _ rfl).1 _ rfl
  exact absurd (hcounted.empty (by decide)) (by decide)

end RxQueue

end Aiopquic
