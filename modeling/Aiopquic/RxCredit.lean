import Aiopquic.SpscRing
import Aiopquic.StreamCtx
import Aiopquic.Threads

/-!
# Receive credit

The peer may send up to the limit that picoquic advertises for the stream. It starts as the window
of the handshake; the first callback raises it to the size of the RX ring, and from then on a drain
that popped enough pushes `TX_OPEN_FLOW_CONTROL`, for which the worker opens the limit to what is
free.

`RxCredit` is a stream's RX ring with the limit and the TX event ring. The worker runs the callbacks
and drains the TX event ring. Which notifications the RX event queue holds is left to the run: a
drain may find any number of them for the stream. Offsets count the bytes that the stream's handlers
see.
-/

namespace Aiopquic

open Interleave Interleave.Prog Circular

/-- A stream and the settings its credit depends on: `rxDataRingCap` is the argument of `start`,
`window` is `aiopquic_initial_rx_window`, `fcRaw` is `AIOPQUIC_FC_RAW`. -/
structure CreditSite where
  cnx : ℕ
  streamId : ℕ
  ptr : ℕ
  rxDataRingCap : UInt32
  window : ℕ
  hash : Bool
  fcRaw : Bool

namespace CreditSite

/-- `ctx->rx_data_ring_cap`; `0` if `start` was given none. -/
def ctxRingCap (r : CreditSite) : UInt32 :=
  if 0 < r.rxDataRingCap then .ofNat (ceilPow2U32 r.rxDataRingCap) else 0

/-- `advertise_cap`; the default is `AIOPQUIC_RX_DATA_RING_CAP_DEFAULT`. -/
def advertiseCap (r : CreditSite) : UInt32 := if 0 < r.ctxRingCap then r.ctxRingCap else
    (1 : UInt32) <<< 22

/-- The capacity of the RX ring. -/
def cap (r : CreditSite) : ℕ := ceilPow2U32 r.advertiseCap

/-- The hysteresis of `_push_fc_credit`. -/
def hysteresis (r : CreditSite) : ℕ := if 0 < r.ctxRingCap then r.ctxRingCap.toNat >>> 4
    else 1 <<< 18

theorem ctxRingCap_toNat (r : CreditSite) :
    r.ctxRingCap = 0 ∨ r.ctxRingCap.toNat = ceilPow2U32 r.rxDataRingCap := by
  unfold ctxRingCap
  split
  · obtain ⟨k, hk, hpow⟩ := ceilPow2U32_pow2 r.rxDataRingCap
    have hlt : ceilPow2U32 r.rxDataRingCap < 2 ^ 32 := by
      rw [hpow]
      exact Nat.pow_lt_pow_right (by omega) (by omega)
    exact .inr (UInt32.toNat_ofNat_of_lt' hlt)
  · exact .inl rfl

/-- What is advertised is a power of two, and so the size of the ring. -/
theorem cap_eq (r : CreditSite) : r.cap = r.advertiseCap.toNat := by
  unfold cap advertiseCap
  split
  · rename_i hpos
    rcases r.ctxRingCap_toNat with h | h
    · rw [h] at hpos
      exact absurd hpos (by decide)
    · obtain ⟨k, -, hpow⟩ := ceilPow2U32_pow2 r.rxDataRingCap
      exact ceilPow2U32_of_pow2 (h.trans hpow)
  · decide

/-- The hysteresis is a sixteenth of the ring. -/
theorem hysteresis_eq (r : CreditSite) : r.hysteresis = r.cap / 16 := by
  rw [cap_eq]
  unfold hysteresis advertiseCap
  split
  · exact Nat.shiftRight_eq_div_pow _ 4
  · decide

end CreditSite

/-- A stream's receive credit. `limit` is what picoquic advertises and `overflows` is
`worker_rx_byte_ring_overflow`. The rest is the record of the run: the bytes picoquic delivered and
whether the FIN was among them; whether the first callback has still to raise the limit; the head
that a grant has read, until it has read the pending bytes too; and the number that the entry of a
credit push will get. -/
structure RxCredit where
  sc : StreamCtx
  ring : SpscRing
  limit : ℕ
  overflows : ℕ
  received : List UInt8
  finished : Bool
  granting : Bool
  sampled : Option ℕ
  owing : Option ℕ

namespace RxCredit

/-- A stream that nothing was received on. -/
def init (r : CreditSite) (txGeo : Geometry) : RxCredit :=
  ⟨{}, .create txGeo, r.window, 0, [], false, false, none, none⟩

/-- The stream's context. -/
def scLoc : Loc RxCredit StreamCtx where
  get := (·.sc)
  set := fun sc s => { s with sc := sc }
  get_set := fun _ _ => rfl

/-- Its RX ring. -/
def rxLoc : Loc RxCredit StreamBuf := scLoc.comp StreamCtx.rxLoc

/-- The TX event ring. -/
def ringLoc : Loc RxCredit SpscRing where
  get := (·.ring)
  set := fun ring s => { s with ring := ring }
  get_set := fun _ _ => rfl

/-- `picoquic_open_flow_control`. -/
def openFlowControl (grant : ℕ) (s : RxCredit) : RxCredit :=
  { s with limit := max s.limit (s.received.length + grant) }

/-! ## The callbacks -/

/-- picoquic delivers bytes, or the FIN, or both. -/
def deliver (data : List UInt8) (fin : Bool) (s : RxCredit) : RxCredit :=
  { s with received := s.received ++ data, finished := s.finished || fin }

/-- The RX ring is created; the limit is raised later if it is below the ring. -/
def createRx (r : CreditSite) (s : RxCredit) : RxCredit :=
  { s with
    sc := { s.sc with rx := some (.create r.advertiseCap r.hash) }
    granting := decide (r.window < r.advertiseCap.toNat) }

/-- `aiopquic_stream_buf_free` of the RX ring; `note` goes with the load of the head. -/
def bufFree (note : RxCredit → RxCredit) : Prog RxCredit ℕ := do
  let (tail, capacity) ← load fun s => (s.sc.rxBuf.tail, s.sc.rxBuf.geo.capacity)
  let head ← rmw note (·.sc.rxBuf.head)
  pure (sub32 capacity (diff32 tail head))

/-- The grant of the first callback. -/
def firstGrant : Prog RxCredit Unit := do
  let free ← bufFree id
  modify fun s => { s.openFlowControl free with granting := false }

/-- The common body of the callbacks, from the creation of the ring to the first grant. A push of no
bytes changes nothing. -/
def receive (r : CreditSite) (data : List UInt8) (fin : Bool) : Prog RxCredit Unit := do
  let rx ← load (·.sc.rx)
  when (rx.isNone) <| modify (createRx r)
  let pushed ← (if data = [] then pure 0 else (StreamBuf.push data).on rxLoc)
  if pushed ≠ data.length then modify fun s => { s with overflows := s.overflows + 1 }
  else do
    when fin <| StreamBuf.setFin.on rxLoc
    when (rx.isNone ∧ fin = false ∧ r.window < r.advertiseCap.toNat) firstGrant

/-- `stream_data` and `stream_fin` in `aiopquic_stream_cb`. One without bytes does not touch the
ring. -/
def streamCb (r : CreditSite) (data : List UInt8) (fin : Bool) : Prog RxCredit Unit := do
  modify (deliver data fin)
  if data = [] then pure () else receive r data fin

/-- `post_data` in `aiopquic_wt_path_callback`. -/
def postData (r : CreditSite) (data : List UInt8) : Prog RxCredit Unit := do
  modify (deliver data false)
  receive r data false

/-- `post_fin` in `aiopquic_wt_path_callback`. -/
def postFin (r : CreditSite) (data : List UInt8) : Prog RxCredit Unit := do
  modify (deliver data true)
  receive r data true

/-! ## The credit push -/

/-- The entry `aiopquic_push_fc_credit` pushes. -/
def creditEntry (r : CreditSite) : Entry where
  eventType := .txOpenFlowControl
  streamId := r.streamId
  cnx := r.cnx
  streamCtx := r.ptr

/-- `_push_fc_credit` has found enough consumed: it stores the mark and turns to the push. -/
def storeMark (consumed : ℕ) (s : RxCredit) : RxCredit :=
  { s with sc := { s.sc with lastFcPushConsumed := consumed }, owing := some s.ring.log.length }

/-- `_push_fc_credit`. -/
def pushFcCredit (r : CreditSite) : Prog RxCredit Unit := do
  let consumed ← load (·.sc.rxConsumed)
  let lastPush ← load (·.sc.lastFcPushConsumed)
  if consumed - lastPush < r.hysteresis then pure ()
  else do
    modify (storeMark consumed)
    -- a full ring drops the credit
    let _ ← (SpscRing.push (creditEntry r) []).on ringLoc
    modify fun s => { s with owing := none }

/-- The loop of `drain_rx`, over `n` notifications of the stream; whether one of them had bytes. -/
def drainEntries : ℕ → Bool → Prog RxCredit Bool
  | 0, noted => pure noted
  | n + 1, noted => do
    let data ← StreamCtx.popRx.on scLoc
    drainEntries n (noted || data.isSome)

/-- `drain_rx`. -/
def drain (r : CreditSite) (n : ℕ) : Prog RxCredit Unit := do
  let noted ← drainEntries n false
  when noted (pushFcCredit r)

/-- Any other command that the asyncio thread pushes. -/
def commandCall (e : Entry) (data : List UInt8) : Prog RxCredit Unit := do
  let _ ← (SpscRing.push e data).on ringLoc
  pure ()

/-! ## The worker's side -/

/-- A credit of the stream. -/
def IsCredit (r : CreditSite) (e : Entry) : Prop := e.eventType = .txOpenFlowControl ∧
    e.streamCtx = r.ptr

instance (r : CreditSite) (e : Entry) : Decidable (IsCredit r e) := inferInstanceAs
    (Decidable (_ ∧ _))

/-- The record that a grant has read the head. -/
def sample (r : CreditSite) (s : RxCredit) : RxCredit :=
  { s with sampled := if r.fcRaw then none else some s.sc.rxBuf.head }

/-- The grant of a `TX_OPEN_FLOW_CONTROL`, of a ring that has `free` bytes free. -/
def effectiveGrant (r : CreditSite) (free : ℕ) : Prog RxCredit ℕ :=
  if r.fcRaw then pure free
  else do
    let pending ← rmw (fun s => { s with sampled := none }) (·.sc.bytesPendingRelease)
    pure (if free ≤ pending then 0 else free - pending)

/-- The handler of `TX_OPEN_FLOW_CONTROL`. -/
def openCredit (r : CreditSite) : Prog RxCredit Unit := do
  let (isNone, fin) ← load fun s => (s.sc.rx.isNone, s.sc.rxBuf.finPending)
  if isNone ∨ fin then pure ()
  else do
    let free ← bufFree (sample r)
    let grant ← effectiveGrant r free
    when (0 < grant) <| modify (openFlowControl grant)

/-- The TX loop of `aiopquic_loop_cb`, for at most `n` entries, on a live connection. -/
def txDrain (r : CreditSite) : ℕ → Prog RxCredit Unit
  | 0 => pure ()
  | n + 1 => do
    let entry ← SpscRing.peek.on ringLoc
    match entry with
    | none => pure ()
    | some e => do
      when (IsCredit r e) (openCredit r)
      SpscRing.pop.on ringLoc
      txDrain r n

/-- Callbacks of a peer that keeps within the limit and sends nothing after the FIN; drains of both
rings; other commands. -/
inductive Menu (r : CreditSite) : Thread → RxCredit → Prog RxCredit Unit → Prop
  | stream (s : RxCredit) (data : List UInt8) (fin : Bool)
      (hlimit : s.received.length + data.length ≤ s.limit) (hfin : s.finished = false) :
      Menu r .worker s (streamCb r data fin)
  | postData (s : RxCredit) (data : List UInt8)
      (hlimit : s.received.length + data.length ≤ s.limit) (hfin : s.finished = false) :
      Menu r .worker s (postData r data)
  | postFin (s : RxCredit) (data : List UInt8)
      (hlimit : s.received.length + data.length ≤ s.limit) (hfin : s.finished = false) :
      Menu r .worker s (postFin r data)
  | txDrain (s : RxCredit) (n : ℕ) : Menu r .worker s (txDrain r n)
  | drain (s : RxCredit) (n : ℕ) : Menu r .asyncio s (drain r n)
  | command (s : RxCredit) (e : Entry) (data : List UInt8) (he : ¬ IsCredit r e) :
      Menu r .asyncio s (commandCall e data)

/-! ## The proof outline -/

/-- A credit of the stream with number `n` or a later one has been pushed. -/
def Pushed (r : CreditSite) (n : ℕ) (s : RxCredit) : Prop :=
  ∃ i e, n ≤ i ∧ s.ring.log[i]? = some e ∧ IsCredit r e

/-- A credit push has stored its mark, and its entry is not in the ring yet. -/
def Due (s : RxCredit) : Prop := s.owing = some s.ring.log.length

/-- The limit covers the mark, or a credit from number `n` on is on its way. -/
def Credited (r : CreditSite) (n : ℕ) (s : RxCredit) : Prop :=
  s.sc.lastFcPushConsumed + r.cap ≤ s.limit ∨ Pushed r n s ∨ Due s

/-- No credit push is done on a full TX event ring, and no grant reads the pending bytes of a pop
that came after its load of the head. -/
def Steady : Thread → RxCredit → Prop
  | .asyncio, s => Due s → s.ring.tail < s.ring.head + s.ring.geo.capacity
  | .worker, s => ∀ h, s.sampled = some h → s.sc.bytesPendingRelease = 0 ∨ s.sc.rxBuf.head = h

instance : (i : Thread) → (s : RxCredit) → Decidable (Steady i s)
  | .asyncio, s => inferInstanceAs (Decidable (s.owing = some s.ring.log.length → _))
  | .worker, s =>
    decidable_of_iff (∀ h ∈ s.sampled, s.sc.bytesPendingRelease = 0 ∨ s.sc.rxBuf.head = h) Iff.rfl

/-- What holds between any two steps; the last field of the runs with `strict`, which are steady. -/
structure Inv (r : CreditSite) (strict : Prop) (s : RxCredit) : Prop where
  ring : s.ring.Wf
  rx : s.sc.rxBuf.Wf
  cap : s.sc.rx.isSome = true → s.sc.rxBuf.geo.capacity = r.cap
  tail_le : s.sc.rxBuf.tail ≤ s.received.length
  received_le : s.received.length ≤ s.limit
  window_le : r.window ≤ s.limit
  counted : s.sc.rxConsumed + s.sc.bytesPendingRelease ≤ s.sc.rxBuf.head
  mark_le : s.sc.lastFcPushConsumed ≤ s.sc.rxConsumed
  fin : s.sc.rxBuf.finPending = true → s.finished = true
  limit_le : r.window ≤ r.cap → s.limit ≤ s.sc.rxBuf.head + r.cap
  overflows : r.window ≤ r.cap → s.overflows = 0
  credited : strict → s.sc.rx.isSome = true → s.sc.rxBuf.finPending = false → s.granting = false →
    Credited r s.ring.head s

/-- A step of the worker, as the asyncio thread sees it. -/
structure WorkerMoves (s s' : RxCredit) : Prop where
  sc : StreamCtx.RxFeeds s.sc s'.sc
  mark : s'.sc.lastFcPushConsumed = s.sc.lastFcPushConsumed
  ring : SpscRing.ConsumerMoves s.ring s'.ring
  owing : s'.owing = s.owing

/-- What the asyncio thread leaves alone. -/
structure Kept (s s' : RxCredit) : Prop where
  limit : s'.limit = s.limit
  overflows : s'.overflows = s.overflows
  received : s'.received = s.received
  finished : s'.finished = s.finished
  granting : s'.granting = s.granting
  sampled : s'.sampled = s.sampled

/-- A step of the asyncio thread, as the worker sees it: a new mark has a credit coming. -/
structure AsyncioMoves (r : CreditSite) (strict : Prop) (s s' : RxCredit) : Prop where
  isSome : s'.sc.rx.isSome = s.sc.rx.isSome
  buf : StreamBuf.ConsumerMoves s.sc.rxBuf s'.sc.rxBuf
  ring : SpscRing.ProducerMoves s.ring s'.ring
  kept : Kept s s'
  mark_le : s.sc.lastFcPushConsumed ≤ s'.sc.lastFcPushConsumed
  news : strict → s'.sc.lastFcPushConsumed = s.sc.lastFcPushConsumed ∨
    Pushed r s.ring.log.length s' ∨ Due s'
  due : strict → Due s → Pushed r s.ring.log.length s' ∨ Due s'

variable {r : CreditSite} {strict : Prop} {s s' : RxCredit} {e : Entry} {n : ℕ}

theorem Pushed.mono (h : Pushed r n s) (hm : SpscRing.ProducerMoves s.ring s'.ring) :
    Pushed r n s' := by
  obtain ⟨i, e, hi, he, hc⟩ := h
  obtain ⟨l, hl⟩ := hm.log
  refine ⟨i, e, hi, ?_, hc⟩
  rw [← hl, List.getElem?_append_left (List.getElem?_eq_some_iff.1 he).1]
  exact he

theorem Pushed.of_le {m : ℕ} (h : Pushed r n s) (hm : m ≤ n) : Pushed r m s := by
  obtain ⟨i, e, hi, he, hc⟩ := h
  exact ⟨i, e, hm.trans hi, he, hc⟩

theorem WorkerMoves.refl (s : RxCredit) : WorkerMoves s s := ⟨.refl _, rfl, .refl _, rfl⟩

theorem WorkerMoves.trans {u : RxCredit} (h : WorkerMoves s s') (h' : WorkerMoves s' u) :
    WorkerMoves s u :=
  ⟨h.sc.trans h'.sc, h'.mark.trans h.mark, h.ring.trans h'.ring, h'.owing.trans h.owing⟩

theorem Kept.refl (s : RxCredit) : Kept s s := ⟨rfl, rfl, rfl, rfl, rfl, rfl⟩

theorem Kept.trans {u : RxCredit} (h : Kept s s') (h' : Kept s' u) : Kept s u :=
  ⟨h'.limit.trans h.limit, h'.overflows.trans h.overflows, h'.received.trans h.received,
    h'.finished.trans h.finished, h'.granting.trans h.granting, h'.sampled.trans h.sampled⟩

theorem AsyncioMoves.refl (s : RxCredit) : AsyncioMoves r strict s s :=
  ⟨rfl, .refl _, .refl _, .refl _, le_rfl, fun _ => .inl rfl, fun _ => .inr⟩

/-- A credit that is coming stays so. -/
theorem AsyncioMoves.announced (h : AsyncioMoves r strict s s') (hst : strict)
    (hn : n ≤ s.ring.log.length) (hs : Pushed r n s ∨ Due s) : Pushed r n s' ∨ Due s' := by
  rcases hs with hs | hs
  · exact .inl (hs.mono h.ring)
  · exact (h.due hst hs).imp_left (·.of_le hn)

theorem AsyncioMoves.trans {u : RxCredit} (h : AsyncioMoves r strict s s')
    (h' : AsyncioMoves r strict s' u) : AsyncioMoves r strict s u := by
  have hlen := h.ring.log.length_le
  refine ⟨h'.isSome.trans h.isSome, h.buf.trans h'.buf, h.ring.trans h'.ring, h.kept.trans h'.kept,
    h.mark_le.trans h'.mark_le, fun hst => ?_, fun hst hd => h'.announced hst hlen (h.due hst hd)⟩
  rcases h'.news hst with heq | hp | hd
  · rcases h.news hst with heq' | hc
    · exact .inl (heq.trans heq')
    · exact .inr (h'.announced hst hlen hc)
  · exact .inr (.inl (hp.of_le hlen))
  · exact .inr (.inr hd)

/-- What was credited stays credited. -/
theorem Credited.stable (h : Credited r n s) (hst : strict) (hn : n ≤ s.ring.log.length)
    (hm : AsyncioMoves r strict s s') : Credited r n s' := by
  rcases h with h | h
  · rcases hm.news hst with heq | hp | hd
    · refine .inl ?_
      rw [heq, hm.kept.limit]
      exact h
    · exact .inr (.inl (hp.of_le hn))
    · exact .inr (.inr hd)
  · exact .inr (hm.announced hst hn h)

/-- No callback and no grant is under way. -/
structure Settled (r : CreditSite) (s : RxCredit) : Prop where
  sampled : s.sampled = none
  granting : s.granting = true → s.sc.rxBuf.finPending = true
  fresh : s.sc.rx = none → s.limit = r.window ∧ s.received = []
  bytes : r.window ≤ r.cap → s.sc.rxBytes = s.received

/-- The worker outside an operation. -/
structure WorkerIdle (r : CreditSite) (s : RxCredit) : Prop extends Settled r s where
  claimed : s.ring.claimed = false

/-- The asyncio thread outside an operation. -/
structure AsyncioIdle (r : CreditSite) (s : RxCredit) : Prop where
  owing : s.owing = none
  pending : s.sc.bytesPendingRelease = 0
  drained : s.sc.rxBuf.head = s.sc.rxConsumed
  marked : s.sc.rxConsumed ≤ s.sc.lastFcPushConsumed + r.hysteresis

theorem AsyncioMoves.rx_eq_none (hm : AsyncioMoves r strict s s') (h : s'.sc.rx = none) :
    s.sc.rx = none := by
  have := hm.isSome
  rw [h] at this
  simpa using this.symm

theorem Settled.stable (h : Settled r s) (hm : AsyncioMoves r strict s s') : Settled r s' := by
  refine ⟨hm.kept.sampled.trans h.sampled, fun hg => ?_, fun hn => ?_, fun hw => ?_⟩
  · rw [hm.buf.fin]
    exact h.granting (hm.kept.granting.symm.trans hg)
  · rw [hm.kept.limit, hm.kept.received]
    exact h.fresh (hm.rx_eq_none hn)
  · rw [hm.kept.received, ← h.bytes hw]
    exact congrArg List.flatten hm.buf.writes

theorem WorkerIdle.stable (h : WorkerIdle r s) (hm : AsyncioMoves r strict s s') :
    WorkerIdle r s' :=
  ⟨h.toSettled.stable hm, hm.ring.claimed.trans h.claimed⟩

theorem AsyncioIdle.stable (h : AsyncioIdle r s) (hm : WorkerMoves s s') : AsyncioIdle r s' := by
  refine ⟨hm.owing.trans h.owing, hm.sc.pending.trans h.pending, ?_, ?_⟩
  · rw [hm.sc.head, hm.sc.consumed]
    exact h.drained
  · rw [hm.sc.consumed, hm.mark]
    exact h.marked

/-- The rely–guarantee outline. -/
def outline (r : CreditSite) (strict : Prop) : Outline (Menu r) :=
  { (duo (Inv r strict) WorkerMoves (AsyncioMoves r strict) (WorkerIdle r) (AsyncioIdle r)
    .refl .trans
      .refl .trans (fun h hm _ => h.stable hm) (fun h hm _ => h.stable hm) : Outline (Menu r)) with
    may := fun i s => strict → Steady i s }

end RxCredit

end Aiopquic
