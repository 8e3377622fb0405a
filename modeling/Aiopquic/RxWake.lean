import Aiopquic.RxQueue
import Aiopquic.Threads

/-!
# Waking asyncio for RX events (`callback.h`)

The worker pushes an event and then notifies: it writes the wake fd only when it turns
`rx_notify_pending` from 0 to 1. The consumer drains, reads the fd empty, clears the flag, and
writes the fd again if the ring or the overflow still holds something.

`WakeCtx` is the part of `aiopquic_ctx_t` these functions use; the fd is its counter. The section
variables record how far the notifications have got: `notified` counts the entries whose push has
done its exchange, `owesWrite` is set between the exchange and the write it decided on, and `clear`
is the phase of `aiopquic_clear_rx`.
-/

namespace Aiopquic

open Interleave Interleave.Prog Circular RxQueue

/-! ## Draining the queue -/

/-- The loop of `drain_rx` and `drain_rx_callback` over at most `maxEvents` entries: `process`
handles an entry and pops it; an empty ring is refilled, and the loop ends when that moves
nothing. -/
def drainLoop {σ : Type} (L : Loc σ RxQueue) (process : Entry → Prog σ Unit) : ℕ → Prog σ Unit
  | 0 => pure ()
  | maxEvents + 1 => do
    let entry ← peek.on L
    match entry with
    | none => do
      let moved ← refill.on L
      if moved = 0 then pure () else drainLoop L process maxEvents
    | some e => do
      process e
      drainLoop L process maxEvents

/-- A loop that keeps `P` whenever peeking, refilling and processing do. -/
theorem drainLoop_spec {σ : Type} {C : Contract σ} {L : Loc σ RxQueue}
    {process : Entry → Prog σ Unit}
    {P : σ → Prop} {R : Entry → σ → Prop}
    (hpeek : ∀ s, C.inv s → P s →
      wp C (peek.on L) (fun o t => match o with | none => P t | some e => R e t) s)
    (hrefill : ∀ s, C.inv s → P s → wp C (refill.on L) (fun _ => P) s)
    (hproc : ∀ e s, C.inv s → R e s → wp C (process e) (fun _ => P) s)
    (n : ℕ) {s : σ} (hs : C.inv s) (hP : P s) : wp C (drainLoop L process n) (fun _ => P) s := by
  induction n generalizing s with
  | zero => exact hP
  | succ n ih =>
    unfold drainLoop
    refine wp_seq (hpeek s hs hP) hs fun o t ht hPt => ?_
    cases o with
    | none =>
      refine wp_seq (hrefill t ht hPt) ht fun moved u hu hPu => ?_
      split
      · exact hPu
      · exact ih hu hPu
    | some e => exact wp_seq (hproc e t ht hPt) ht fun _ u hu hPu => ih hu hPu

/-- What is done with an entry that carries no stream bytes: take its payload, if it owns one, and
pop it. -/
def consume {σ : Type} (L : Loc σ RxQueue) (e : Entry) : Prog σ Unit := do
  when e.Frees <| (takeData e).on L
  pop.on L

/-! ## The wake flag -/

/-- Where the consumer is in `aiopquic_clear_rx`. -/
inductive ClearPhase
  /-- outside, or before the read -/
  | out
  /-- the fd is read, the flag not yet cleared -/
  | read
  /-- the flag is cleared, at a time when `n` entries had been notified -/
  | cleared (n : ℕ)
  deriving DecidableEq

/-- The RX side of `aiopquic_ctx_t`. -/
structure WakeCtx where
  q : RxQueue
  rxNotifyPending : Bool
  eventfd : ℕ
  workerRxEventDrops : ℕ
  notified : ℕ
  owesWrite : Bool
  clear : ClearPhase

namespace WakeCtx

/-- A fresh context on a ring of the given geometry. -/
def create (geo : Geometry) : WakeCtx := ⟨.create geo, false, 0, 0, 0, false, .out⟩

/-- The event queue of the context. -/
def qLoc : Loc WakeCtx RxQueue where
  get := (·.q)
  set := fun q s => { s with q := q }
  get_set := fun _ _ => rfl

/-- The exchange of `rx_notify_pending` to 1 by the worker. -/
def setPending (s : WakeCtx) : WakeCtx :=
  { s with
    rxNotifyPending := true
    notified := s.q.accepted.length
    owesWrite := !s.rxNotifyPending }

/-- The worker's write to the wake fd. -/
def workerWrite (s : WakeCtx) : WakeCtx := { s with eventfd := s.eventfd + 1, owesWrite := false }

/-- `aiopquic_notify_rx`. -/
def notifyRx : Prog WakeCtx Unit := do
  let was ← rmw setPending (·.rxNotifyPending)
  if was then pure () else modify workerWrite

/-- `aiopquic_rx_push`. -/
def rxPush (entry : Entry) (data : List UInt8) : Prog WakeCtx ℤ := do
  let rc ← (pushOrOverflow entry data).on qLoc
  if rc < 0 then do
    modify fun s => { s with workerRxEventDrops := s.workerRxEventDrops + 1 }
    pure rc
  else do
    notifyRx
    pure 0

/-- The read that empties the eventfd. -/
def readFd (s : WakeCtx) : WakeCtx := { s with eventfd := 0, clear := .read }

/-- The exchange of `rx_notify_pending` to 0 by the consumer. -/
def clearPending (s : WakeCtx) : WakeCtx :=
  { s with rxNotifyPending := false, clear := .cleared s.notified }

/-- The consumer's write to the wake fd. -/
def rearm (s : WakeCtx) : WakeCtx := { s with eventfd := s.eventfd + 1, clear := .out }

/-- The return of `aiopquic_clear_rx` without a write. -/
def leave (s : WakeCtx) : WakeCtx := { s with clear := .out }

/-- `aiopquic_clear_rx`. -/
def clearRx : Prog WakeCtx Unit := do
  let _ ← refill.on qLoc
  modify readFd
  modify clearPending
  let left ← count.on qLoc
  if 0 < left then modify rearm
  else do
    let depth ← load (·.q.ovf.depth)
    if 0 < depth then modify rearm else modify leave

/-- A drain of at most `maxEvents` entries. -/
def drain (maxEvents : ℕ) : Prog WakeCtx Unit := do
  let _ ← refill.on qLoc
  drainLoop qLoc (consume qLoc) maxEvents
  clearRx

/-- A drain that a raising handler cuts short after some entries: the flag is not cleared. -/
def abortedDrain (maxEvents : ℕ) : Prog WakeCtx Unit := do
  let _ ← refill.on qLoc
  drainLoop qLoc (consume qLoc) maxEvents

/-- A push as an operation of its own. -/
def pushCall (entry : Entry) (data : List UInt8) : Prog WakeCtx Unit := do
  let _ ← rxPush entry data
  pure ()

/-- What each thread may do. -/
inductive Menu : Thread → WakeCtx → Prog WakeCtx Unit → Prop
  | push (s : WakeCtx) (entry : Entry) (data : List UInt8) : Menu .worker s (pushCall entry data)
  | drain (s : WakeCtx) (maxEvents : ℕ) : Menu .asyncio s (drain maxEvents)
  | abortedDrain (s : WakeCtx) (maxEvents : ℕ) : Menu .asyncio s (abortedDrain maxEvents)

/-! ## The proof outline -/

/-- What holds between any two steps. -/
structure Inv (s : WakeCtx) : Prop where
  queue : s.q.Inv
  /-- An entry is notified only after it is counted. -/
  counted : s.notified + s.q.insertOwed.toNat ≤ s.q.accepted.length
  /-- A set flag stands for a write, done or owed, unless the consumer is about to clear it. -/
  flag : s.rxNotifyPending = true → s.eventfd = 0 → s.owesWrite = true ∨ s.clear = .read
  /-- A notified entry keeps a wake alive. -/
  wake : s.q.ring.head < s.notified → s.rxNotifyPending = true ∨ 0 < s.eventfd ∨ s.clear ≠ .out
  /-- A notification after the consumer's exchange set the flag again. -/
  later : ∀ n, s.clear = .cleared n → n < s.notified → s.rxNotifyPending = true

/-- A step of the worker. -/
structure WorkerMoves (s t : WakeCtx) : Prop where
  queue : ProducerMoves s.q t.q
  clear : t.clear = s.clear
  notified : s.notified ≤ t.notified

/-- A step of the asyncio thread. -/
structure AsyncioMoves (s t : WakeCtx) : Prop where
  queue : ConsumerMoves s.q t.q
  notified : t.notified = s.notified
  owesWrite : t.owesWrite = s.owesWrite

theorem WorkerMoves.refl (s : WakeCtx) : WorkerMoves s s := ⟨.refl _, rfl, le_rfl⟩

theorem WorkerMoves.trans {s t u : WakeCtx} (h : WorkerMoves s t) (h' : WorkerMoves t u) :
    WorkerMoves s u :=
  ⟨h.queue.trans h'.queue, h'.clear.trans h.clear, h.notified.trans h'.notified⟩

theorem AsyncioMoves.refl (s : WakeCtx) : AsyncioMoves s s := ⟨.refl _, rfl, rfl⟩

theorem AsyncioMoves.trans {s t u : WakeCtx} (h : AsyncioMoves s t) (h' : AsyncioMoves t u) :
    AsyncioMoves s u :=
  ⟨h.queue.trans h'.queue, h'.notified.trans h.notified, h'.owesWrite.trans h.owesWrite⟩

/-- The worker outside a push. -/
structure WorkerIdle (s : WakeCtx) : Prop where
  insertOwed : s.q.insertOwed = false
  writing : s.q.ring.writing = false
  owesWrite : s.owesWrite = false
  notified : s.notified = s.q.accepted.length

/-- The asyncio thread outside a drain, or in one and not in `aiopquic_clear_rx`. -/
structure AsyncioIdle (s : WakeCtx) : Prop where
  settled : Settled s.q
  claimed : s.q.ring.claimed = false
  clear : s.clear = .out

theorem WorkerIdle.stable {s t : WakeCtx} (h : WorkerIdle s) (hm : AsyncioMoves s t) :
    WorkerIdle t :=
  ⟨hm.queue.insertOwed.trans h.insertOwed, hm.queue.writing.trans h.writing,
    hm.owesWrite.trans h.owesWrite, by rw [hm.notified, hm.queue.accepted, h.notified]⟩

theorem AsyncioIdle.stable {s t : WakeCtx} (h : AsyncioIdle s) (hm : WorkerMoves s t) :
    AsyncioIdle t :=
  ⟨h.settled.stable hm.queue, hm.queue.claimed.trans h.claimed,
    hm.clear.trans h.clear⟩

/-- The rely–guarantee outline. -/
def outline : Outline Menu :=
  duo Inv WorkerMoves AsyncioMoves WorkerIdle AsyncioIdle .refl .trans .refl .trans
    (fun h hm _ => h.stable hm) (fun h hm _ => h.stable hm)

/-- The queue during a push that found `n` entries. -/
theorem embeds_worker {n : ℕ} {P : Entry → Prop} :
    Embeds (outline.contract .worker) qLoc (producer n P)
      (fun s => s.owesWrite = false ∧ s.notified ≤ n ∧ n ≤ s.q.accepted.length) where
  inv := fun s hs => hs.queue
  rely := by
    rintro s t ⟨ho, hn, hle⟩ hm -
    exact ⟨hm.queue, hm.owesWrite.trans ho, by rw [hm.notified]; exact hn,
      by rw [hm.queue.accepted]; exact hle⟩
  step := by
    rintro s q hs ⟨ho, hn, hle⟩ hg hq
    have hlen : s.q.accepted.length ≤ q.accepted.length := hg.moves.accepted.length_le
    refine ⟨⟨hg.moves, rfl, le_rfl⟩, ⟨hq, ?_, hs.flag, ?_, hs.later⟩, ho, hn, hle.trans hlen⟩
    · show s.notified + q.insertOwed.toNat ≤ q.accepted.length
      rcases hg.insertOwed with h | h | h
      · have := hs.counted
        rw [h]
        exact this.trans hlen
      · rw [h, Bool.toNat_false]
        omega
      · have := Bool.toNat_le q.insertOwed
        omega
    · show q.ring.head < s.notified → _
      rw [hg.moves.head]
      exact hs.wake

/-- The queue during a call of the consumer, in one phase of `aiopquic_clear_rx`. -/
theorem embeds_asyncio (phase : ClearPhase) (h : Option ℕ) :
    Embeds (outline.contract .asyncio) qLoc (consumer h) (fun s => s.clear = phase) where
  inv := fun s hs => hs.queue
  rely := fun s t hc hm _ => ⟨hm.queue, hm.clear.trans hc⟩
  step := by
    rintro s q hs hc hg hq
    have hacc := hg.moves.accepted
    refine ⟨⟨hg.moves, rfl, rfl⟩, ⟨hq, ?_, hs.flag, ?_, hs.later⟩, hc⟩
    · show s.notified + q.insertOwed.toNat ≤ q.accepted.length
      rw [hg.moves.insertOwed, hacc]
      exact hs.counted
    · show q.ring.head < s.notified → _
      have hle : s.q.ring.head ≤ q.ring.head := hg.moves.head_le
      exact fun hlt => hs.wake (hle.trans_lt hlt)

/-! ## Every operation keeps the outline -/

/-- `rxPush` puts the event into the queue and notifies it. -/
theorem rxPush_spec {s : WakeCtx} (P : Entry → Prop) {entry : Entry} {data : List UInt8}
    (hslot : P (slot entry data)) (hnode : P (node entry data)) (hs : Inv s)
    (hidle : WorkerIdle s) :
    wp (outline.contract .worker) (rxPush entry data)
      (fun rc t => rc = 0 ∧ WorkerIdle t ∧ ∃ e, P e ∧ t.q.accepted = s.q.accepted ++ [e]) s := by
  unfold rxPush
  have hspec := pushOrOverflow_spec P entry data hslot hnode hs.queue hidle.insertOwed hidle.writing
  refine wp_seq (wp_on (embeds_worker (n := s.q.accepted.length) (P := P))
    ⟨hidle.owesWrite, hidle.notified.le, le_rfl⟩ hspec) hs fun rc t ht h => ?_
  obtain ⟨⟨hrc, hpushed⟩, howes, -, -⟩ := h
  obtain ⟨e, he, hacc⟩ := hpushed.accepted
  rw [if_neg (by omega)]
  unfold notifyRx
  simp only [bind_assoc]
  -- the exchange: from here on every entry is notified
  refine wp_rmw_bind fun u htu hu => ?_
  have hio : u.q.insertOwed = false := htu.queue.insertOwed.trans hpushed.insertOwed
  have hwr : u.q.ring.writing = false := htu.queue.writing.trans hpushed.writing
  have hacc : u.q.accepted = s.q.accepted ++ [e] := htu.queue.accepted.trans hacc
  have hcount := hu.counted
  rw [hio, Bool.toNat_false] at hcount
  refine ⟨⟨.refl _, rfl, hcount⟩, ⟨hu.queue, ?_, ?_, ?_, ?_⟩, ?_⟩
  · simp [setPending, hio]
  · intro _ hfd
    cases hp : u.rxNotifyPending with
    | false => exact .inl (by simp [setPending, hp])
    | true =>
      have hown : u.owesWrite = false := htu.owesWrite.trans howes
      rcases hu.flag hp hfd with h | h
      · exact absurd (hown.symm.trans h) (by simp)
      · exact .inr h
  · exact fun _ => .inl rfl
  · exact fun _ _ _ => rfl
  cases hp : u.rxNotifyPending with
  | true => exact ⟨rfl, ⟨hio, hwr, by simp [setPending, hp], rfl⟩, e, he, hacc⟩
  | false =>
    refine wp_modify_bind fun w huw hw => ?_
    refine ⟨⟨.refl _, rfl, le_rfl⟩, ⟨hw.queue, hw.counted, ?_, ?_, hw.later⟩, rfl, ?_, e, he,
      huw.queue.accepted.trans hacc⟩
    · intro _ hfd
      simp [workerWrite] at hfd
    · exact fun _ => .inr (.inl (Nat.succ_pos _))
    · exact ⟨huw.queue.insertOwed.trans hio, huw.queue.writing.trans hwr, rfl,
        huw.notified.trans (by rw [workerWrite, huw.queue.accepted]; rfl)⟩

theorem pushCall_spec {s : WakeCtx} {entry : Entry} {data : List UInt8} (hs : Inv s)
    (hidle : WorkerIdle s) :
    wp (outline.contract .worker) (pushCall entry data) (fun _ => WorkerIdle) s :=
  wp_seq (rxPush_spec (fun _ => True) trivial trivial hs hidle) hs fun _ _ _ h => h.2.1

/-- A refill keeps the consumer idle. -/
theorem refill_idle {s : WakeCtx} (hs : Inv s) (hidle : AsyncioIdle s) :
    wp (outline.contract .asyncio) (refill.on qLoc) (fun _ => AsyncioIdle) s := by
  refine wp_mono (wp_on (embeds_asyncio .out none) hidle.clear (refill_spec hidle.settled)) hs
    fun _ t _ h => ?_
  obtain ⟨hr, hc⟩ := h
  exact ⟨hr.settled, hr.claimed.trans hidle.claimed, hc⟩

/-- The consumer has peeked an entry. -/
structure Peeked (s : WakeCtx) : Prop extends AsyncioIdle s where
  nonempty : s.q.ring.head < s.q.ring.tail

theorem peek_idle {s : WakeCtx} (hs : Inv s) (hidle : AsyncioIdle s) :
    wp (outline.contract .asyncio) (peek.on qLoc)
      (fun o t => match o with | none => AsyncioIdle t | some _ => Peeked t) s := by
  refine wp_mono (wp_on (embeds_asyncio .out none) hidle.clear
    (peek_spec hs.queue hidle.settled hidle.claimed)) hs fun o t ht h => ?_
  obtain ⟨⟨hr, ho⟩, hc⟩ := h
  have hidle' : AsyncioIdle t := ⟨hr.settled, hr.claimed.trans hidle.claimed, hc⟩
  cases o with
  | none => exact hidle'
  | some e =>
    refine ⟨hidle', ?_⟩
    have hlt := (List.getElem?_eq_some_iff.1 ho).1
    rw [← hr.head] at hlt
    exact hlt.trans_eq ht.queue.ring.length

theorem pop_idle {s : WakeCtx} (hs : Inv s) (hset : Settled s.q) (hc : s.clear = .out)
    (hlt : s.q.ring.head < s.q.ring.tail) :
    wp (outline.contract .asyncio) (pop.on qLoc) (fun _ => AsyncioIdle) s := by
  refine wp_mono (wp_on (embeds_asyncio .out (some s.q.ring.head)) hc
    (RxQueue.pop_spec hs.queue hset hlt)) hs fun _ t _ h => ?_
  obtain ⟨hp, hc'⟩ := h
  exact ⟨hp.settled, hp.claimed, hc'⟩

theorem consume_idle {e : Entry} {s : WakeCtx} (hs : Inv s) (hp : Peeked s) :
    wp (outline.contract .asyncio) (consume qLoc e) (fun _ => AsyncioIdle) s := by
  unfold consume
  refine wp_when_bind (fun _ => ?_) (fun _ => pop_idle hs hp.settled hp.clear hp.nonempty)
  refine wp_seq (wp_on (embeds_asyncio .out none) hp.clear
    (takeData_spec hs.queue hp.settled hp.nonempty)) hs fun _ t ht h => ?_
  obtain ⟨⟨hset, -, hlt, -⟩, hc⟩ := h
  exact pop_idle ht hset hc hlt

theorem drainLoop_idle (maxEvents : ℕ) {s : WakeCtx} (hs : Inv s) (hidle : AsyncioIdle s) :
    wp (outline.contract .asyncio) (drainLoop qLoc (consume qLoc) maxEvents) (fun _ => AsyncioIdle)
    s :=
  drainLoop_spec (R := fun _ => Peeked) (fun _ hs h => peek_idle hs h)
    (fun _ hs h => refill_idle hs h)
    (fun _ _ hs h => consume_idle hs h) maxEvents hs hidle

/-- What the re-check may conclude from an empty ring: an entry notified before the exchange is
counted in `depth`. -/
theorem notified_le {s : WakeCtx} (hs : Inv s) (hset : Settled s.q)
    (hempty : s.q.ring.tail ≤ s.q.ring.head) : s.notified ≤ s.q.ring.head + s.q.ovf.depth := by
  have hcount := hs.counted
  have hdepth := hs.queue.depth
  rw [hset.transit, hset.refillOwed, Option.toList_none, Bool.toNat_false] at hdepth
  rw [accepted, hset.transit, Option.toList_none, List.append_nil, List.length_append,
    hs.queue.ring.length] at hcount
  simp only [List.length_nil] at hdepth
  omega

/-- `aiopquic_clear_rx` loses no wake. -/
theorem clearRx_spec {s : WakeCtx} (hs : Inv s) (hidle : AsyncioIdle s) :
    wp (outline.contract .asyncio) clearRx (fun _ => AsyncioIdle) s := by
  unfold clearRx
  refine wp_seq (refill_idle hs hidle) hs fun _ t ht hidle => ?_
  refine wp_modify_bind fun u htu hu => ⟨⟨.refl _, rfl, rfl⟩, ⟨hu.queue, hu.counted,
    fun _ _ => .inr rfl, fun _ => .inr (.inr (by simp [readFd])), by simp [readFd]⟩, ?_⟩
  have hidle := hidle.stable htu
  refine wp_modify_bind fun v huv hv => ⟨⟨.refl _, rfl, rfl⟩, ⟨hv.queue, hv.counted,
    by simp [clearPending], fun _ => .inr (.inr (by simp [clearPending])), ?_⟩, ?_⟩
  · intro n hn hlt
    simp only [clearPending, ClearPhase.cleared.injEq] at hn hlt
    omega
  have hset : Settled v.q := hidle.settled.stable huv.queue
  have hcl : v.q.ring.claimed = false := huv.queue.claimed.trans hidle.claimed
  have hv' : Inv v.clearPending := by
    refine ⟨hv.queue, hv.counted, by simp [clearPending],
      fun _ => .inr (.inr (by simp [clearPending])), fun n hn hlt => ?_⟩
    simp only [clearPending, ClearPhase.cleared.injEq] at hn hlt
    omega
  -- the two ways out: a write keeps the wake, and without one nothing notified is left
  have hrearm : ∀ w, Settled w.q → w.q.ring.claimed = false →
      wp (outline.contract .asyncio) (modify rearm) (fun _ => AsyncioIdle) w := by
    intro w hw hwc
    refine wp_modify fun x hwx hx => ⟨⟨.refl _, rfl, rfl⟩, ⟨hx.queue, hx.counted, ?_, ?_, ?_⟩, ?_⟩
    · intro _ hfd
      simp [rearm] at hfd
    · exact fun _ => .inr (.inl (Nat.succ_pos _))
    · simp [rearm]
    · exact ⟨hw.stable hwx.queue, hwx.queue.claimed.trans hwc, rfl⟩
  refine wp_seq (wp_on (embeds_asyncio (.cleared v.notified) none) rfl
    (count_spec hv.queue hset)) hv' fun left w hw h => ?_
  obtain ⟨⟨hr, hleft, hdepth⟩, hclear⟩ := h
  have hwset : Settled w.q := hr.settled
  have hwcl : w.q.ring.claimed = false := hr.claimed.trans hcl
  split
  · exact hrearm w hwset hwcl
  rename_i hzero
  refine wp_load_bind fun x hwx hx => ?_
  have hxset := hwset.stable hwx.queue
  have hxcl := hwx.queue.claimed.trans hwcl
  split
  · exact hrearm x hxset hxcl
  rename_i hd
  have hle : v.notified ≤ v.q.ring.head + v.q.ovf.depth := by
    refine notified_le hv hset ?_
    have : v.q.ring.tail - v.q.ring.head ≤ left := hleft
    omega
  have hd0 : v.q.ovf.depth = 0 := by
    have h₁ : v.q.ovf.depth ≤ w.q.ovf.depth := hdepth
    have h₂ := hwx.queue.depth_le
    omega
  refine wp_modify fun y hxy hy => ?_
  have hyclear : y.clear = .cleared v.notified := (hxy.clear.trans hwx.clear).trans hclear
  have hyhead : y.q.ring.head = v.q.ring.head :=
    (hxy.queue.head.trans hwx.queue.head).trans hr.head
  refine ⟨⟨.refl _, rfl, rfl⟩, ⟨hy.queue, hy.counted, fun hp hfd => ?_, fun hlt => ?_, ?_⟩, ?_⟩
  · rcases hy.flag hp hfd with h | h
    · exact .inl h
    · rw [hyclear] at h
      exact absurd h (by simp)
  · refine .inl (hy.later _ hyclear ?_)
    have hlt' : y.q.ring.head < y.notified := hlt
    omega
  · simp [leave]
  · exact ⟨hxset.stable hxy.queue, hxy.queue.claimed.trans hxcl, rfl⟩

theorem abortedDrain_spec (maxEvents : ℕ) {s : WakeCtx} (hs : Inv s) (hidle : AsyncioIdle s) :
    wp (outline.contract .asyncio) (abortedDrain maxEvents) (fun _ => AsyncioIdle) s := by
  unfold abortedDrain
  exact wp_seq (refill_idle hs hidle) hs fun _ t ht h => drainLoop_idle maxEvents ht h

theorem drain_spec (maxEvents : ℕ) {s : WakeCtx} (hs : Inv s) (hidle : AsyncioIdle s) :
    wp (outline.contract .asyncio) (drain maxEvents) (fun _ => AsyncioIdle) s := by
  unfold drain
  refine wp_seq (refill_idle hs hidle) hs fun _ t ht h => ?_
  exact wp_seq (drainLoop_idle maxEvents ht h) ht fun _ u hu h => clearRx_spec hu h

theorem outline_sound : outline.Sound := by
  rintro i s p hs hidle hp
  cases hp with
  | push _ entry data => exact pushCall_spec hs hidle
  | drain _ maxEvents => exact drain_spec maxEvents hs hidle
  | abortedDrain _ maxEvents => exact abortedDrain_spec maxEvents hs hidle

theorem create_inv (geo : Geometry) : Inv (create geo) :=
  ⟨RxQueue.create_inv geo, le_rfl, by simp [create], by simp [create], by simp [create]⟩

theorem create_idle (geo : Geometry) (i : Thread) : outline.idle i (create geo) := by
  cases i with
  | worker => exact ⟨rfl, rfl, rfl, rfl⟩
  | asyncio => exact ⟨⟨rfl, rfl, rfl⟩, rfl, rfl⟩

/-- The ring or the overflow holds an entry. -/
def Pending (s : WakeCtx) : Prop :=
  s.q.ring.head ≠ s.q.ring.tail ∨ s.q.ovf.list ≠ [] ∨ s.q.ovf.depth ≠ 0

/-- No wake is lost: with both threads outside an operation, queued events have a readable wake fd,
and a set flag never stands without one. -/
theorem rx_wake_not_lost (geo : Geometry) {c : Config Thread WakeCtx}
    (hc : Reachable Menu (create geo) c) (hw : c.Idle .worker) (ha : c.Idle .asyncio) :
    (c.mem.Pending → 0 < c.mem.eventfd) ∧ ¬ (c.mem.rxNotifyPending = true ∧ c.mem.eventfd = 0) := by
  have h := outline.reachable outline_sound (create_inv geo) (create_idle geo) hc
  have hinv : Inv c.mem := h.1
  have hwi : WorkerIdle c.mem := h.idle hw
  have hai : AsyncioIdle c.mem := h.idle ha
  have hflag : ¬ (c.mem.rxNotifyPending = true ∧ c.mem.eventfd = 0) := by
    rintro ⟨hp, hfd⟩
    rcases hinv.flag hp hfd with h | h
    · exact absurd (hwi.owesWrite.symm.trans h) (by simp)
    · exact absurd (hai.clear.symm.trans h) (by simp)
  refine ⟨fun hpend => ?_, hflag⟩
  have hlt : c.mem.q.ring.head < c.mem.notified := by
    have hdepth := hinv.queue.depth
    have hle := hinv.queue.ring.head_le
    rw [hai.settled.transit, hai.settled.refillOwed, hwi.insertOwed] at hdepth
    rw [hwi.notified, accepted, hai.settled.transit, List.length_append, List.length_append,
      hinv.queue.ring.length]
    simp only [Option.toList_none, List.length_nil, Bool.toNat_false] at hdepth ⊢
    rcases hpend with h | h | h
    · omega
    · have := List.length_pos_iff.2 h
      omega
    · omega
  rcases hinv.wake hlt with h | h | h
  · exact Nat.pos_of_ne_zero fun hfd => hflag ⟨h, hfd⟩
  · exact h
  · exact absurd hai.clear h

/-- A push that races a drain: the drain has popped the first entry and read the fd, the push finds
the flag still set and skips its write, and the re-check of the drain finds the second entry. -/
def racedRun : Config Thread WakeCtx :=
  ((((((Config.start (create (.ofExp 1 Geometry.exp_one))).call .worker
    (pushCall { streamId := 4 } [])).drive
    (.replicate 8 .worker)).call .asyncio (drain 1)).drive (.replicate 11 .asyncio)).call .worker
    (pushCall { streamId := 8 } [])).drive (.replicate 9 .worker ++ .replicate 9 .asyncio)

theorem rx_wake_not_lost_racedRun : racedRun.mem.Pending ∧ 0 < racedRun.mem.eventfd := by
  have h₁ : Reachable Menu (create (.ofExp 1 (by decide)))
    (Config.start (create (.ofExp 1 (by decide)))) :=
    .refl
  have h₂ := (h₁.call (i := .worker) rfl (.push _ { streamId := 4 } [])).drive
    (.replicate 8 .worker)
  have h₃ := (h₂.call (i := .asyncio) rfl (.drain _ 1)).drive (.replicate 11 .asyncio)
  have h₄ := (h₃.call (i := .worker) rfl (.push _ { streamId := 8 } [])).drive
    (.replicate 9 .worker ++ .replicate 9 .asyncio)
  have hpend : racedRun.mem.Pending := .inl (by decide)
  exact ⟨hpend, (rx_wake_not_lost _ h₄ rfl rfl).1 hpend⟩

end WakeCtx

end Aiopquic
