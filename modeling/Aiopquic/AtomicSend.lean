import Aiopquic.StreamCtx
import Aiopquic.SpscRing
import Aiopquic.Threads
import Aiopquic.TxActive

/-!
# One write of `tx_send_atomic` or `push_stream_data` (`_transport.pyx`, `stream_ctx.h`)

A write checks that the TX event ring has room, commits its bytes to `sc->tx`, counts them, and
pushes a `TX_MARK_ACTIVE`. The asyncio thread is the only producer of both rings; the worker pops
from both in between. Each write is recorded with what stood before and after it on the producer's
side.

The length of `data` is narrowed to `uint32_t`, so the call passes on the first `len(data) mod 2^32`
bytes. References to the context and the wake-up of the worker play no part here.
-/

namespace Aiopquic

open Interleave Interleave.Prog Circular

/-- What the producer has put out: the bytes, tail and FIN flag of `sc->tx`, the process's counter
of pushed bytes, and the TX event ring's entries. -/
structure Standing where
  bytes : List UInt8
  tail : ℕ
  fin : Bool
  pushedBytes : ℕ
  log : List Entry
  ringTail : ℕ
  deriving DecidableEq

/-- The same after a write of `data` and a mark. -/
def Standing.committed (st : Standing) (data : List UInt8) (endStream : Bool) (mark : Entry) :
    Standing :=
  ⟨st.bytes ++ data, st.tail + data.length, st.fin || endStream, st.pushedBytes + data.length,
    st.log ++ [mark], st.ringTail + 1⟩

/-- How a write ends: `0`, `1`, `2` and `-1` of `tx_send_atomic`, and the `ValueError`. -/
inductive WriteOutcome
  | sent
  | eventRingFull
  | streamRingFull
  | allocFailed
  | tooLarge
  deriving DecidableEq, Repr

/-- One finished write. -/
structure WriteCall where
  mark : Entry
  data : List UInt8
  endStream : Bool
  outcome : WriteOutcome
  before : Standing
  after : Standing
  deriving DecidableEq

/-- A stream's context, the TX event ring and the counter. `calls` and `late` are history: the
finished writes, and whether one reported a failure after its commit. -/
structure SendSide where
  sc : StreamCtx
  ring : SpscRing
  lowWater : ℕ
  drainPending : Bool
  pushedBytes : ℕ
  calls : List WriteCall
  late : Bool

namespace SendSide

/-- A fresh context on a fresh ring. -/
def init (geo : Geometry) (lowWaterPct : ℕ) (env : Option ℤ) : SendSide where
  sc := {}
  ring := .create geo
  lowWater := TxSide.lowWaterOf geo.capacity (TxSide.wakePct lowWaterPct env)
  drainPending := false
  pushedBytes := 0
  calls := []
  late := false

/-- The context. -/
def scLoc : Loc SendSide StreamCtx where
  get := (·.sc)
  set := fun sc s => { s with sc := sc }
  get_set := fun _ _ => rfl

/-- The TX event ring. -/
def ringLoc : Loc SendSide SpscRing where
  get := (·.ring)
  set := fun ring s => { s with ring := ring }
  get_set := fun _ _ => rfl

def standing (s : SendSide) : Standing :=
  ⟨s.sc.txBytes, s.sc.txBuf.tail, s.sc.txBuf.finPending, s.pushedBytes, s.ring.log, s.ring.tail⟩

/-! ## Writing -/

/-- `aiopquic_arm_tx_event_ring_drain_pending`. -/
def armDrainPending : Prog SendSide Bool := do
  modify fun s => { s with drainPending := true }
  let count ← SpscRing.count.on ringLoc
  let lowWater ← load (·.lowWater)
  pure (decide (lowWater < count))

/-- The check for room in the TX event ring that comes before a commit. -/
def ringBusy : Prog SendSide Bool := do
  let count ← SpscRing.count.on ringLoc
  let capacity ← load (·.ring.geo.capacity)
  if capacity ≤ count then armDrainPending else pure false

/-- `aiopquic_stream_ctx_send_data`, where `alloc` says whether `sc->tx` can be allocated. -/
def sendData (alloc : Bool) (data : List UInt8) (capacity : UInt32) (setFin hash : Bool) :
    Prog StreamCtx ℤ := do
  let tx ← load (·.tx)
  if tx.isNone ∧ alloc = false then pure (-1) else StreamCtx.sendData data capacity setFin hash

/-- The bytes that `data` and `<uint32_t>len(data)` name. -/
def narrowed (data : List UInt8) : List UInt8 := data.take (data.length % 2 ^ 32)

/-- The outcome that a result other than `1` of `aiopquic_stream_ctx_send_data` gives. -/
def refusal (rc : ℤ) : WriteOutcome :=
  if rc = -2 then .tooLarge else if rc = 0 then .streamRingFull else .allocFailed

/-- The push of the mark, after which a failure comes too late. -/
def pushMark (mark : Entry) : Prog SendSide WriteOutcome := do
  let rc ← (SpscRing.push mark []).on ringLoc
  if rc = 0 then pure .sent
  else do
    modify fun s => { s with late := true }
    let _ ← armDrainPending
    pure .eventRingFull

/-- What follows a commit of `data`: count the bytes and push the mark. -/
def announce (mark : Entry) (data : List UInt8) : Prog SendSide WriteOutcome := do
  when (0 < data.length) <| modify fun s => { s with pushedBytes := s.pushedBytes + data.length }
  pushMark mark

/-- The common body of `tx_send_atomic` and `push_stream_data`. -/
def write (mark : Entry) (alloc : Bool) (data : List UInt8) (capacity : UInt32)
    (endStream hash : Bool) :
    Prog SendSide WriteOutcome := do
  let busy ← ringBusy
  if busy then pure .eventRingFull
  else do
    let rc ← (sendData alloc (narrowed data) capacity endStream hash).on scLoc
    if rc ≠ 1 then pure (refusal rc) else announce mark (narrowed data)

/-- `TransportContext.tx_send_atomic`: its mark carries the context. -/
def txSendAtomic (t : TxSite) :
    Bool → List UInt8 → UInt32 → Bool → Bool → Prog SendSide WriteOutcome :=
  write (TxSide.markActive t t.ptr)

/-- `WebTransportSessionState.push_stream_data`: its mark carries none. -/
def pushStreamData (t : TxSite) :
    Bool → List UInt8 → UInt32 → Bool → Bool → Prog SendSide WriteOutcome :=
  write (TxSide.markActive t 0)

/-- One write, recorded. -/
def writeCall (mark : Entry) (data : List UInt8) (endStream : Bool)
    (body : Prog SendSide WriteOutcome) :
    Prog SendSide Unit := do
  let before ← load standing
  let outcome ← body
  modify fun s => { s with calls := s.calls ++ [⟨mark, data, endStream, outcome, before, s.standing⟩] }

/-- Whatever else the asyncio thread does to the ring and the counter: another command, or a write
to another stream. -/
def commandCall (e : Entry) (data : List UInt8) (n : ℕ) : Prog SendSide Unit := do
  modify fun s => { s with pushedBytes := s.pushedBytes + n }
  let _ ← (SpscRing.push e data).on ringLoc
  pure ()

/-! ## The worker -/

/-- `aiopquic_maybe_fire_tx_event_ring_drained`, without the event it queues. -/
def maybeFireDrained : Prog SendSide Unit := do
  let pending ← load (·.drainPending)
  let count ← SpscRing.count.on ringLoc
  let lowWater ← load (·.lowWater)
  when (pending = true ∧ count ≤ lowWater) <| modify fun s => { s with drainPending := false }

/-- One entry of the TX loop. -/
def popCall : Prog SendSide Unit := do
  let entry ← SpscRing.peek.on ringLoc
  match entry with
  | none => maybeFireDrained
  | some _ => do
    SpscRing.pop.on ringLoc
    maybeFireDrained

/-- A pull of at most `n` bytes, and the take of the ring's drain flag. -/
def pull (n : ℕ) : Prog StreamCtx Unit := do
  let tx ← load (·.tx)
  if tx.isNone then pure ()
  else do
    let _ ← (StreamBuf.pop n).on StreamCtx.txLoc
    let _ ← StreamCtx.txDrainTake
    pure ()

/-- What each thread may call on a stream; `allowed` are the ring capacities that its writes
pass. -/
inductive Menu (t : TxSite) (allowed : UInt32 → Prop) : Thread → SendSide → Prog SendSide Unit →
    Prop
  | txSendAtomic (s : SendSide) (alloc : Bool) (data : List UInt8) (capacity : UInt32)
    (endStream hash : Bool)
      (hcap : allowed capacity) : Menu t allowed .asyncio s
      (writeCall (TxSide.markActive t t.ptr) data endStream
        (txSendAtomic t alloc data capacity endStream hash))
  | pushStreamData (s : SendSide) (alloc : Bool) (data : List UInt8) (capacity : UInt32)
      (endStream hash : Bool) (hcap : allowed capacity) :
      Menu t allowed .asyncio s (writeCall (TxSide.markActive t 0) data endStream
        (pushStreamData t alloc data capacity endStream hash))
  | command (s : SendSide) (e : Entry) (data : List UInt8) (n : ℕ) :
      Menu t allowed .asyncio s (commandCall e data n)
  | pop (s : SendSide) : Menu t allowed .worker s popCall
  | pull (s : SendSide) (n : ℕ) : Menu t allowed .worker s ((pull n).on scLoc)

/-! ## The proof outline -/

/-- A write that succeeded added its bytes, the FIN it was asked for and one mark; any other added
nothing. -/
structure AllOrNothing (r : WriteCall) : Prop where
  sent : r.outcome = .sent → r.after = r.before.committed (narrowed r.data) r.endStream r.mark
  refused : r.outcome ≠ .sent → r.after = r.before

/-- A TX ring that is there was made for one of the capacities in `allowed`. -/
def Sized (allowed : UInt32 → Prop) (sc : StreamCtx) : Prop :=
  sc.tx.isSome = true → ∃ capacity, allowed capacity ∧ sc.txBuf.geo.capacity = ceilPow2U32 capacity

/-- Some ring of these sizes holds `data`. -/
def Fits (allowed : UInt32 → Prop) (data : List UInt8) : Prop :=
  ∃ capacity, allowed capacity ∧ data.length ≤ ceilPow2U32 capacity

/-- What holds between any two steps. -/
structure Inv (allowed : UInt32 → Prop) (s : SendSide) : Prop where
  sc : s.sc.TxWf
  sized : Sized allowed s.sc
  ring : s.ring.Wf
  lowWater : s.lowWater < s.ring.geo.capacity
  calls : ∀ r ∈ s.calls, AllOrNothing r ∧ r.mark.eventType = .txMarkActive
  fits : ∀ r ∈ s.calls, r.outcome = .sent → Fits allowed (narrowed r.data)
  late : s.late = false

/-- A step of the worker. -/
structure WorkerMoves (s t : SendSide) : Prop where
  sc : StreamCtx.TxPulls s.sc t.sc
  ring : SpscRing.ConsumerMoves s.ring t.ring
  pushedBytes : t.pushedBytes = s.pushedBytes
  calls : t.calls = s.calls

/-- A step of the asyncio thread. -/
structure AsyncioMoves (s t : SendSide) : Prop where
  isSome : s.sc.tx.isSome = true → t.sc.tx.isSome = true
  buf : s.sc.tx.isSome = true → StreamBuf.ProducerMoves s.sc.txBuf t.sc.txBuf
  ring : SpscRing.ProducerMoves s.ring t.ring

variable {r s u v : SendSide} {t : TxSite} {allowed : UInt32 → Prop}

theorem WorkerMoves.refl (s : SendSide) : WorkerMoves s s := ⟨.refl _, .refl _, rfl, rfl⟩

theorem WorkerMoves.trans (h : WorkerMoves s u) (h' : WorkerMoves u v) : WorkerMoves s v :=
  ⟨h.sc.trans h'.sc, h.ring.trans h'.ring, h'.pushedBytes.trans h.pushedBytes,
    h'.calls.trans h.calls⟩

theorem AsyncioMoves.refl (s : SendSide) : AsyncioMoves s s := ⟨id, fun _ => .refl _, .refl _⟩

theorem AsyncioMoves.trans (h : AsyncioMoves s u) (h' : AsyncioMoves u v) : AsyncioMoves s v :=
  ⟨fun hs => h'.isSome (h.isSome hs), fun hs => (h.buf hs).trans (h'.buf (h.isSome hs)),
    h.ring.trans h'.ring⟩

/-- The worker takes; what was put out stays. -/
theorem WorkerMoves.standing (h : WorkerMoves s u) : u.standing = s.standing := by
  rw [SendSide.standing, SendSide.standing, StreamCtx.txBytes, StreamCtx.txBytes, StreamBuf.bytes,
    StreamBuf.bytes,
    h.sc.buf.writes, h.sc.buf.tail, h.sc.buf.fin, h.pushedBytes, h.ring.log, h.ring.tail]

/-- The writes that succeeded. -/
def sentCalls (s : SendSide) : List WriteCall := s.calls.filter (·.outcome = .sent)

/-- The worker outside a call. -/
def WorkerIdle (s : SendSide) : Prop := s.ring.claimed = false

/-- The asyncio thread outside a call: `sc->tx` carries what the writes that succeeded were
given. -/
structure AsyncioIdle (s : SendSide) : Prop where
  bytes : s.sc.txBytes = s.sentCalls.flatMap fun r => narrowed r.data
  fin : s.sc.txBuf.finPending = s.sentCalls.any (·.endStream)

theorem WorkerIdle.stable (h : WorkerIdle s) (hm : AsyncioMoves s u) : WorkerIdle u :=
  hm.ring.claimed.trans h

theorem AsyncioIdle.stable (h : AsyncioIdle s) (hm : WorkerMoves s u) : AsyncioIdle u := by
  have hsame := hm.standing
  have hcalls : u.sentCalls = s.sentCalls := by rw [sentCalls, sentCalls, hm.calls]
  refine ⟨?_, ?_⟩
  · rw [hcalls, ← h.bytes]
    exact congrArg Standing.bytes hsame
  · rw [hcalls, ← h.fin]
    exact congrArg Standing.fin hsame

/-- The rely–guarantee outline. -/
def outline (t : TxSite) (allowed : UInt32 → Prop) : Outline (Menu t allowed) :=
  duo (Inv allowed) WorkerMoves AsyncioMoves WorkerIdle AsyncioIdle .refl .trans .refl .trans
    (fun h hm _ => h.stable hm) (fun h hm _ => h.stable hm)

/-- Nothing was put out since `r`. -/
structure Same (r s : SendSide) : Prop where
  standing : s.standing = r.standing
  calls : s.calls = r.calls

theorem Same.stable (h : Same r s) (hm : WorkerMoves s u) : Same r u :=
  ⟨hm.standing.trans h.standing, hm.calls.trans h.calls⟩

/-- Everything but the ring is as at `r`. -/
structure ScSame (r s : SendSide) : Prop where
  bytes : s.sc.txBytes = r.sc.txBytes
  tail : s.sc.txBuf.tail = r.sc.txBuf.tail
  fin : s.sc.txBuf.finPending = r.sc.txBuf.finPending
  pushedBytes : s.pushedBytes = r.pushedBytes
  calls : s.calls = r.calls

theorem WorkerMoves.scSame (hm : WorkerMoves r s) : ScSame r s := by
  have hsame := hm.standing
  exact ⟨congrArg Standing.bytes hsame, hm.sc.buf.tail, hm.sc.buf.fin, hm.pushedBytes, hm.calls⟩

theorem ScSame.trans (h : ScSame r s) (h' : ScSame s u) : ScSame r u :=
  ⟨h'.bytes.trans h.bytes, h'.tail.trans h.tail, h'.fin.trans h.fin, h'.pushedBytes.trans
    h.pushedBytes,
    h'.calls.trans h.calls⟩

/-- The ring while the asyncio thread counts its entries or pushes one. -/
theorem embeds_ring {n : ℕ} {e : Entry} (r : SendSide) :
    Embeds ((outline t allowed).contract .asyncio) ringLoc (SpscRing.producer n e) (ScSame r) where
  inv := fun s hs => hs.ring
  rely := fun s u h hm _ => ⟨hm.ring, h.trans hm.scSame⟩
  step := by
    intro s ring hs h hg hring
    have hm : SpscRing.ProducerMoves s.ring ring := hg.moves
    refine ⟨⟨id, fun _ => .refl _, hm⟩, ⟨hs.sc, hs.sized, hring, ?_, hs.calls, hs.fits, hs.late⟩,
      h.bytes, h.tail, h.fin,
      h.pushedBytes, h.calls⟩
    show s.lowWater < ring.geo.capacity
    rw [hm.geo]
    exact hs.lowWater

/-- The ring has room for one more entry. -/
def HasRoom (s : SendSide) : Prop := s.ring.tail < s.ring.head + s.ring.geo.capacity

theorem HasRoom.stable (h : HasRoom s) (hm : WorkerMoves s u) : HasRoom u := by
  have := hm.ring.head_le
  rw [HasRoom] at h ⊢
  rw [hm.ring.tail, hm.ring.geo]
  omega

theorem ScSame.standing (h : ScSame s u) (hlog : u.ring.log = s.ring.log)
    (htail : u.ring.tail = s.ring.tail) :
    u.standing = s.standing := by
  rw [SendSide.standing, SendSide.standing, h.bytes, h.tail, h.fin, h.pushedBytes, hlog, htail]

/-- Counting the entries puts nothing out. -/
theorem count_spec (hs : Inv allowed s) (h : Same r s) :
    wp ((outline t allowed).contract .asyncio) (SpscRing.count.on ringLoc)
      (fun k u => Same r u ∧ u.ring.tail - u.ring.head ≤ k) s := by
  refine wp_mono (wp_on (embeds_ring (n := 0) (e := {}) s) (WorkerMoves.refl s).scSame
    SpscRing.count_producer) hs fun k u _ hk => ?_
  obtain ⟨⟨hm, hle, -⟩, hsc⟩ := hk
  exact ⟨⟨(hsc.standing hm.log hm.tail).trans h.standing, hsc.calls.trans h.calls⟩, hle⟩

/-- What the worker leaves of a count. -/
theorem WorkerMoves.count_le {k : ℕ} (hm : WorkerMoves s u) (h : s.ring.tail - s.ring.head ≤ k) :
    u.ring.tail - u.ring.head ≤ k := by
  have := hm.ring.head_le
  rw [hm.ring.tail]
  omega

/-- An arm that says there is no need to wait has seen room. -/
theorem armDrainPending_spec (h : Same r s) :
    wp ((outline t allowed).contract .asyncio) armDrainPending
      (fun busy u => Same r u ∧ (busy = false → HasRoom u)) s := by
  unfold armDrainPending
  refine wp_modify_bind fun u hsu hu => ?_
  have hinv : Inv allowed { u with drainPending := true } :=
    ⟨hu.sc, hu.sized, hu.ring, hu.lowWater, hu.calls, hu.fits, hu.late⟩
  refine ⟨⟨id, fun _ => .refl _, .refl _⟩, hinv, ?_⟩
  have hsame := h.stable hsu
  have hsame' : Same r { u with drainPending := true } := ⟨hsame.standing, hsame.calls⟩
  refine wp_seq (count_spec hinv hsame') hinv fun k v hv h => ?_
  refine wp_load_bind fun w hvw hw => ⟨h.1.stable hvw, fun hbusy => ?_⟩
  have hk := hvw.count_le h.2
  have hle := hw.ring.head_le
  have hlow := hw.lowWater
  have := of_decide_eq_false hbusy
  rw [HasRoom]
  omega

theorem ringBusy_spec (hs : Inv allowed s) (h : Same r s) :
    wp ((outline t allowed).contract .asyncio) ringBusy
      (fun busy u => Same r u ∧ (busy = false → HasRoom u)) s := by
  unfold ringBusy
  refine wp_seq (count_spec hs h) hs fun k u hu h => ?_
  refine wp_load_bind fun v huv hv => ?_
  have hsame := h.1.stable huv
  split
  · exact armDrainPending_spec hsame
  · rename_i hcap
    refine ⟨hsame, fun _ => ?_⟩
    have hk := huv.count_le h.2
    have hle := hv.ring.head_le
    rw [HasRoom]
    omega

/-! ## The commit -/

/-- Everything but the context is as at `r`, and the ring has room for a mark. -/
structure RingSame (r s : SendSide) : Prop where
  log : s.ring.log = r.ring.log
  tail : s.ring.tail = r.ring.tail
  pushedBytes : s.pushedBytes = r.pushedBytes
  calls : s.calls = r.calls
  room : HasRoom s

theorem RingSame.stable (h : RingSame r s) (hm : WorkerMoves s u) : RingSame r u :=
  ⟨hm.ring.log.trans h.log, hm.ring.tail.trans h.tail, hm.pushedBytes.trans h.pushedBytes,
    hm.calls.trans h.calls, h.room.stable hm⟩

/-- A step of a writer whose ring, should it be made now, is of an allowed size. -/
def Sizes (allowed : UInt32 → Prop) (sc sc' : StreamCtx) : Prop := Sized allowed sc →
    Sized allowed sc'

/-- The contract of `aiopquic_stream_ctx_send_data`. -/
def writer (allowed : UInt32 → Prop) : Contract StreamCtx :=
  (StreamCtx.sender (fun _ _ => True) fun _ => True).also (Sizes allowed) fun _ => id

theorem Sized.stable {sc sc' : StreamCtx} (h : Sized allowed sc) (hm : StreamCtx.TxPulls sc sc') :
    Sized allowed sc' := by
  intro hsome
  rw [hm.buf.geo]
  exact h (hm.isSome.symm.trans hsome)

/-- The context under a write. -/
theorem embeds_sc (r : SendSide) :
    Embeds ((outline t allowed).contract .asyncio) scLoc (writer allowed) (RingSame r) where
  inv := fun s hs => hs.sc
  rely := fun s u h hm _ => ⟨hm.sc, h.stable hm⟩
  step := by
    intro s sc hs h hguar hwf
    obtain ⟨hg, hsizes⟩ := hguar
    refine ⟨?_, ⟨hwf, hsizes hs.sized, hs.ring, hs.lowWater, hs.calls, hs.fits, hs.late⟩,
      h.log, h.tail,
      h.pushedBytes, h.calls, h.room⟩
    cases hg with
    | stay => exact .refl s
    | arm => exact ⟨id, fun _ => .refl _, .refl _⟩
    | create capacity hash hnone =>
      have hnone : s.sc.tx = none := hnone
      refine ⟨fun _ => rfl, fun hsome => ?_, .refl _⟩
      rw [hnone] at hsome
      cases hsome
    | push b hsome hstep => exact ⟨fun _ => rfl, fun _ => hstep.moves, .refl _⟩
    | fin hsome hF =>
      exact ⟨fun _ => rfl, fun _ => ⟨rfl, rfl, rfl, List.prefix_rfl, fun _ => rfl⟩,
        .refl _⟩

/-- What a call of `aiopquic_stream_ctx_send_data` has published: all of it, or nothing. -/
structure Published (sc : StreamCtx) (data : List UInt8) (setFin : Bool) (rc : ℤ)
    (sc' : StreamCtx) : Prop where
  sent : rc = 1 → sc'.txBytes = sc.txBytes ++ data ∧ sc'.txBuf.finPending =
    (sc.txBuf.finPending || setFin)
  refused : rc ≠ 1 → sc'.txBytes = sc.txBytes ∧ sc'.txBuf.finPending = sc.txBuf.finPending

/-- Once there is a ring, its size does not change. -/
theorem sized_of_sendStep {P : StreamBuf → List UInt8 → Prop} {F : StreamBuf → Prop}
    {sc sc' : StreamCtx}
    (hsome : sc.tx.isSome = true) (h : StreamCtx.SendStep P F sc sc') :
    Sizes allowed sc sc' ∧ sc'.tx.isSome = true := by
  cases h with
  | stay => exact ⟨id, hsome⟩
  | create capacity hash hnone =>
    rw [hnone] at hsome
    cases hsome
  | push b _ hstep =>
    refine ⟨fun hsized _ => ?_, rfl⟩
    obtain ⟨capacity, hcap, hgeo⟩ := hsized hsome
    exact ⟨capacity, hcap, (congrArg Geometry.capacity hstep.moves.geo).trans hgeo⟩
  | fin _ _ => exact ⟨fun hsized _ => hsized hsome, rfl⟩
  | arm => exact ⟨id, hsome⟩

/-- The check against the ring's size, and what follows it. -/
theorem sizeCheck_sizes {data : List UInt8} {rest : Prog StreamCtx ℤ} {Q : ℤ → StreamCtx → Prop}
    {sc : StreamCtx}
    (hsome : sc.tx.isSome = true) (hsized : Sized allowed sc)
    (h : wp (StreamCtx.sender (fun _ _ => True) fun _ => True)
      (load (·.txBuf.geo.capacity) >>= fun cap => if cap < data.length then pure (-2) else rest) Q
      sc) :
    wp (writer allowed)
      (load (·.txBuf.geo.capacity) >>= fun cap => if cap < data.length then pure (-2) else rest)
      (fun rc c => Q rc c ∧ (rc = 1 → Fits allowed data)) sc := by
  refine wp_load_bind fun c hsc hc => ?_
  have hrest := wp_load_rest h hsc hc trivial
  have hsome : c.tx.isSome = true := hsc.isSome.trans hsome
  obtain ⟨capacity, hcap, hgeo⟩ := hsized.stable hsc hsome
  by_cases hlarge : c.txBuf.geo.capacity < data.length
  · rw [if_pos hlarge] at hrest ⊢
    exact ⟨hrest, nofun⟩
  · rw [if_neg hlarge] at hrest ⊢
    refine wp_mono (wp_also_while hsome (fun _ _ h hm => hm.isSome.trans h)
      (fun _ _ h hg => sized_of_sendStep h hg) hrest) hc fun rc d _ hQ =>
        ⟨hQ, fun _ => ⟨capacity, hcap, ?_⟩⟩
    omega

/-- A write makes no ring of another size, and is accepted only if a ring holds it. -/
theorem sendData_sizes {data : List UInt8} {capacity : UInt32} {setFin hash : Bool} {sc : StreamCtx}
    (hcap : allowed capacity) (hsized : Sized allowed sc) :
    wp (writer allowed) (StreamCtx.sendData data capacity setFin hash)
      (fun rc c => StreamCtx.Sent sc.txWrites sc.txBuf.finPending data setFin rc c ∧
        (rc = 1 → Fits allowed data)) sc := by
  have h : wp (StreamCtx.sender (fun _ _ => True) fun _ => True)
      (StreamCtx.sendData data capacity setFin hash)
        (StreamCtx.Sent sc.txWrites sc.txBuf.finPending data setFin)
      sc := StreamCtx.sendData_spec (fun _ _ _ => trivial) fun _ _ _ _ => trivial
  -- what is known of the whole write is known of what is left of it, action by action
  unfold StreamCtx.sendData at h ⊢
  refine wp_load_bind fun c hsc hc => ?_
  have hrest := wp_load_rest h hsc hc trivial
  by_cases hnone : c.tx.isNone = true
  · rw [Prog.when, if_pos hnone] at hrest ⊢
    refine wp_modify_bind fun d hcd hd => ?_
    obtain ⟨hg, hd', hrest⟩ := wp_modify_rest hrest hcd hd trivial
    exact ⟨⟨hg, fun _ _ => ⟨capacity, hcap, rfl⟩⟩, hd',
      sizeCheck_sizes rfl (fun _ => ⟨capacity, hcap, rfl⟩) hrest⟩
  · rw [Prog.when, if_neg hnone] at hrest ⊢
    have hsome : c.tx.isSome = true := by
      rw [Option.isSome_iff_ne_none]
      simpa using hnone
    exact sizeCheck_sizes hsome (hsized.stable hsc) hrest

theorem sendData_spec {alloc : Bool} {data : List UInt8} {capacity : UInt32} {setFin hash : Bool}
    {sc : StreamCtx} (hcap : allowed capacity) (hsized : Sized allowed sc) :
    wp (writer allowed) (sendData alloc data capacity setFin hash)
      (fun rc sc' => Published sc data setFin rc sc' ∧ (rc = 1 → Fits allowed data)) sc := by
  unfold sendData
  refine wp_load_bind fun c hc hcw => ?_
  have hbytes : c.txBytes = sc.txBytes := congrArg List.flatten hc.buf.writes
  split
  · exact ⟨⟨nofun, fun _ => ⟨hbytes, hc.buf.fin⟩⟩, nofun⟩
  refine wp_mono (sendData_sizes hcap (hsized.stable hc)) hcw
    fun rc d _ hsent => ⟨?_, hsent.2⟩
  have h := hsent.1
  refine ⟨fun hrc => ?_, fun hrc => ?_⟩
  · obtain ⟨-, hw, hf⟩ := h.accepted hrc
    refine ⟨?_, by rw [hf, hc.buf.fin]⟩
    have hchunk : (StreamCtx.chunk data).flatten = data := by
      unfold StreamCtx.chunk
      split <;> simp [*]
    rw [← hbytes]
    show d.txWrites.flatten = c.txWrites.flatten ++ data
    rw [hw, List.flatten_append, hchunk]
  · obtain ⟨-, hw, hf⟩ := h.refused hrc
    refine ⟨?_, hf.trans hc.buf.fin⟩
    rw [← hbytes]
    exact congrArg List.flatten hw

/-- With room in the ring the mark goes in. -/
theorem pushMark_spec {mark : Entry} {Q : WriteOutcome → SendSide → Prop} (hs : Inv allowed s)
    (hroom : HasRoom s)
    (hmark : mark.withData [] = mark)
    (hQ : ∀ u, Inv allowed u → ScSame s u → u.ring.log = s.ring.log ++ [mark] → u.ring.tail =
    s.ring.tail + 1 →
      Q .sent u) :
    wp ((outline t allowed).contract .asyncio) (pushMark mark) Q s := by
  unfold pushMark
  have hput := SpscRing.put_spec (e := mark.withData []) (k := ([] : List UInt8).length) hs.ring
  refine wp_seq (wp_on (embeds_ring s) (WorkerMoves.refl s).scSame hput) hs fun rc u hu h => ?_
  obtain ⟨⟨rfl, hput⟩ | ⟨-, -, hfull⟩, hsame⟩ := h
  · have hlog : u.ring.log = s.ring.log ++ [mark] := hmark ▸ hput.log
    have htail : u.ring.tail = s.ring.tail + 1 := by
      rw [← hu.ring.length, ← hs.ring.length, hlog, List.length_append, List.length_singleton]
    rw [if_pos rfl]
    exact hQ u hu hsame hlog htail
  · have hfull' : s.ring.tail = s.ring.head + s.ring.geo.capacity := hfull
    rw [HasRoom] at hroom
    omega

/-- After a commit the write succeeds: its bytes are counted and its mark is queued. -/
theorem announce_spec {mark : Entry} {data : List UInt8} {endStream : Bool} (hs : Inv allowed s)
    (h : RingSame r s)
    (hmark : mark.withData [] = mark) (hbytes : s.sc.txBytes = r.sc.txBytes ++ data)
    (hfin : s.sc.txBuf.finPending = (r.sc.txBuf.finPending || endStream)) (hr : r.sc.TxWf) :
    wp ((outline t allowed).contract .asyncio) (announce mark data)
      (fun o u => o = .sent ∧ u.standing = r.standing.committed data endStream mark ∧ u.calls =
      r.calls) s := by
  have htail : s.sc.txBuf.tail = r.sc.txBuf.tail + data.length := by
    have hlen := congrArg List.length hbytes
    rwa [List.length_append, show s.sc.txBytes.length = s.sc.txBuf.tail from
      StreamBuf.Wf.length hs.sc,
      show r.sc.txBytes.length = r.sc.txBuf.tail from StreamBuf.Wf.length hr] at hlen
  -- the mark, once the bytes are counted
  have hmarked : ∀ u, Inv allowed u → u.sc.txBytes = s.sc.txBytes → u.sc.txBuf.tail =
    s.sc.txBuf.tail →
      u.sc.txBuf.finPending = s.sc.txBuf.finPending → u.pushedBytes = r.pushedBytes + data.length →
      u.ring.log = r.ring.log → u.ring.tail = r.ring.tail → u.calls = r.calls → HasRoom u →
      wp ((outline t allowed).contract .asyncio) (pushMark mark)
        (fun o u => o = .sent ∧ u.standing = r.standing.committed data endStream mark ∧ u.calls =
          r.calls) u := by
    intro u hu hb ht hf hp hl hrt hc hroom
    refine pushMark_spec hu hroom hmark fun v _ hsame hlog htail' => ⟨rfl, ?_, hsame.calls.trans hc⟩
    rw [standing, hsame.bytes, hsame.tail, hsame.fin, hsame.pushedBytes, hlog, htail', hb, ht, hf,
      hp, hl, hrt,
      hbytes, htail, hfin]
    rfl
  unfold announce
  refine wp_when_bind (fun _ => wp_modify_bind fun u hsu hu => ?_) fun hzero => ?_
  · have hsame := hsu.scSame
    have hring := h.stable hsu
    refine ⟨⟨id, fun _ => .refl _, .refl _⟩,
      ⟨hu.sc, hu.sized, hu.ring, hu.lowWater, hu.calls, hu.fits, hu.late⟩, ?_⟩
    refine hmarked _ ⟨hu.sc, hu.sized, hu.ring, hu.lowWater, hu.calls, hu.fits, hu.late⟩ hsame.bytes
      hsame.tail hsame.fin ?_
      hring.log hring.tail hring.calls hring.room
    rw [hring.pushedBytes]
  · refine hmarked s hs rfl rfl rfl ?_ h.log h.tail h.calls h.room
    rw [h.pushedBytes]
    omega

/-- A write puts out all of what it was given, with a mark, or nothing. -/
theorem write_spec {mark : Entry} {alloc : Bool} {data : List UInt8} {capacity : UInt32}
    {endStream hash : Bool}
    (hs : Inv allowed s) (hcap : allowed capacity) (hmark : mark.withData [] = mark) :
    wp ((outline t allowed).contract .asyncio) (write mark alloc data capacity endStream hash)
      (fun o u => u.calls = s.calls ∧
        (o = .sent ∧ Fits allowed (narrowed data) ∧
            u.standing = s.standing.committed (narrowed data) endStream mark ∨
          o ≠ .sent ∧ u.standing = s.standing)) s := by
  unfold write
  refine wp_seq (ringBusy_spec (r := s) hs ⟨rfl, rfl⟩) hs fun busy u hu h => ?_
  obtain ⟨hsame, hroom⟩ := h
  cases busy with
  | true => exact ⟨hsame.calls, .inr ⟨nofun, hsame.standing⟩⟩
  | false =>
    have hring : RingSame u u := ⟨rfl, rfl, rfl, rfl, hroom rfl⟩
    refine wp_seq (wp_on (embeds_sc u) hring (sendData_spec hcap hu.sized)) hu fun rc v hv h => ?_
    obtain ⟨⟨hpub, hfits⟩, hring⟩ := h
    by_cases hrc : rc = 1
    · obtain ⟨hbytes, hfin⟩ := hpub.sent hrc
      rw [if_neg (not_not.2 hrc)]
      refine wp_mono (announce_spec hv hring hmark hbytes hfin hu.sc) hv fun o w _ h => ?_
      obtain ⟨ho, hst, hcalls⟩ := h
      exact ⟨hcalls.trans hsame.calls, .inl ⟨ho, hfits hrc, hst.trans (by rw [hsame.standing])⟩⟩
    · obtain ⟨hbytes, hfin⟩ := hpub.refused hrc
      rw [if_pos hrc]
      have htail : v.sc.txBuf.tail = u.sc.txBuf.tail := by
        rw [← StreamBuf.Wf.length hv.sc, ← StreamBuf.Wf.length hu.sc]
        exact congrArg List.length hbytes
      refine ⟨hring.calls.trans hsame.calls, .inr ⟨?_, ?_⟩⟩
      · unfold refusal
        split
        · nofun
        · split <;> nofun
      · rw [← hsame.standing]
        exact ScSame.standing ⟨hbytes, htail, hfin, hring.pushedBytes, hring.calls⟩
          hring.log hring.tail

/-! ## Every call keeps the outline -/

/-- A recorded write keeps the outline. -/
theorem writeCall_spec {mark : Entry} {alloc : Bool} {data : List UInt8} {capacity : UInt32}
    {endStream hash : Bool} (hidle : AsyncioIdle s) (hcap : allowed capacity)
    (hmark : mark.withData [] = mark)
    (htype : mark.eventType = .txMarkActive) :
    wp ((outline t allowed).contract .asyncio)
      (writeCall mark data endStream (write mark alloc data capacity endStream hash))
      (fun _ => AsyncioIdle) s := by
  unfold writeCall
  refine wp_load_bind fun r hsr hr => ?_
  have hidle : AsyncioIdle r := hidle.stable hsr
  refine wp_seq (write_spec hr hcap hmark) hr fun o u hu h => ?_
  obtain ⟨hcalls, hout⟩ := h
  refine wp_modify fun v huv hv => ?_
  have hst : v.standing = u.standing := huv.standing
  have hvc : v.calls = r.calls := huv.calls.trans hcalls
  have hcall : AllOrNothing ⟨mark, data, endStream, o, r.standing, v.standing⟩ := by
    rcases hout with ⟨ho, -, hsent⟩ | ⟨ho, hsame⟩
    · exact ⟨fun _ => hst.trans hsent, fun hne => absurd ho hne⟩
    · exact ⟨fun hsent => absurd hsent ho, fun _ => hst.trans hsame⟩
  refine ⟨⟨id, fun _ => .refl _, .refl _⟩,
    ⟨hv.sc, hv.sized, hv.ring, hv.lowWater, fun c hc => ?_, fun c hc ho => ?_,
    hv.late⟩, ?_, ?_⟩
  · rcases List.mem_append.1 hc with hc | hc
    · exact hv.calls c hc
    · rw [List.mem_singleton.1 hc]
      exact ⟨hcall, htype⟩
  · rcases List.mem_append.1 hc with hc | hc
    · exact hv.fits c hc ho
    · rw [List.mem_singleton.1 hc] at ho ⊢
      rcases hout with ⟨-, hfits, -⟩ | ⟨hne, -⟩
      · exact hfits
      · exact absurd ho hne
  · show v.standing.bytes = ((v.calls ++ [_]).filter _).flatMap _
    rw [List.filter_append, List.flatMap_append, hvc, hst]
    have hb : r.standing.bytes = (r.calls.filter (·.outcome = .sent)).flatMap fun c =>
      narrowed c.data := hidle.bytes
    rcases hout with ⟨rfl, -, hsent⟩ | ⟨ho, hsame⟩
    · rw [hsent, ← hb]
      simp [Standing.committed]
    · rw [hsame, ← hb]
      simp [ho]
  · show v.standing.fin = ((v.calls ++ [_]).filter _).any _
    rw [List.filter_append, List.any_append, hvc, hst]
    have hf : r.standing.fin = (r.calls.filter (·.outcome = .sent)).any (·.endStream) := hidle.fin
    rcases hout with ⟨rfl, -, hsent⟩ | ⟨ho, hsame⟩
    · rw [hsent, ← hf]
      simp [Standing.committed]
    · rw [hsame, ← hf]
      simp [ho]

/-- So does another command. -/
theorem commandCall_spec {e : Entry} {data : List UInt8} {n : ℕ} (hidle : AsyncioIdle s) :
    wp ((outline t allowed).contract .asyncio) (commandCall e data n) (fun _ => AsyncioIdle) s := by
  unfold commandCall
  refine wp_modify_bind fun u hsu hu => ?_
  have hidle : AsyncioIdle u := hidle.stable hsu
  have hinv : Inv allowed { u with pushedBytes := u.pushedBytes + n } :=
    ⟨hu.sc, hu.sized, hu.ring, hu.lowWater, hu.calls, hu.fits, hu.late⟩
  refine ⟨⟨id, fun _ => .refl _, .refl _⟩, hinv, ?_⟩
  have hput := SpscRing.put_spec (e := e.withData data) (k := data.length) hinv.ring
  refine wp_seq (wp_on (embeds_ring _) (WorkerMoves.refl _).scSame hput) hinv fun rc v hv h => ?_
  obtain ⟨-, hsame⟩ := h
  have hcalls : v.sentCalls = u.sentCalls := by rw [sentCalls, sentCalls, hsame.calls]
  exact ⟨by rw [hsame.bytes, hcalls]; exact hidle.bytes, by rw [hsame.fin, hcalls]; exact hidle.fin⟩

/-- The ring while the worker looks at it or pops from it. -/
theorem embeds_pop {h : Option ℕ} :
    Embeds ((outline t allowed).contract .worker) ringLoc (SpscRing.consumer h)
    (fun _ => True) where
  inv := fun s hs => hs.ring
  rely := fun s u _ hm _ => ⟨hm.ring, trivial⟩
  step := by
    intro s ring hs _ hg hring
    have hm : SpscRing.ConsumerMoves s.ring ring := hg.moves
    refine ⟨⟨.refl _, hm, rfl, rfl⟩, ⟨hs.sc, hs.sized, hring, ?_, hs.calls, hs.fits, hs.late⟩,
      trivial⟩
    show s.lowWater < ring.geo.capacity
    rw [hm.geo]
    exact hs.lowWater

theorem maybeFireDrained_spec (hidle : WorkerIdle s) :
    wp ((outline t allowed).contract .worker) maybeFireDrained (fun _ => WorkerIdle) s := by
  unfold maybeFireDrained
  refine wp_load_bind fun u hsu hu => ?_
  have hidle : WorkerIdle u := hidle.stable hsu
  refine wp_seq (wp_on (embeds_pop (h := none)) trivial (SpscRing.count_spec hu.ring)) hu
    fun k v hv h => ?_
  obtain ⟨⟨hm, -⟩, -⟩ := h
  have hidle : WorkerIdle v := hm.claimed.trans hidle
  refine wp_load_bind fun w hvw hw => ?_
  have hidle : WorkerIdle w := hidle.stable hvw
  unfold Prog.when
  split
  · refine wp_modify fun x hwx hx => ?_
    have hidle : WorkerIdle x := hidle.stable hwx
    exact ⟨⟨.refl _, .refl _, rfl, rfl⟩,
      ⟨hx.sc, hx.sized, hx.ring, hx.lowWater, hx.calls, hx.fits, hx.late⟩, hidle⟩
  · exact hidle

theorem popCall_spec (hs : Inv allowed s) (hidle : WorkerIdle s) :
    wp ((outline t allowed).contract .worker) popCall (fun _ => WorkerIdle) s := by
  unfold popCall
  refine wp_seq (wp_on (embeds_pop (h := none)) trivial (SpscRing.peek_spec hs.ring hidle)) hs
    fun entry u hu h => ?_
  obtain ⟨⟨hm, hfound⟩, -⟩ := h
  have hidle : WorkerIdle u := hm.claimed.trans hidle
  cases entry with
  | none => exact maybeFireDrained_spec hidle
  | some e =>
    have hlt : u.ring.head < u.ring.tail := by
      have hlog : u.ring.log[s.ring.head]? = some e := hfound
      have := (List.getElem?_eq_some_iff.1 hlog).1
      rwa [hu.ring.length, ← show u.ring.head = s.ring.head from hm.head] at this
    refine wp_seq (wp_on embeds_pop trivial (SpscRing.pop_spec hu.ring hlt)) hu fun _ v hv h => ?_
    exact maybeFireDrained_spec h.1.claimed

/-- `sc->tx` while the worker pulls from it. -/
theorem embeds_pull :
    Embeds ((outline t allowed).contract .worker) (scLoc.comp StreamCtx.txLoc) StreamBuf.consumer
      (fun s => WorkerIdle s ∧ s.sc.tx.isSome = true) where
  inv := fun s hs => hs.sc
  rely := fun s u h hm _ => ⟨hm.buf h.2, h.1.stable hm, hm.isSome h.2⟩
  step := by
    intro s b hs h hg hb
    have hm : StreamBuf.ConsumerMoves s.sc.txBuf b := hg.moves
    refine ⟨⟨⟨h.2.symm, hm⟩, .refl _, rfl, rfl⟩,
      ⟨hb, ?_, hs.ring, hs.lowWater, hs.calls, hs.fits, hs.late⟩, h.1, rfl⟩
    intro _
    obtain ⟨capacity, hcap, hgeo⟩ := hs.sized h.2
    exact ⟨capacity, hcap, (congrArg Geometry.capacity hm.geo).trans hgeo⟩

theorem pull_spec {n : ℕ} (hidle : WorkerIdle s) :
    wp ((outline t allowed).contract .worker) ((pull n).on scLoc) (fun _ => WorkerIdle) s := by
  rw [pull, on_bind, on_load scLoc fun _ => rfl]
  refine wp_load_bind fun u hsu hu => ?_
  have hidle : WorkerIdle u := hidle.stable hsu
  split
  · exact hidle
  · rename_i hsome
    have hnone : ¬ u.sc.tx.isNone = true := hsome
    have hsome : u.sc.tx.isSome = true := by
      rw [Option.isSome_iff_ne_none]
      simpa using hnone
    rw [on_bind, on_on]
    refine wp_seq (wp_on embeds_pull ⟨hidle, hsome⟩ (StreamBuf.pop_spec hu.sc)) hu
      fun _ v hv h => ?_
    rw [on_bind, StreamCtx.txDrainTake, on_rmw]
    refine wp_rmw_bind fun w hvw hw => ?_
    have hidle : WorkerIdle w := h.2.1.stable hvw
    exact ⟨⟨⟨rfl, .refl _⟩, .refl _, rfl, rfl⟩,
      ⟨hw.sc, hw.sized, hw.ring, hw.lowWater, hw.calls, hw.fits, hw.late⟩, hidle⟩

theorem outline_sound (t : TxSite) (allowed : UInt32 → Prop) : (outline t allowed).Sound := by
  rintro i s p hs hidle hp
  cases hp with
  | txSendAtomic _ alloc data capacity endStream hash hcap =>
    exact writeCall_spec hidle
      hcap rfl rfl
  | pushStreamData _ alloc data capacity endStream hash hcap =>
    exact writeCall_spec hidle
      hcap rfl rfl
  | command _ e data n => exact commandCall_spec hidle
  | pop => exact popCall_spec hs hidle
  | pull _ n => exact pull_spec hidle

theorem init_inv (geo : Geometry) (lowWaterPct : ℕ) (env : Option ℤ) : Inv allowed
    (init geo lowWaterPct env) where
  sc := StreamBuf.create_wf 0 false
  sized := fun h => nomatch h
  ring := SpscRing.create_wf geo
  lowWater := TxSide.lowWaterOf_lt geo.capacity_pos (TxSide.wakePct_lt lowWaterPct env)
  calls := fun _ hr => nomatch hr
  fits := fun _ hr => nomatch hr
  late := rfl

theorem init_idle (geo : Geometry) (lowWaterPct : ℕ) (env : Option ℤ) (i : Thread) :
    (outline t allowed).idle i (init geo lowWaterPct env) := by
  cases i with
  | worker => exact rfl
  | asyncio => exact ⟨rfl, rfl⟩

/-! ## The theorem -/

/-- The bytes of the writes of a list that succeeded. -/
def sentBytes (calls : List WriteCall) : List UInt8 := (calls.filter (·.outcome = .sent)).flatMap
    (·.data)

/-- Writes of fewer than `2 ^ 32` bytes are all or nothing. -/
structure Atomic (c : Config Thread SendSide) : Prop where
  /-- Success appends the data, sets the FIN if asked to and adds one mark. -/
  sent : ∀ r ∈ c.mem.calls, r.data.length < 2 ^ 32 → r.outcome = .sent →
    r.after = r.before.committed r.data r.endStream r.mark
  mark : ∀ r ∈ c.mem.calls, r.mark.eventType = .txMarkActive
  /-- Any other end leaves bytes, tail, FIN, counter and TX event ring as they were. -/
  refused : ∀ r ∈ c.mem.calls, r.outcome ≠ .sent → r.after = r.before
  /-- No failure was reported after a commit. -/
  late : c.mem.late = false
  /-- Each write that succeeded is in the stream once, in order, and no other. -/
  bytes : c.Idle .asyncio → (∀ r ∈ c.mem.calls, r.data.length < 2 ^ 32) →
    c.mem.sc.txBytes = sentBytes c.mem.calls
  fin : c.Idle .asyncio → c.mem.sc.txBuf.finPending = c.mem.sentCalls.any (·.endStream)
  /-- A buffer that is retried until it succeeds is in it once. -/
  retried : ∀ earlier failed (last : WriteCall) later, c.mem.calls = earlier ++ failed ++
    last :: later →
    (∀ r ∈ failed, r.outcome ≠ .sent) → last.outcome = .sent →
    sentBytes c.mem.calls = sentBytes earlier ++ last.data ++ sentBytes later

theorem narrowed_eq {data : List UInt8} (h : data.length < 2 ^ 32) : narrowed data = data := by
  rw [narrowed, Nat.mod_eq_of_lt h, List.take_length]

/-- Whatever the state of the two rings and whatever the worker pops meanwhile, a write is all or
nothing. -/
theorem write_is_atomic (t : TxSite) (allowed : UInt32 → Prop) (geo : Geometry) (lowWaterPct : ℕ)
    (env : Option ℤ) {c : Config Thread SendSide}
    (hc : Reachable (Menu t allowed) (init geo lowWaterPct env) c) : Atomic c := by
  have h := (outline t allowed).reachable (outline_sound t allowed) (init_inv geo lowWaterPct env)
    (init_idle geo lowWaterPct env) hc
  have hinv : Inv allowed c.mem := h.1
  refine ⟨fun r hr hlen ho => ?_, fun r hr => (hinv.calls r hr).2, fun r hr =>
    (hinv.calls r hr).1.refused,
    hinv.late, fun ha hlen => ?_, fun ha => (h.idle ha).fin,
      fun earlier failed last later heq hfail hlast => ?_⟩
  · rw [(hinv.calls r hr).1.sent ho, narrowed_eq hlen]
  · have hidle : AsyncioIdle c.mem := h.idle ha
    rw [hidle.bytes, sentBytes, sentCalls]
    refine List.flatMap_congr fun r hr => ?_
    exact narrowed_eq (hlen r (List.mem_of_mem_filter hr))
  · have hnone : failed.filter (·.outcome = .sent) = [] :=
      List.filter_eq_nil_iff.2 fun r hr => by simpa using hfail r hr
    rw [heq, sentBytes, List.filter_append, List.filter_append, hnone, List.filter_cons_of_pos
      (by simpa using hlast)]
    simp [sentBytes]

/-- A write whose check found the ring full, while the worker emptied it: the arm lets it
through. -/
def fallThroughRun : Config Thread SendSide :=
  ((((((Config.start (init (.ofExp 0 Geometry.exp_zero) 50 none)).call .asyncio
    (writeCall (TxSide.markActive ⟨1, 4, 9⟩ 9) [1, 2] false
      (txSendAtomic ⟨1, 4, 9⟩ true [1, 2] 8 false false))).drive (.replicate 40 .asyncio)).call
        .asyncio
    (writeCall (TxSide.markActive ⟨1, 4, 9⟩ 9) [3] true
      (txSendAtomic ⟨1, 4, 9⟩ true [3] 8 true false))).drive (.replicate 4 .asyncio)).call .worker
    popCall).drive (.replicate 12 .worker ++ .replicate 40 .asyncio)

theorem write_is_atomic_fallThroughRun : Atomic fallThroughRun ∧
    fallThroughRun.mem.calls.map (·.outcome) = [.sent, .sent] ∧
    fallThroughRun.mem.sc.txBytes = [1, 2, 3] ∧ fallThroughRun.mem.drainPending = true := by
  refine ⟨write_is_atomic ⟨1, 4, 9⟩ (fun _ => True) (.ofExp 0 (by decide)) 50 none ?_, by
    decide +kernel,
    by decide +kernel, by decide +kernel⟩
  have h₁ := (Reachable.call (.refl : Reachable (Menu ⟨1, 4, 9⟩ fun _ => True) _ (Config.start
    (init (.ofExp 0 (by decide)) 50 none))) (i := .asyncio) rfl
    (.txSendAtomic _ true [1, 2] 8 false false trivial)).drive (.replicate 40 .asyncio)
  have h₂ := (h₁.call (i := .asyncio) (by decide +kernel)
    (.txSendAtomic _ true [3] 8 true false trivial)).drive (.replicate 4 .asyncio)
  exact (h₂.call (i := .worker) (by decide +kernel) (.pop _)).drive _

end SendSide

end Aiopquic
