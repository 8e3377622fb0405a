import Aiopquic.TxPathPulls

/-!
# A stream with something to send is active

picoquic pulls only from streams that are marked active. A writer commits its bytes to `sc->tx` and
then pushes `TX_MARK_ACTIVE` into the TX event ring; the worker marks the stream when it drains that
ring, and a pull that empties `sc->tx` turns the mark off.

`TxSide` is a stream's TX side with the TX event ring and picoquic's mark. Whenever there is
something to send, the stream is active, or a `TX_MARK_ACTIVE` for it is queued, or the writer is
between the commit and the push.
-/

namespace Aiopquic

open Interleave Interleave.Prog Circular

/-- A stream as the TX event ring names it: connection, id and context address. -/
structure TxSite where
  cnx : ℕ
  streamId : ℕ
  ptr : ℕ

/-- The TX side of a stream. `active` is picoquic's mark. `sending` is set during a send: what the
ring `sc->tx` carried at its start, and the number its `TX_MARK_ACTIVE` will get. -/
structure TxSide where
  tx : TxStream
  ring : SpscRing
  lowWater : ℕ
  drainPending : Bool
  active : Bool
  sending : Option (List (List UInt8) × Bool × ℕ)

namespace TxSide

/-- The percentage `aiopquic_ctx_create` settles on; `env` is `AIOPQUIC_TX_RING_WAKE_PCT`. -/
def wakePct (lowWaterPct : ℕ) (env : Option ℤ) : ℕ :=
  let base := if lowWaterPct = 0 ∨ 100 ≤ lowWaterPct then 50 else lowWaterPct
  match env with
  | none => base
  | some v => if 0 < v ∧ v < 100 then v.toNat else base

theorem wakePct_lt (lowWaterPct : ℕ) (env : Option ℤ) : wakePct lowWaterPct env < 100 := by
  unfold wakePct
  cases env with
  | none =>
    dsimp only
    split <;> omega
  | some v =>
    dsimp only
    split
    · omega
    · split <;> omega

/-- `tx_event_ring_low_water`, in `uint32_t` arithmetic. -/
def lowWaterOf (capacity pct : ℕ) : ℕ := capacity * pct % 2 ^ 32 / 100

theorem lowWaterOf_lt {capacity pct : ℕ} (hc : 0 < capacity) (hp : pct < 100) :
    lowWaterOf capacity pct < capacity := by
  have hmod : capacity * pct % 2 ^ 32 ≤ capacity * pct := Nat.mod_le _ _
  have hlt : capacity * pct < capacity * 100 := Nat.mul_lt_mul_of_pos_left hp hc
  rw [lowWaterOf, Nat.div_lt_iff_lt_mul (by omega)]
  omega

/-- A stream nothing was written to, on fresh event rings. -/
def init (txGeo rxGeo : Geometry) (lowWaterPct : ℕ) (env : Option ℤ) : TxSide where
  tx := .init rxGeo
  ring := .create txGeo
  lowWater := lowWaterOf txGeo.capacity (wakePct lowWaterPct env)
  drainPending := false
  active := false
  sending := none

/-- The stream. -/
def txLoc : Loc TxSide TxStream where
  get := (·.tx)
  set := fun tx s => { s with tx := tx }
  get_set := fun _ _ => rfl

/-- The TX event ring. -/
def ringLoc : Loc TxSide SpscRing where
  get := (·.ring)
  set := fun ring s => { s with ring := ring }
  get_set := fun _ _ => rfl

/-! ## Sending -/

/-- `aiopquic_arm_tx_event_ring_drain_pending`. -/
def armDrainPending : Prog TxSide Bool := do
  modify fun s => { s with drainPending := true }
  let count ← SpscRing.count.on ringLoc
  let lowWater ← load (·.lowWater)
  pure (decide (lowWater < count))

/-- The check for room in the TX event ring that comes before a commit. -/
def ringBusy : Prog TxSide Bool := do
  let count ← SpscRing.count.on ringLoc
  let capacity ← load (·.ring.geo.capacity)
  if capacity ≤ count then armDrainPending else pure false

/-- How a send ends: `0`, `1` and `2` of `tx_send_atomic`, and the `ValueError`. -/
inductive SendOutcome
  | sent
  | eventRingFull
  | streamRingFull
  | tooLarge
  deriving DecidableEq, Repr

/-- A send begins. -/
def beginSend (s : TxSide) : TxSide :=
  { s with sending := some (s.tx.sc.txWrites, s.tx.sc.txBuf.finPending, s.ring.tail) }

/-- A send ends. -/
def endSend (s : TxSide) : TxSide := { s with sending := none }

/-- The common body of `tx_send_atomic` and `push_stream_data`: room check, commit, `mark`. -/
def sendMarked (mark : Entry) (data : List UInt8) (capacity : UInt32) (endStream hash : Bool) :
    Prog TxSide SendOutcome := do
  let busy ← ringBusy
  if busy then pure .eventRingFull
  else do
    modify beginSend
    let rc ← (TxStream.sendData data capacity endStream hash).on txLoc
    if rc ≠ 1 then do
      modify endSend
      pure (if rc = 0 then .streamRingFull else .tooLarge)
    else do
      let pushed ← (SpscRing.push mark []).on ringLoc
      modify endSend
      if pushed = 0 then pure .sent
      else do
        let _ ← armDrainPending
        pure .eventRingFull

/-- The mark of a raw stream carries the context, that of a WebTransport stream does not. -/
def markActive (t : TxSite) (streamCtx : ℕ) : Entry :=
  { eventType := .txMarkActive, streamId := t.streamId, cnx := t.cnx, streamCtx := streamCtx }

/-- `TransportContext.tx_send_atomic`. -/
def txSendAtomic (t : TxSite) : List UInt8 → UInt32 → Bool → Bool → Prog TxSide SendOutcome :=
  sendMarked (markActive t t.ptr)

/-- `WebTransportSessionState.push_stream_data`. -/
def pushStreamData (t : TxSite) : List UInt8 → UInt32 → Bool → Bool → Prog TxSide SendOutcome :=
  sendMarked (markActive t 0)

/-- One call of either. -/
def sendCall (send : Prog TxSide SendOutcome) : Prog TxSide Unit := do
  let _ ← send
  pure ()

/-- Any other command that the asyncio thread pushes. -/
def commandCall (e : Entry) (data : List UInt8) : Prog TxSide Unit := do
  let _ ← (SpscRing.push e data).on ringLoc
  pure ()

/-! ## The worker -/

/-- A `TX_MARK_ACTIVE` for the stream. -/
def IsMark (t : TxSite) (e : Entry) : Prop :=
  e.eventType = .txMarkActive ∧ e.cnx = t.cnx ∧ e.streamId = t.streamId

instance (t : TxSite) (e : Entry) : Decidable (IsMark t e) := inferInstanceAs (Decidable (_ ∧ _))

/-- The event that `aiopquic_maybe_fire_tx_event_ring_drained` pushes when it took the flag. -/
def fireDrained : Prog TxSide Unit := do
  let rc ← (WakeCtx.rxPush { eventType := .txEventRingDrained } []).on (txLoc.comp TxStream.rxLoc)
  when (rc ≠ 0) <| modify fun s => { s with drainPending := true }

/-- `aiopquic_maybe_fire_tx_event_ring_drained`. -/
def maybeFireDrained : Prog TxSide Unit := do
  let pending ← load (·.drainPending)
  if pending = false then pure ()
  else do
    let count ← SpscRing.count.on ringLoc
    let lowWater ← load (·.lowWater)
    if lowWater < count then pure ()
    else do
      let taken ← rmw (fun s => { s with drainPending := false }) (·.drainPending)
      when taken fireDrained

/-- The worker's handling of one entry, on a live connection that is not closing: `TX_MARK_ACTIVE`
marks the stream, and nothing else concerns it. -/
def txEntry (t : TxSite) (e : Entry) : Prog TxSide Unit := do
  when (IsMark t e) <| modify fun s => { s with active := true }
  SpscRing.pop.on ringLoc
  maybeFireDrained

/-- The TX loop of `aiopquic_loop_cb`, for at most `n` entries; on an empty ring it ends with
`aiopquic_tx_event_ring_drained_final`. -/
def txDrain (t : TxSite) : ℕ → Prog TxSide Unit
  | 0 => pure ()
  | n + 1 => do
    let entry ← SpscRing.peek.on ringLoc
    match entry with
    | none => maybeFireDrained
    | some e => do
      txEntry t e
      txDrain t n

/-- A pull, after which picoquic sets the mark to `is_still_active`. -/
def pullCall (pull : Prog TxStream Bool) : Prog TxSide Unit := do
  let still ← pull.on txLoc
  modify fun s => { s with active := still }

/-- A command that neither resets the stream nor closes its connection. -/
def Spares (t : TxSite) (e : Entry) : Prop :=
  e.cnx = t.cnx → e.eventType ≠ .txClose ∧ (e.eventType = .txStreamReset → e.streamId ≠ t.streamId)

/-- Sends of fewer than `2 ^ 32` bytes, none after one that ended the stream; other commands; drains
of the TX event ring; pulls. -/
inductive Menu (t : TxSite) : Thread → TxSide → Prog TxSide Unit → Prop
  | txSendAtomic (s : TxSide) (data : List UInt8) (capacity : UInt32) (endStream hash : Bool)
      (hlen : data.length < 2 ^ 32) (hended : s.tx.ended = false) :
      Menu t .asyncio s (sendCall (txSendAtomic t data capacity endStream hash))
  | pushStreamData (s : TxSide) (data : List UInt8) (capacity : UInt32) (endStream hash : Bool)
      (hlen : data.length < 2 ^ 32) (hended : s.tx.ended = false) :
      Menu t .asyncio s (sendCall (pushStreamData t data capacity endStream hash))
  | command (s : TxSide) (e : Entry) (data : List UInt8) (he : Spares t e) :
      Menu t .asyncio s (commandCall e data)
  | txDrain (s : TxSide) (n : ℕ) : Menu t .worker s (txDrain t n)
  | prepareToSend (s : TxSide) (length : ℕ) :
      Menu t .worker s (pullCall (TxStream.prepareToSend t.streamId t.cnx length))
  | provideData (s : TxSide) (session length : ℕ) :
      Menu t .worker s (pullCall (TxStream.provideData t.streamId t.cnx session length))

/-! ## The proof outline -/

/-- There are bytes or a FIN to send. -/
def Sendable (s : TxSide) : Prop :=
  s.tx.sc.txBuf.head < s.tx.sc.txBuf.tail ∨ s.tx.sc.txBuf.finPending = true ∧ ¬ s.tx.FinHanded

/-- A mark for the stream is queued. -/
def Queued (t : TxSite) (s : TxSide) : Prop := ∃ e ∈ s.ring.queued, IsMark t e

/-- A send has committed bytes or a FIN and has not yet pushed its mark. -/
def Committed (s : TxSide) : Prop :=
  ∃ W f n, s.sending = some (W, f, n) ∧ s.ring.tail = n ∧
    (s.tx.sc.txWrites ≠ W ∨ s.tx.sc.txBuf.finPending ≠ f)

/-- What holds between any two steps. -/
structure Inv (t : TxSite) (s : TxSide) : Prop where
  tx : s.tx.Inv
  ring : s.ring.Wf
  lowWater : s.lowWater < s.ring.geo.capacity
  marked : Sendable s → s.active = true ∨ Queued t s ∨ Committed s

/-- A step of the worker. -/
structure WorkerMoves (s s' : TxSide) : Prop where
  tx : TxStream.WorkerMoves s.tx s'.tx
  ring : SpscRing.ConsumerMoves s.ring s'.ring
  sending : s'.sending = s.sending

/-- A step of the asyncio thread: what it adds to `sc->tx` has a mark coming. -/
structure AsyncioMoves (t : TxSite) (s s' : TxSide) : Prop where
  tx : TxStream.AsyncioMoves s.tx s'.tx
  ring : SpscRing.ProducerMoves s.ring s'.ring
  active : s'.active = s.active
  news : s'.tx.sc.txWrites = s.tx.sc.txWrites ∧ s'.tx.sc.txBuf.finPending =
    s.tx.sc.txBuf.finPending ∨
    Queued t s' ∨ Committed s'
  committed : Committed s → Queued t s' ∨ Committed s'

variable {t : TxSite} {s s' : TxSide} {e : Entry}

theorem Queued.mono (h : Queued t s) (hm : SpscRing.ProducerMoves s.ring s'.ring) :
    Queued t s' := by
  obtain ⟨e, he, hmark⟩ := h
  obtain ⟨l, hl⟩ := hm.log
  refine ⟨e, ?_, hmark⟩
  rw [SpscRing.queued] at he ⊢
  rw [hm.head, ← hl]
  exact (List.prefix_append _ _).drop _ |>.subset he

theorem WorkerMoves.refl (s : TxSide) : WorkerMoves s s := ⟨.refl _, .refl _, rfl⟩

theorem WorkerMoves.trans {u : TxSide} (h : WorkerMoves s s') (h' : WorkerMoves s' u) :
    WorkerMoves s u :=
  ⟨h.tx.trans h'.tx, h.ring.trans h'.ring, h'.sending.trans h.sending⟩

theorem AsyncioMoves.refl (s : TxSide) : AsyncioMoves t s s :=
  ⟨.refl _, .refl _, rfl, .inl ⟨rfl, rfl⟩, .inr⟩

/-- News stays announced. -/
theorem AsyncioMoves.announced (h : AsyncioMoves t s s') (hs : Queued t s ∨ Committed s) :
    Queued t s' ∨ Committed s' := by
  rcases hs with hs | hs
  · exact .inl (hs.mono h.ring)
  · exact h.committed hs

theorem AsyncioMoves.trans {u : TxSide} (h : AsyncioMoves t s s') (h' : AsyncioMoves t s' u) :
    AsyncioMoves t s u := by
  refine ⟨h.tx.trans h'.tx, h.ring.trans h'.ring, h'.active.trans h.active, ?_,
    fun hc => h'.announced (h.committed hc)⟩
  rcases h'.news with ⟨hw', hf'⟩ | hn'
  · rcases h.news with ⟨hw, hf⟩ | hn
    · exact .inl ⟨hw'.trans hw, hf'.trans hf⟩
    · exact .inr (h'.announced hn)
  · exact .inr hn'

/-- The worker outside an operation. -/
structure WorkerIdle (s : TxSide) : Prop where
  tx : s.tx.WorkerIdle
  claimed : s.ring.claimed = false

/-- The asyncio thread outside an operation. -/
structure AsyncioIdle (s : TxSide) : Prop where
  tx : s.tx.AsyncioIdle
  sending : s.sending = none

theorem WorkerIdle.stable (h : WorkerIdle s) (hm : AsyncioMoves t s s') : WorkerIdle s' :=
  ⟨h.tx.stable hm.tx, hm.ring.claimed.trans h.claimed⟩

theorem AsyncioIdle.stable (h : AsyncioIdle s) (hm : WorkerMoves s s') : AsyncioIdle s' :=
  ⟨h.tx.stable hm.tx, hm.sending.trans h.sending⟩

theorem AsyncioIdle.not_committed (h : AsyncioIdle s) : ¬ Committed s := by
  rintro ⟨W, f, n, hs, -⟩
  rw [h.sending] at hs
  exact absurd hs (by simp)

/-- The rely–guarantee outline. -/
def outline (t : TxSite) : Outline (Menu t) :=
  duo (Inv t) WorkerMoves (AsyncioMoves t) WorkerIdle AsyncioIdle .refl .trans .refl .trans
    (fun h hm _ => h.stable hm) (fun h hm _ => h.stable hm)

/-! ## The worker -/

/-- What a pull makes of the stream, it makes it no more sendable. -/
theorem sendable_of_pull {tx : TxStream} (hm : TxStream.WorkerMoves s.tx tx)
    (h : Sendable { s with tx := tx }) : Sendable s := by
  have hbuf := hm.sc.buf
  rcases h with h | ⟨hf, hh⟩
  · have h' : tx.sc.txBuf.head < tx.sc.txBuf.tail := h
    have := hbuf.head_le
    rw [hbuf.tail] at h'
    exact .inl (by omega)
  · refine .inr ⟨hbuf.fin.symm.trans hf, fun ⟨f, hmem, hff⟩ => hh ⟨f, ?_, hff⟩⟩
    exact hm.frames.subset hmem

theorem committed_of_pull {tx : TxStream} (hm : TxStream.WorkerMoves s.tx tx) (h : Committed s) :
    Committed { s with tx := tx } := by
  obtain ⟨W, f, n, hs, hn, hne⟩ := h
  refine ⟨W, f, n, hs, hn, ?_⟩
  show tx.sc.txBuf.writes ≠ W ∨ tx.sc.txBuf.finPending ≠ f
  rw [hm.sc.buf.writes, hm.sc.buf.fin]
  exact hne

/-- The worker changes the stream as a pull may. -/
theorem Inv.of_pull (hs : Inv t s) {tx : TxStream} (hm : TxStream.WorkerMoves s.tx tx)
    (htx : tx.Inv) :
    Inv t { s with tx := tx } := by
  refine ⟨htx, hs.ring, hs.lowWater, fun h => ?_⟩
  rcases hs.marked (sendable_of_pull hm h) with ha | hq | hc
  · exact .inl ha
  · exact .inr (.inl hq)
  · exact .inr (.inr (committed_of_pull hm hc))

/-- The stream under a pull that began at `r`: what was added since has a mark coming. -/
theorem embeds_pull (r : TxSide) :
    Embeds ((outline t).contract .worker) txLoc (TxStream.outline.contract .worker)
      (fun s => s.ring.claimed = false ∧
        (s.tx.sc.txWrites = r.tx.sc.txWrites ∧ s.tx.sc.txBuf.finPending = r.tx.sc.txBuf.finPending ∨
          Queued t s ∨ Committed s)) where
  inv := fun s hs => hs.tx
  rely := by
    rintro s u ⟨hcl, hnews⟩ hm -
    refine ⟨hm.tx, hm.ring.claimed.trans hcl, ?_⟩
    rcases hm.news with ⟨hw, hf⟩ | hn
    · rcases hnews with ⟨hw', hf'⟩ | hn
      · exact .inl ⟨hw.trans hw', hf.trans hf'⟩
      · exact .inr (hm.announced hn)
    · exact .inr hn
  step := by
    rintro s tx hs ⟨hcl, hnews⟩ hg htx
    refine ⟨⟨hg, .refl _, rfl⟩, hs.of_pull hg htx, hcl, ?_⟩
    rcases hnews with ⟨hw, hf⟩ | hq | hc
    · exact .inl ⟨hg.sc.buf.writes.trans hw, hg.sc.buf.fin.trans hf⟩
    · exact .inr (.inl hq)
    · exact .inr (.inr (committed_of_pull hg hc))

/-- A pull may turn the mark off: either nothing is left, or a mark is coming. -/
theorem pullCall_spec {event : Entry} {length : ℕ} (hs : Inv t s) (hidle : WorkerIdle s) :
    wp ((outline t).contract .worker) (pullCall (TxStream.pull event length)) (fun _ => WorkerIdle)
    s := by
  unfold pullCall
  refine wp_seq (wp_on (embeds_pull s) ⟨hidle.claimed, .inl ⟨rfl, rfl⟩⟩
    (TxStream.pull_spec hidle.tx)) hs
    fun still u hu h => ?_
  obtain ⟨hpulled, hcl, hnews⟩ := h
  refine wp_modify fun v huv hv => ?_
  have hp : TxStream.Pulled s.tx still v.tx := hpulled.stable huv.tx
  have hnews' : v.tx.sc.txWrites = s.tx.sc.txWrites ∧
      v.tx.sc.txBuf.finPending = s.tx.sc.txBuf.finPending ∨ Queued t v ∨ Committed v := by
    rcases huv.news with ⟨hw, hf⟩ | hn
    · rcases hnews with ⟨hw', hf'⟩ | hn
      · exact .inl ⟨hw.trans hw', hf.trans hf'⟩
      · exact .inr (huv.announced hn)
    · exact .inr hn
  refine ⟨⟨.refl _, .refl _, rfl⟩, ⟨hv.tx, hv.ring, hv.lowWater, fun h => ?_⟩,
    ⟨hp.idle, huv.ring.claimed.trans hcl⟩⟩
  cases still with
  | true => exact .inl rfl
  | false =>
    rcases hnews' with ⟨hw, hf⟩ | hn
    · -- everything was handed
      obtain ⟨hhead, hfin⟩ := hp.drained rfl hw hf
      have hlen : v.tx.sc.txBytes.length = v.tx.sc.txBuf.tail := hv.tx.wf.length
      rcases h with h | ⟨hf', hnot⟩
      · have h' : v.tx.sc.txBuf.head < v.tx.sc.txBuf.tail := h
        omega
      · exact absurd (hfin hf') hnot
    · exact .inr hn

/-- The ring while the worker looks at it. -/
theorem embeds_look : Embeds ((outline t).contract .worker) ringLoc (SpscRing.consumer none)
    (fun s => s.tx.WorkerIdle) where
  inv := fun s hs => hs.ring
  rely := fun _ _ h hm _ => ⟨hm.ring, h.stable hm.tx⟩
  step := by
    rintro s r hs hidle hg hr
    have hm : SpscRing.ConsumerMoves s.ring r := hg.moves
    have hlow : s.lowWater < r.geo.capacity := by rw [hm.geo]; exact hs.lowWater
    have hq : r.queued = s.ring.queued := by
      cases hg with
      | stay => rfl
      | count k => rfl
      | claim e hlt => rfl
      | advance hh hlt => exact absurd hh (by simp)
    refine ⟨⟨.refl _, hm, rfl⟩, ⟨hs.tx, hr, hlow, fun h => ?_⟩, hidle⟩
    rcases hs.marked h with ha | ⟨e, he, hmark⟩ | ⟨W, f, n, hsd, hn, hne⟩
    · exact .inl ha
    · exact .inr (.inl ⟨e, hq.symm ▸ he, hmark⟩)
    · exact .inr (.inr ⟨W, f, n, hsd, hm.tail.trans hn, hne⟩)

/-- The ring while the worker pops the entry `e`, whose mark it has made. -/
theorem embeds_pop (h : ℕ) (e : Entry) :
    Embeds ((outline t).contract .worker) ringLoc (SpscRing.consumer (some h))
      (fun s => s.tx.WorkerIdle ∧ s.ring.log[h]? = some e ∧ (IsMark t e → s.active = true)) where
  inv := fun s hs => hs.ring
  rely := fun _ _ hF hm _ =>
    ⟨hm.ring, hF.1.stable hm.tx, getElem?_of_isPrefix hm.ring.log hF.2.1, fun hi =>
      hm.active.trans (hF.2.2 hi)⟩
  step := by
    rintro s r hs ⟨hidle, hlog, hact⟩ hg hr
    have hm : SpscRing.ConsumerMoves s.ring r := hg.moves
    have hlow : s.lowWater < r.geo.capacity := by rw [hm.geo]; exact hs.lowWater
    have hq : Queued t s → s.active = true ∨ Queued t (ringLoc.set r s) := by
      rintro ⟨f, hf, hmark⟩
      cases hg with
      | stay => exact .inr ⟨f, hf, hmark⟩
      | count k => exact .inr ⟨f, hf, hmark⟩
      | claim g hlt => exact .inr ⟨f, hf, hmark⟩
      | advance hh hlt =>
        obtain rfl : h = s.ring.head := Option.some.inj hh
        have hdrop : s.ring.queued = e :: s.ring.log.drop (s.ring.head + 1) := by
          obtain ⟨hlt', heq⟩ := List.getElem?_eq_some_iff.1 hlog
          rw [SpscRing.queued, List.drop_eq_getElem_cons hlt', heq]
        rw [hdrop] at hf
        rcases List.mem_cons.1 hf with rfl | hf
        · exact .inl (hact hmark)
        · exact .inr ⟨f, hf, hmark⟩
    refine ⟨⟨.refl _, hm, rfl⟩, ⟨hs.tx, hr, hlow, fun h => ?_⟩, hidle,
      by rw [← hlog]; exact congrArg (·[_]?) hm.log, hact⟩
    rcases hs.marked h with ha | hqu | ⟨W, f, n, hsd, hn, hne⟩
    · exact .inl ha
    · exact (hq hqu).imp_right .inl
    · exact .inr (.inr ⟨W, f, n, hsd, hm.tail.trans hn, hne⟩)

/-- The drain signal touches neither the stream's bytes nor the ring. -/
structure SameSend (s s' : TxSide) : Prop where
  tx : TxStream.SameTx s.tx s'.tx
  ring : s'.ring = s.ring
  lowWater : s'.lowWater = s.lowWater
  active : s'.active = s.active
  sending : s'.sending = s.sending

theorem SameSend.refl (s : TxSide) : SameSend s s :=
  ⟨⟨rfl, rfl, rfl, rfl, rfl, rfl⟩, rfl, rfl, rfl, rfl⟩

theorem SameSend.moves (h : SameSend s s') : WorkerMoves s s' :=
  ⟨h.tx.moves, by rw [h.ring]; exact .refl _, h.sending⟩

theorem SameSend.inv (h : SameSend s s') (hs : Inv t s) : Inv t s' := by
  have hbuf := h.tx.buf
  refine ⟨h.tx.inv hs.tx, by
    rw [h.ring]; exact hs.ring, by rw [h.ring, h.lowWater]; exact hs.lowWater, ?_⟩
  rw [Sendable, Queued, Committed, StreamCtx.txWrites, hbuf, TxStream.FinHanded, h.tx.frames,
    h.ring, h.active,
    h.sending]
  exact hs.marked

theorem SameSend.idle (h : SameSend s s') (hidle : WorkerIdle s) : WorkerIdle s' := by
  refine ⟨?_, by rw [h.ring]; exact hidle.claimed⟩
  rw [TxStream.WorkerIdle, TxStream.handed, h.tx.frames, h.tx.buf]
  exact hidle.tx

theorem count_only : Only SameSend (SpscRing.count.on ringLoc) :=
  (SpscRing.count_reads.on fun _ => rfl).only .refl

theorem maybeFireDrained_only : Only SameSend maybeFireDrained := by
  unfold maybeFireDrained
  refine only_bind (only_load .refl) fun pending => ?_
  split
  · trivial
  refine only_bind count_only fun count => only_bind (only_load .refl) fun lowWater => ?_
  split
  · trivial
  refine only_bind (only_rmw fun s => ⟨⟨rfl, rfl, rfl, rfl, rfl, rfl⟩, rfl, rfl, rfl, rfl⟩)
    fun taken =>
    only_when ?_
  unfold fireDrained
  refine only_bind (only_mono (only_on _) ?_) fun rc =>
    only_when (only_modify fun s => ⟨⟨rfl, rfl, rfl, rfl, rfl, rfl⟩, rfl, rfl, rfl, rfl⟩)
  rintro s s' ⟨rx, rfl⟩
  exact ⟨⟨rfl, rfl, rfl, rfl, rfl, rfl⟩, rfl, rfl, rfl, rfl⟩

theorem maybeFireDrained_spec (hidle : WorkerIdle s) :
    wp ((outline t).contract .worker) maybeFireDrained (fun _ => WorkerIdle) s :=
  wp_only maybeFireDrained_only hidle (fun _ _ h hm _ => h.stable hm)
    fun _ _ hi hF hm => ⟨hm.moves, hm.inv hi, hm.idle hF⟩

/-- The worker handles the entry it peeked. -/
theorem txEntry_spec (hidle : WorkerIdle s) (he : s.ring.log[s.ring.head]? = some e)
    (hs : Inv t s) : wp ((outline t).contract .worker) (txEntry t e) (fun _ => WorkerIdle) s := by
  -- the pop and the drain signal, once the mark is made
  have hpop : ∀ u, Inv t u → WorkerIdle u → u.ring.log[u.ring.head]? = some e →
      (IsMark t e → u.active = true) → wp ((outline t).contract .worker)
        (do SpscRing.pop.on ringLoc; maybeFireDrained) (fun _ => WorkerIdle) u := by
    intro u hu hidle he hact
    have hlt : u.ring.head < u.ring.tail := by
      have := (List.getElem?_eq_some_iff.1 he).1
      rwa [hu.ring.length] at this
    refine wp_seq (wp_on (embeds_pop u.ring.head e) ⟨hidle.tx, he, hact⟩
      (SpscRing.pop_spec hu.ring hlt)) hu
      fun _ v hv h => ?_
    exact maybeFireDrained_spec ⟨h.2.1, h.1.claimed⟩
  unfold txEntry
  refine wp_when_bind (fun hmark => ?_) (fun hmark => hpop s hs hidle he fun h => absurd h hmark)
  refine wp_modify_bind fun u hsu hu => ?_
  have hinv : Inv t { u with active := true } := ⟨hu.tx, hu.ring, hu.lowWater, fun _ => .inl rfl⟩
  have hidle := hidle.stable hsu
  refine ⟨⟨.refl _, .refl _, rfl⟩, hinv, hpop _ hinv ⟨hidle.tx, hidle.claimed⟩ ?_ fun _ => rfl⟩
  show u.ring.log[u.ring.head]? = some e
  rw [hsu.ring.head]
  exact getElem?_of_isPrefix hsu.ring.log he

theorem txDrain_spec (n : ℕ) (hs : Inv t s) (hidle : WorkerIdle s) :
    wp ((outline t).contract .worker) (txDrain t n) (fun _ => WorkerIdle) s := by
  induction n generalizing s with
  | zero => exact hidle
  | succ n ih =>
    unfold txDrain
    refine wp_seq (wp_on embeds_look hidle.tx (SpscRing.peek_spec hs.ring hidle.claimed)) hs
      fun o u hu h => ?_
    obtain ⟨⟨hm, ho⟩, htx⟩ := h
    have hidle' : WorkerIdle u := ⟨htx, hm.claimed.trans hidle.claimed⟩
    cases o with
    | none => exact maybeFireDrained_spec hidle'
    | some e =>
      have he : u.ring.log[u.ring.head]? = some e := by
        rw [show u.ring.head = s.ring.head from hm.head]
        exact ho
      exact wp_seq (txEntry_spec hidle' he hu) hu fun _ v hv h => ih hv h

end TxSide

end Aiopquic
