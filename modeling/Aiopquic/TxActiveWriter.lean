import Aiopquic.TxActive

/-!
# The writer of an active stream

`send_stream_data` under the proof outline of the send side.
-/

namespace Aiopquic

open Interleave Interleave.Prog Circular

namespace TxSide

variable {t : TxSite} {s s' : TxSide} {e : Entry}

/-! ## The writer -/

/-- The stream under a send that began when it carried `W` and `f` and the ring's tail was `n`. -/
structure Sending (W : List (List UInt8)) (f : Bool) (n : ℕ) (s : TxSide) : Prop where
  sending : s.sending = some (W, f, n)
  tail : s.ring.tail = n
  writes : W <+: s.tx.sc.txWrites
  fin : f = true → s.tx.sc.txBuf.finPending = true
  room : s.ring.tail < s.ring.head + s.ring.geo.capacity

theorem Sending.stable {W : List (List UInt8)} {f : Bool} {n : ℕ} (h : Sending W f n s)
    (hm : WorkerMoves s s') : Sending W f n s' := by
  refine ⟨hm.sending.trans h.sending, hm.ring.tail.trans h.tail, ?_, fun hf => ?_, ?_⟩
  · rw [StreamCtx.txWrites, hm.tx.sc.buf.writes]
    exact h.writes
  · rw [hm.tx.sc.buf.fin]
    exact h.fin hf
  · have := h.room
    have := hm.ring.head_le
    rw [hm.ring.tail, hm.ring.geo]
    omega

/-- The stream while a send commits. -/
theorem embeds_commit (W : List (List UInt8)) (f : Bool) (n : ℕ) :
    Embeds ((outline t).contract .asyncio) txLoc (TxStream.outline.contract .asyncio)
    (Sending W f n) where
  inv := fun s hs => hs.tx
  rely := fun _ _ h hm _ => ⟨hm.tx, h.stable hm⟩
  step := by
    rintro s tx hs h hg htx
    have hm : TxStream.AsyncioMoves s.tx tx := hg
    have hwr : W <+: tx.sc.txWrites := h.writes.trans hm.writes
    -- what is not news is a commit
    have hnews : tx.sc.txWrites = s.tx.sc.txWrites ∧
        tx.sc.txBuf.finPending = s.tx.sc.txBuf.finPending ∨ Committed (txLoc.set tx s) := by
      by_cases hw : tx.sc.txWrites = s.tx.sc.txWrites
      · by_cases hf : tx.sc.txBuf.finPending = s.tx.sc.txBuf.finPending
        · exact .inl ⟨hw, hf⟩
        · refine .inr ⟨W, f, n, h.sending, h.tail, .inr fun heq => hf ?_⟩
          have heq' : tx.sc.txBuf.finPending = f := heq
          cases f with
          | true => rw [heq', h.fin rfl]
          | false =>
            cases hs' : s.tx.sc.txBuf.finPending with
            | false => exact heq'
            | true => exact hm.fin_le hs'
      · refine .inr ⟨W, f, n, h.sending, h.tail, .inl fun heq => hw ?_⟩
        have heq' : tx.sc.txWrites = W := heq
        have h₁ := h.writes.length_le
        have h₂ := hm.writes.length_le
        rw [heq'] at h₂
        exact (hm.writes.eq_of_length (by rw [heq']; omega)).symm
    have hcom : Committed s → Committed (txLoc.set tx s) := by
      rintro ⟨W', f', n', hsd, hn, hne⟩
      rcases hnews with ⟨hw, hf⟩ | hc
      · refine ⟨W', f', n', hsd, hn, ?_⟩
        show tx.sc.txWrites ≠ W' ∨ tx.sc.txBuf.finPending ≠ f'
        rw [hw, hf]
        exact hne
      · exact hc
    refine ⟨⟨hm, .refl _, rfl, hnews.imp_right .inr, fun hc => .inr (hcom hc)⟩,
      ⟨htx, hs.ring, hs.lowWater, fun hse => ?_⟩, h.sending, h.tail, hwr,
      fun hf => hm.fin_le (h.fin hf), h.room⟩
    rcases hnews with ⟨hw, hf⟩ | hc
    · have hse' : Sendable s := by
        have htail : tx.sc.txBuf.tail = s.tx.sc.txBuf.tail := by
          rw [← htx.wf.length, ← hs.tx.wf.length]
          exact congrArg (fun w => w.flatten.length) hw
        rcases hse with hlt | ⟨hfin, hno⟩
        · have hlt' : tx.sc.txBuf.head < tx.sc.txBuf.tail := hlt
          rw [hm.head, htail] at hlt'
          exact .inl hlt'
        · refine .inr ⟨hf.symm.trans hfin, fun hh => hno ?_⟩
          show tx.FinHanded
          rw [TxStream.FinHanded, hm.frames]
          exact hh
      rcases hs.marked hse' with ha | hq | hc
      · exact .inl ha
      · exact .inr (.inl hq)
      · exact .inr (.inr (hcom hc))
    · exact .inr (.inr hc)

/-- The ring while the asyncio thread pushes `e`: the mark of the send under way, or any entry
outside one. -/
theorem embeds_push {n : ℕ} {sending : Option (List (List UInt8) × Bool × ℕ)} {ended : Bool}
    (he : IsMark t e ∨ sending = none) :
    Embeds ((outline t).contract .asyncio) ringLoc (SpscRing.producer n e)
      (fun s => s.tx.AsyncioIdle ∧ s.sending = sending ∧ s.tx.ended = ended) where
  inv := fun s hs => hs.ring
  rely := fun _ _ h hm _ =>
    ⟨hm.ring, h.1.stable hm.tx, hm.sending.trans h.2.1, hm.tx.ended.trans h.2.2⟩
  step := by
    rintro s r hs ⟨hidle, hsd, hended⟩ hg hr
    have hm : SpscRing.ProducerMoves s.ring r := hg.moves
    have hcom : Committed s → Queued t (ringLoc.set r s) ∨ Committed (ringLoc.set r s) := by
      rintro ⟨W, f, k, hsome, hk, hne⟩
      rcases he with he | hnone
      · cases hg with
        | stay => exact .inr ⟨W, f, k, hsome, hk, hne⟩
        | slot h => exact .inr ⟨W, f, k, hsome, hk, hne⟩
        | count c => exact .inr ⟨W, f, k, hsome, hk, hne⟩
        | publish h =>
          refine .inl ⟨e, ?_, he⟩
          have hle : s.ring.head ≤ s.ring.log.length := hs.ring.head_le.trans_eq hs.ring.length.symm
          show e ∈ (s.ring.log ++ [e]).drop s.ring.head
          rw [List.drop_append_of_le_length hle]
          simp
      · rw [hsd, hnone] at hsome
        exact absurd hsome (by simp)
    have hlow : s.lowWater < r.geo.capacity := by rw [hm.geo]; exact hs.lowWater
    refine ⟨⟨.refl _, hm, rfl, .inl ⟨rfl, rfl⟩, hcom⟩, ⟨hs.tx, hr, hlow, fun h => ?_⟩, hidle,
      hsd, hended⟩
    rcases hs.marked h with ha | hq | hc
    · exact .inl ha
    · exact .inr (.inl (hq.mono hm))
    · exact .inr (hcom hc)

/-- The asyncio thread outside a send, on a stream that has ended or not as at `s`. -/
structure Ready (s u : TxSide) : Prop extends AsyncioIdle u where
  ended : u.tx.ended = s.tx.ended

theorem Ready.stable {u v : TxSide} (h : Ready s u) (hm : WorkerMoves u v) : Ready s v :=
  ⟨h.toAsyncioIdle.stable hm, hm.tx.ended.trans h.ended⟩

/-- Counting the ring's entries. -/
theorem count_spec {r : TxSide} (hs : Inv t s) (hidle : Ready r s) :
    wp ((outline t).contract .asyncio) (SpscRing.count.on ringLoc)
      (fun k u => Ready r u ∧ u.ring.tail - u.ring.head ≤ k) s := by
  refine wp_mono (wp_on (embeds_push (n := 0) (e := {}) (.inr rfl))
    ⟨hidle.tx, hidle.sending, hidle.ended⟩
    SpscRing.count_producer) hs fun k u _ h => ?_
  obtain ⟨⟨-, hk, -⟩, htx, hsd, hended⟩ := h
  exact ⟨⟨⟨htx, hsd⟩, hended⟩, hk⟩

/-- What the worker leaves of a count. -/
theorem WorkerMoves.count_le {k : ℕ} (hm : WorkerMoves s s') (h : s.ring.tail - s.ring.head ≤ k) :
    s'.ring.tail - s'.ring.head ≤ k := by
  have := hm.ring.head_le
  rw [hm.ring.tail]
  omega

/-- The ring has room for one more entry. -/
def HasRoom (s : TxSide) : Prop := s.ring.tail < s.ring.head + s.ring.geo.capacity

/-- An arm that says there is no need to wait has seen room. -/
theorem armDrainPending_spec {r : TxSide} (hidle : Ready r s) :
    wp ((outline t).contract .asyncio) armDrainPending
      (fun b u => Ready r u ∧ (b = false → HasRoom u)) s := by
  unfold armDrainPending
  refine wp_modify_bind fun u hsu hu => ?_
  have hidle := hidle.stable hsu
  have hinv : Inv t { u with drainPending := true } := ⟨hu.tx, hu.ring, hu.lowWater, hu.marked⟩
  refine ⟨⟨.refl _, .refl _, rfl, .inl ⟨rfl, rfl⟩, .inr⟩, hinv, ?_⟩
  refine wp_seq (count_spec (r := r) hinv ⟨⟨hidle.tx, hidle.sending⟩, hidle.ended⟩) hinv
    fun k v hv h => ?_
  refine wp_load_bind fun w hvw hw => ⟨h.1.stable hvw, fun hb => ?_⟩
  have hk := hvw.count_le h.2
  have hle := hw.ring.head_le
  have hlow := hw.lowWater
  have := of_decide_eq_false hb
  rw [HasRoom]
  omega

theorem ringBusy_spec {r : TxSide} (hs : Inv t s) (hidle : Ready r s) :
    wp ((outline t).contract .asyncio) ringBusy (fun b u => Ready r u ∧ (b = false → HasRoom u))
    s := by
  unfold ringBusy
  refine wp_seq (count_spec hs hidle) hs fun k u hu h => ?_
  refine wp_load_bind fun v huv hv => ?_
  have hidle := h.1.stable huv
  split
  · exact armDrainPending_spec hidle
  · rename_i hcap
    refine ⟨hidle, fun _ => ?_⟩
    have hk := huv.count_le h.2
    have hle := hv.ring.head_le
    rw [HasRoom]
    omega

/-- Ending a send that has nothing uncommitted. -/
theorem endSend_spec {α : Type} {k : Unit → Prog TxSide α} {Q : α → TxSide → Prop}
    (hno : ∀ u, WorkerMoves s u → ¬ Committed u) (htx : s.tx.AsyncioIdle)
    (hk : ∀ u, Inv t u → AsyncioIdle u → wp ((outline t).contract .asyncio) (k ()) Q u) :
    wp ((outline t).contract .asyncio) (modify endSend >>= k) Q s := by
  refine wp_modify_bind fun u hsu hu => ?_
  have hno := hno u hsu
  have hinv : Inv t u.endSend := by
    refine ⟨hu.tx, hu.ring, hu.lowWater, fun h => ?_⟩
    rcases hu.marked h with ha | hq | hc
    · exact .inl ha
    · exact .inr (.inl hq)
    · exact absurd hc hno
  refine ⟨⟨.refl _, .refl _, rfl, .inl ⟨rfl, rfl⟩, fun hc => absurd hc hno⟩, hinv,
    hk _ hinv ⟨?_, rfl⟩⟩
  exact htx.stable hsu.tx

/-- A send keeps the outline. -/
theorem sendMarked_spec {mark : Entry} {data : List UInt8} {capacity : UInt32}
    {endStream hash : Bool}
    (hmark : IsMark t (mark.withData [])) (hs : Inv t s) (hidle : AsyncioIdle s)
    (hended : s.tx.ended = false) :
    wp ((outline t).contract .asyncio) (sendMarked mark data capacity endStream hash)
      (fun _ => AsyncioIdle) s := by
  unfold sendMarked
  refine wp_seq (ringBusy_spec (r := s) hs ⟨hidle, rfl⟩) hs fun busy u hu h => ?_
  obtain ⟨hready, hroom⟩ := h
  split
  · exact hready.toAsyncioIdle
  rename_i hbusy
  have hroom := hroom (by simpa using hbusy)
  refine wp_modify_bind fun v huv hv => ?_
  have hready := hready.stable huv
  have hno := hready.toAsyncioIdle.not_committed
  have hinv : Inv t v.beginSend := by
    refine ⟨hv.tx, hv.ring, hv.lowWater, fun h => ?_⟩
    rcases hv.marked h with ha | hq | hc
    · exact .inl ha
    · exact .inr (.inl hq)
    · exact absurd hc hno
  refine ⟨⟨.refl _, .refl _, rfl, .inl ⟨rfl, rfl⟩, fun hc => absurd hc hno⟩, hinv, ?_⟩
  have hsending : Sending v.tx.sc.txWrites v.tx.sc.txBuf.finPending v.ring.tail v.beginSend := by
    refine ⟨rfl, rfl, List.prefix_rfl, id, ?_⟩
    have := huv.ring.head_le
    show v.ring.tail < v.ring.head + v.ring.geo.capacity
    rw [huv.ring.tail, huv.ring.geo]
    exact hroom.trans_le (by omega)
  refine wp_seq (wp_on (embeds_commit _ _ _) hsending
    (TxStream.sendData_spec hready.tx (hready.ended.trans hended))) hinv fun rc w hw h => ?_
  obtain ⟨hwrote, hsend⟩ := h
  split
  · -- nothing was committed
    rename_i hrc
    obtain ⟨hwr, hfin⟩ := hwrote.refused hrc
    refine endSend_spec (fun x hwx => ?_) hwrote.idle fun x _ hx => hx
    rintro ⟨W, f, n, hsd, -, hne⟩
    rw [hwx.sending, hsend.sending] at hsd
    obtain ⟨rfl, rfl, rfl⟩ :
      v.tx.sc.txWrites = W ∧ v.tx.sc.txBuf.finPending = f ∧ v.ring.tail = n := by
      simpa using hsd
    rcases hne with hne | hne
    · exact hne (hwx.tx.sc.buf.writes.trans hwr)
    · exact hne (hwx.tx.sc.buf.fin.trans hfin)
  · -- the mark goes into the ring, which had room
    have hput := SpscRing.put_spec (e := mark.withData []) (k := ([] : List UInt8).length) hw.ring
    refine wp_seq (wp_on (embeds_push (.inl hmark)) ⟨hwrote.idle, hsend.sending, rfl⟩ hput) hw
      fun pushed x hx h => ?_
    obtain ⟨hpost, hidle, hsd, -⟩ := h
    rcases hpost with ⟨rfl, hput⟩ | ⟨-, -, hfull⟩
    · refine endSend_spec (fun y hxy => ?_) hidle fun y hy hidle => ?_
      · rintro ⟨W, f, n, hsome, hn, -⟩
        rw [hxy.sending, hsd] at hsome
        obtain ⟨rfl, rfl, rfl⟩ : v.tx.sc.txWrites = W ∧ v.tx.sc.txBuf.finPending = f ∧
          v.ring.tail = n := by
          simpa using hsome
        have hlen := congrArg List.length hput.log
        rw [show (ringLoc.get x).log.length = x.ring.tail from hx.ring.length, List.length_append,
          show w.ring.log.length = w.ring.tail from hw.ring.length, List.length_singleton,
          hsend.tail, ← hn, hxy.ring.tail] at hlen
        omega
      · rw [if_pos rfl]
        exact hidle
    · have := hsend.room
      have hfull' : w.ring.tail = w.ring.head + w.ring.geo.capacity := hfull
      omega

/-- Another command changes nothing of the stream. -/
theorem commandCall_spec {data : List UInt8} (hs : Inv t s) (hidle : AsyncioIdle s) :
    wp ((outline t).contract .asyncio) (commandCall e data) (fun _ => AsyncioIdle) s := by
  unfold commandCall
  have hput := SpscRing.put_spec (e := e.withData data) (k := data.length) hs.ring
  refine wp_seq (wp_on (embeds_push (.inr rfl)) ⟨hidle.tx, hidle.sending, rfl⟩ hput) hs
    fun _ u _ h => ?_
  exact ⟨h.2.1, h.2.2.1⟩

theorem outline_sound (t : TxSite) : (outline t).Sound := by
  rintro i s p hs hidle hp
  cases hp with
  | txSendAtomic _ data capacity endStream hash hlen hended =>
    exact wp_seq (sendMarked_spec ⟨rfl, rfl, rfl⟩ hs hidle hended) hs fun _ _ _ h => h
  | pushStreamData _ data capacity endStream hash hlen hended =>
    exact wp_seq (sendMarked_spec ⟨rfl, rfl, rfl⟩ hs hidle hended) hs fun _ _ _ h => h
  | command _ e data he => exact commandCall_spec hs hidle
  | txDrain _ n => exact txDrain_spec n hs hidle
  | prepareToSend _ length => exact pullCall_spec hs hidle
  | provideData _ session length => exact pullCall_spec hs hidle

theorem init_inv (t : TxSite) (txGeo rxGeo : Geometry) (lowWaterPct : ℕ) (env : Option ℤ) :
    Inv t (init txGeo rxGeo lowWaterPct env) := by
  refine ⟨TxStream.init_inv rxGeo, SpscRing.create_wf txGeo,
    lowWaterOf_lt txGeo.capacity_pos (wakePct_lt _ _), fun h => ?_⟩
  rcases h with h | ⟨h, -⟩
  · exact absurd h (lt_irrefl 0)
  · have hfin : false = true := h
    exact absurd hfin Bool.false_ne_true

theorem init_idle (t : TxSite) (txGeo rxGeo : Geometry) (lowWaterPct : ℕ) (env : Option ℤ)
    (i : Thread) :
    (outline t).idle i (init txGeo rxGeo lowWaterPct env) := by
  cases i with
  | worker => exact ⟨rfl, rfl⟩
  | asyncio => exact ⟨⟨rfl, rfl⟩, rfl⟩

end TxSide

end Aiopquic
