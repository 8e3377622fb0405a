import Aiopquic.RxDeliveryWorker

/-!
# The drain of a receiving stream

`drain_rx` under the proof outline, and what a run of callbacks and drains delivers.
-/

namespace Aiopquic

open Interleave Interleave.Prog Circular RxQueue

namespace RxStream

variable {r : RxSite} {A : List Entry} {h : ℕ} {s t : RxStream} {e : Entry}

/-! ## The drain's operations -/

/-- `t` agrees with `s` on what only the drain changes, the queue aside. -/
structure SameDrain (s t : RxStream) : Prop where
  events : t.events = s.events
  seen : t.seen = s.seen
  recorded : t.recorded = s.recorded
  covered : t.covered = s.covered
  head : t.sc.rxBuf.head = s.sc.rxBuf.head

theorem SameDrain.refl (s : RxStream) : SameDrain s s := ⟨rfl, rfl, rfl, rfl, rfl⟩

theorem SameDrain.stable {u : RxStream} (h : SameDrain s t) (hm : WorkerMoves r t u) :
    SameDrain s u :=
  ⟨hm.events.trans h.events, hm.seen.trans h.seen, hm.recorded.trans h.recorded,
    hm.covered.trans h.covered, hm.sc.head.trans h.head⟩

/-- The entry `e` at the head of the queue. -/
structure AtEntry (e : Entry) (s : RxStream) : Prop where
  settled : Settled s.rx.q
  nonempty : s.rx.q.ring.head < s.rx.q.ring.tail
  entry : s.accepted[s.head]? = some e

theorem AtEntry.stable (h : AtEntry e s) (hs : Inv r s) (ht : Inv r t) (hm : WorkerMoves r s t) :
    AtEntry e t := by
  have hhead : t.head = s.head := hm.queue.head
  refine ⟨h.settled.stable hm.queue, ?_, ?_⟩
  · have hlen := hm.queue.log.length_le
    rw [hs.queue.ring.length, ht.queue.ring.length] at hlen
    rw [hm.queue.head]
    exact h.nonempty.trans_le hlen
  · rw [hhead]
    exact getElem?_of_isPrefix hm.queue.accepted h.entry

/-- The entry at the head has been dealt with. -/
structure Handled (r : RxSite) (e : Entry) (s : RxStream) : Prop extends AtEntry e s where
  seen : Notes r e → s.head < s.seen
  recorded : isFin r e = true → s.head < s.recorded
  delivered : (deliveredBytes s.events).length = s.sc.rxBuf.head
  covered : s.covered ≤ s.sc.rxBuf.head

/-- The queue while the drain looks at it. -/
theorem embeds_look (s : RxStream) :
    Embeds ((outline r).contract .asyncio) qLoc (consumer none) (SameDrain s) where
  inv := fun s hs => hs.queue
  rely := fun _ _ h hm _ => ⟨hm.queue, h.stable hm⟩
  step := by
    rintro t q ht hsame hg hq
    have hhead : q.ring.head = t.head := hg.head.resolve_right fun h => by simp at h
    refine ⟨⟨hg.moves, rfl, .refl _, rfl, rfl, rfl, rfl, rfl, rfl⟩, ⟨hq, ?_⟩,
      ⟨hsame.1, hsame.2, hsame.3, hsame.4, hsame.5⟩⟩
    show Core r q.accepted q.ring.head _
    rw [hhead, hg.moves.accepted]
    exact ht.core.queue _

/-- The queue while the drain pops an entry it has dealt with. -/
theorem embeds_pop (s : RxStream) (hs : s.accepted[s.head]? = some e)
    (hseen : Notes r e → s.head < s.seen)
    (hrec : isFin r e = true → s.head < s.recorded) :
    Embeds ((outline r).contract .asyncio) qLoc (consumer (some s.head))
      (fun t => SameDrain s t ∧ s.accepted <+: t.accepted) where
  inv := fun s hs => hs.queue
  rely := fun _ _ h hm _ => ⟨hm.queue, h.1.stable hm, h.2.trans hm.queue.accepted⟩
  step := by
    rintro t q ht ⟨hsame, hacc⟩ hg hq
    have hqacc : q.accepted = t.accepted := hg.moves.accepted
    refine ⟨⟨hg.moves, rfl, .refl _, rfl, rfl, rfl, rfl, rfl, rfl⟩, ⟨hq, ?_⟩,
      ⟨hsame.1, hsame.2, hsame.3, hsame.4, hsame.5⟩, ?_⟩
    · show Core r q.accepted q.ring.head _
      rw [hqacc]
      rcases hg.head with hh | ⟨hsome, hh⟩
      · rw [show q.ring.head = t.head from hh]
        exact ht.core.queue _
      · have hth : t.head = s.head := (Option.some.inj hsome).symm
        rw [show q.ring.head = t.head + 1 from hh]
        have hte : t.accepted[t.head]? = some e := by
          rw [hth]
          exact getElem?_of_isPrefix hacc hs
        refine (ht.core.advance hte (fun hn => ?_) fun hf => ?_).queue _
        · rw [hth, hsame.seen]
          exact hseen hn
        · rw [hth, hsame.recorded]
          exact hrec hf
    · show s.accepted <+: q.accepted
      rw [hqacc]
      exact hacc

theorem AsyncioIdle.of_refilled (h : AsyncioIdle s) (hsame : SameDrain s t)
    (hr : Refilled s.rx.q t.rx.q) :
    AsyncioIdle t := by
  have hhead : t.head = s.head := hr.head
  refine ⟨hr.settled, hr.claimed.trans h.claimed, ?_, ?_, ?_, ?_⟩
  · rw [hsame.seen, hhead]
    exact h.seen
  · rw [hsame.recorded, hhead]
    exact h.recorded
  · rw [hsame.events, hsame.head]
    exact h.delivered
  · rw [hsame.covered, hsame.head]
    exact h.covered

theorem refill_idle (hs : Inv r s) (hidle : AsyncioIdle s) :
    wp ((outline r).contract .asyncio) (refill.on qLoc) (fun _ => AsyncioIdle) s :=
  wp_mono (wp_on (embeds_look s) (.refl s) (refill_spec hidle.settled)) hs
    fun _ _ _ h => hidle.of_refilled h.2 h.1

/-- The drain has peeked the entry `e`. -/
structure Peeked (e : Entry) (s : RxStream) : Prop extends AsyncioIdle s, AtEntry e s

theorem peek_idle (hs : Inv r s) (hidle : AsyncioIdle s) :
    wp ((outline r).contract .asyncio) (peek.on qLoc)
      (fun o t => match o with | none => AsyncioIdle t | some e => Peeked e t) s := by
  refine wp_mono (wp_on (embeds_look s) (.refl s) (peek_spec hs.queue hidle.settled hidle.claimed))
    hs
    fun o t ht h => ?_
  obtain ⟨⟨hr, ho⟩, hsame⟩ := h
  have hidle' := hidle.of_refilled hsame hr
  cases o with
  | none => exact hidle'
  | some e =>
    have hlog : t.rx.q.ring.log[t.rx.q.ring.head]? = some e := by
      rw [show t.rx.q.ring.head = s.rx.q.ring.head from hr.head]
      exact ho
    refine ⟨hidle', ?_, accepted_getElem? hlog⟩
    have := (List.getElem?_eq_some_iff.1 hlog).1
    rwa [ht.queue.ring.length] at this

theorem pop_handled (hs : Inv r s) (h : Handled r e s) :
    wp ((outline r).contract .asyncio) (pop.on qLoc) (fun _ => AsyncioIdle) s := by
  refine wp_mono (wp_on (embeds_pop s h.entry h.seen h.recorded) ⟨.refl s, List.prefix_rfl⟩
    (RxQueue.pop_spec hs.queue h.settled h.nonempty)) hs fun _ t ht hp => ?_
  obtain ⟨hp, hsame, -⟩ := hp
  have hhead : t.head = s.head + 1 := hp.head
  refine ⟨hp.settled, hp.claimed, ?_, ?_, ?_, ?_⟩
  · rw [hsame.seen, hhead]
    exact hs.core.seen_le.2
  · rw [hsame.recorded, hhead]
    exact hs.core.recorded_le.2
  · rw [hsame.events, hsame.head]
    exact h.delivered
  · rw [hsame.covered, hsame.head]
    exact h.covered

/-- The drain has cleared the flag for the entry `e` and has yet to return its event. -/
structure Cleared (r : RxSite) (e : Entry) (s : RxStream) : Prop extends AtEntry e s where
  notes : Notes r e
  seen : s.seen = s.head + 1
  recorded : s.recorded ≤ s.head

theorem Cleared.stable (h : Cleared r e s) (hs : Inv r s) (ht : Inv r t) (hm : WorkerMoves r s t) :
    Cleared r e t := by
  have hhead : t.head = s.head := hm.queue.head
  refine ⟨h.toAtEntry.stable hs ht hm, h.notes, ?_, ?_⟩
  · rw [hm.seen, hhead]
    exact h.seen
  · rw [hm.recorded, hhead]
    exact h.recorded

/-- The drain has taken the bytes `d` for the entry `e`. -/
structure TookBytes (r : RxSite) (e : Entry) (d : Option (List UInt8)) (s : RxStream) : Prop extends
    Cleared r e s where
  bytes : deliveredBytes s.events ++ d.getD [] = s.sc.rxBytes.take s.sc.rxBuf.head
  covered : s.covered ≤ s.sc.rxBuf.head
  fin : isFin r e = true → s.sc.rxBuf.head = s.sc.rxBuf.tail

/-- Once the FIN is in the queue, no byte is added. -/
theorem WorkerMoves.tail_eq (hm : WorkerMoves r s t) (hs : Inv r s) (ht : Inv r t) {i : ℕ}
    (he : s.accepted[i]? = some e) (hf : isFin r e = true) : t.sc.rxBuf.tail = s.sc.rxBuf.tail := by
  rw [← hs.core.ring.length, ← ht.core.ring.length]
  exact congrArg (fun w => w.flatten.length) (hm.fin ⟨e, List.mem_of_getElem? he, hf⟩)

/-- What was taken stays a prefix of the bytes. -/
theorem take_of_feeds {sc sc' : StreamCtx} (hm : StreamCtx.RxFeeds sc sc') (hw : sc.rxBuf.Wf) :
    sc'.rxBytes.take sc.rxBuf.head = sc.rxBytes.take sc.rxBuf.head := by
  have hlen : sc.rxBytes.length = sc.rxBuf.tail := hw.length
  have hle := hw.head_le
  have := take_drop_of_isPrefix (i := 0) (n := sc.rxBuf.head) hm.bytes (by omega)
  rwa [List.drop_zero, List.drop_zero] at this

theorem TookBytes.stable {d : Option (List UInt8)} (h : TookBytes r e d s) (hs : Inv r s)
    (ht : Inv r t)
    (hm : WorkerMoves r s t) : TookBytes r e d t := by
  refine ⟨h.toCleared.stable hs ht hm, ?_, ?_, fun hf => ?_⟩
  · rw [hm.events, hm.sc.head, take_of_feeds hm.sc hs.core.ring]
    exact h.bytes
  · rw [hm.covered, hm.sc.head]
    exact h.covered
  · rw [hm.sc.head, hm.tail_eq hs ht h.entry hf]
    exact h.fin hf

/-- The context while the drain takes the bytes for the entry `e`. -/
theorem embeds_receiver (base : ℕ) (e : Entry) (s : RxStream) :
    Embeds ((outline r).contract .asyncio) scLoc (StreamCtx.receiver base)
      (fun t => Inv r t ∧ Cleared r e t ∧ t.events = s.events ∧ t.covered = s.covered ∧
        (isFin r e = true → t.sc.rxBuf.tail = s.sc.rxBuf.tail)) where
  inv := fun t ht => ht.core.ring
  rely := by
    rintro t u ⟨ht, hc, hev, hcov, htail⟩ hm hu
    exact ⟨hm.sc, hu, hc.stable ht hu hm, hm.events.trans hev, hm.covered.trans hcov,
      fun hf => (hm.tail_eq ht hu hc.entry hf).trans (htail hf)⟩
  step := by
    rintro t sc ht ⟨-, hc, hev, hcov, htail⟩ hstep hwf
    obtain ⟨hsome, hbuf, hflag, -, -⟩ := hstep.pops
    have hinv : Inv r (scLoc.set sc t) := ⟨ht.queue, ht.core.take hbuf hwf hflag⟩
    exact ⟨⟨.refl _, hsome, hbuf, rfl, rfl, rfl, rfl, rfl, rfl⟩, hinv, hinv,
      ⟨⟨hc.settled, hc.nonempty, hc.entry⟩, hc.notes, hc.seen, hc.recorded⟩, hev, hcov,
      fun hf => hbuf.tail.trans (htail hf)⟩

/-- After the clear, the drain takes everything the ring held then, and all of it for a FIN. -/
theorem popRx_took (hs : Inv r s) (hc : Cleared r e s)
    (hdel : (deliveredBytes s.events).length = s.sc.rxBuf.head) :
    wp ((outline r).contract .asyncio) (StreamCtx.popRx.on scLoc) (TookBytes r e) s := by
  refine wp_mono (wp_on (embeds_receiver _ e s) ⟨hs, hc, rfl, rfl, fun _ => rfl⟩
    (StreamCtx.popRx_spec hs.core.ring (Nat.le_add_left _ _))) hs fun d t ht h => ?_
  obtain ⟨htaken, -, hct, hev, hcov, htail⟩ := h
  have htle : s.sc.rxBuf.tail ≤ t.sc.rxBuf.head := htaken.tail_le
  refine ⟨hct, ?_, ?_, fun hf => ?_⟩
  · have hold : deliveredBytes s.events = t.sc.rxBytes.take s.sc.rxBuf.head := by
      have hp : deliveredBytes s.events <+: t.sc.rxBytes := by
        rw [← hev]
        exact ht.core.delivered
      rw [← hdel]
      exact List.prefix_iff_eq_take.1 hp
    rw [hev, hold]
    exact htaken.bytes
  · rw [hcov]
    exact hs.core.covered_le.trans htle
  · have := ht.core.ring.head_le
    have := htail hf
    omega

/-- Returning the event of an entry whose bytes were taken, or skipping it. -/
theorem deliver_took {d : Option (List UInt8)} (hs : Inv r s) (h : TookBytes r e d s) :
    wp ((outline r).contract .asyncio) (deliver e d) (fun _ => Handled r e) s := by
  unfold deliver
  split
  · rename_i hskip
    obtain ⟨rfl, hdata⟩ := hskip
    refine ⟨h.toAtEntry,
      fun _ => by rw [h.seen]; exact Nat.lt_succ_self _, fun hf => ?_, ?_, h.covered⟩
    · have := (of_decide_eq_true hf).1
      rw [hdata] at this
      exact absurd this (by simp)
    · have hb := congrArg List.length h.bytes
      have hlen : s.sc.rxBytes.length = s.sc.rxBuf.tail := hs.core.ring.length
      have hle := hs.core.ring.head_le
      rw [Option.getD_none, List.append_nil, List.length_take] at hb
      omega
  · refine wp_modify fun t hst ht => ?_
    have h := h.stable hs ht hst
    have hlen : t.sc.rxBytes.length = t.sc.rxBuf.tail := ht.core.ring.length
    have hle := ht.core.ring.head_le
    have hown := ht.core.own h.entry (.inr h.notes)
    have hdel : (deliveredBytes t.events ++ d.getD []).length = t.sc.rxBuf.head := by
      rw [h.bytes, List.length_take]
      omega
    have hcore := ht.core.record h.entry hown.ours h.recorded (d := d)
      (by rw [h.bytes]; exact List.take_prefix _ _) hdel.le fun hf => ?_
    · refine ⟨⟨.refl _, rfl, .refl _, rfl, rfl, rfl, rfl, rfl, rfl⟩, ⟨ht.queue, hcore⟩,
        ⟨⟨h.settled, h.nonempty, h.entry⟩, fun _ => ?_, fun _ => Nat.lt_succ_self _, ?_, h.covered⟩⟩
      · show t.head < t.seen
        rw [h.seen]
        exact Nat.lt_succ_self _
      · show (deliveredBytes (t.events ++ [⟨e.eventType, d⟩])).length = t.sc.rxBuf.head
        rw [← hdel, deliveredBytes_snoc]
    · have hfin := h.fin (decide_eq_true ⟨hf, hown.ours.2⟩)
      rw [h.bytes, hfin, ← hlen, List.take_length]

/-- An entry that names no context: its stream never got a byte. -/
theorem deliver_bare (hs : Inv r s) (h : Peeked e s) (ho : Ours r e) (hn : ¬ Notes r e) :
    wp ((outline r).contract .asyncio) (deliver e none) (fun _ => Handled r e) s := by
  unfold deliver
  split
  · rename_i hskip
    refine ⟨h.toAtEntry, fun h' => absurd h' hn, fun hf => ?_, h.delivered, h.covered⟩
    have := (of_decide_eq_true hf).1
    rw [hskip.2] at this
    exact absurd this (by simp)
  · refine wp_modify fun t hst ht => ?_
    have hidle := h.toAsyncioIdle.stable hst
    have hat := h.toAtEntry.stable hs ht hst
    have hcore := ht.core.record hat.entry ho hidle.recorded (d := none)
      (by simpa using ht.core.delivered) (by simpa using hidle.delivered.le) fun hf => ?_
    · refine ⟨⟨.refl _, rfl, .refl _, rfl, rfl, rfl, rfl, rfl, rfl⟩, ⟨ht.queue, hcore⟩,
        ⟨⟨hat.settled, hat.nonempty, hat.entry⟩, fun h' => absurd h' hn, fun _ =>
          Nat.lt_succ_self _, ?_,
          hidle.covered⟩⟩
      show (deliveredBytes (t.events ++ [⟨e.eventType, none⟩])).length = t.sc.rxBuf.head
      rw [deliveredBytes_snoc, Option.getD_none, List.append_nil]
      exact hidle.delivered
    · have hnil : t.sc.rxBytes = [] := congrArg List.flatten
        (ht.core.orphan e (List.mem_of_getElem? hat.entry) (decide_eq_true ⟨hf, ho.2⟩)
          fun hptr => hn ⟨ho.1, hptr⟩)
      have := ht.core.delivered
      rw [hnil] at this ⊢
      simpa using List.prefix_nil.1 this

/-- An entry of another stream or kind needs nothing. -/
theorem Peeked.handled (h : Peeked e s) (ho : ¬ Ours r e) (hn : ¬ Notes r e) : Handled r e s :=
  ⟨h.toAtEntry, fun h' => absurd h' hn, fun hf => absurd (isFin_ours hf) ho, h.delivered, h.covered⟩

/-- Processing an entry keeps the drain's state between entries. -/
theorem process_idle (hs : Inv r s) (h : Peeked e s) :
    wp ((outline r).contract .asyncio) (process r e) (fun _ => AsyncioIdle) s := by
  unfold process
  split
  · rename_i hfrees
    have hforeign : Foreign r e :=
      (hs.core.entries e (List.mem_of_getElem? h.entry)).resolve_right fun hown => hown.frees hfrees
    rw [when, if_neg hforeign.1]
    refine wp_seq (wp_on (embeds_look s) (.refl s)
      (takeData_spec hs.queue h.toAtEntry.settled h.nonempty)) hs
      fun _ t ht hp => ?_
    obtain ⟨⟨hset, hhead, hlt, hacc⟩, hsame⟩ := hp
    have hth : t.head = s.head := hhead
    refine pop_handled ht (e := e) ⟨⟨hset, hlt, ?_⟩, fun hn => absurd hn hforeign.2,
      fun hf => absurd (isFin_ours hf) hforeign.1, ?_, ?_⟩
    · rw [hth]
      exact getElem?_of_isPrefix hacc h.entry
    · rw [hsame.events, hsame.head]
      exact h.delivered
    · rw [hsame.covered, hsame.head]
      exact h.covered
  split
  · rename_i hn
    refine wp_modify_bind fun t hst ht => ?_
    have hidle := h.toAsyncioIdle.stable hst
    have hat := h.toAtEntry.stable hs ht hst
    have hinv : Inv r t.clearEvent := ⟨ht.queue, ht.core.clear hat.entry hn hidle.seen⟩
    refine ⟨⟨.refl _, rfl, .refl _, rfl, rfl, rfl, rfl, rfl, rfl⟩, hinv, ?_⟩
    have hc : Cleared r e t.clearEvent :=
      ⟨⟨hat.settled, hat.nonempty, hat.entry⟩, hn, rfl, hidle.recorded⟩
    refine wp_seq (popRx_took hinv hc hidle.delivered) hinv fun d u hu htook => ?_
    exact wp_seq (deliver_took hu htook) hu fun _ v hv hh => pop_handled hv hh
  · rename_i hn
    refine wp_when_bind (fun ho => ?_) (fun ho => pop_handled hs (h.handled ho hn))
    exact wp_seq (deliver_bare hs h ho hn) hs fun _ t ht hh => pop_handled ht hh

/-- A step of the wake fd protocol that leaves the queue alone. -/
theorem wake_idle {f : WakeCtx → WakeCtx} (hf : ∀ w, (f w).q = w.q) (hidle : AsyncioIdle s) :
    wp ((outline r).contract .asyncio) ((modify f).on rxLoc) (fun _ => AsyncioIdle) s := by
  rw [on_modify]
  refine wp_modify fun t hst ht => ?_
  have hidle := hidle.stable hst
  have hq : (f t.rx).q = t.rx.q := hf t.rx
  have hmoves : ConsumerMoves t.rx.q (f t.rx).q := by rw [hq]; exact .refl _
  refine ⟨⟨hmoves, rfl, .refl _, rfl, rfl, rfl, rfl, rfl, rfl⟩, ⟨?_, ?_⟩, ?_⟩
  · show (f t.rx).q.Inv
    rw [hq]
    exact ht.queue
  · show Core r (f t.rx).q.accepted (f t.rx).q.ring.head _
    rw [hq]
    exact ht.core.queue _
  · refine ⟨?_, ?_, ?_, ?_, hidle.delivered, hidle.covered⟩
    · show Settled (f t.rx).q
      rw [hq]
      exact hidle.settled
    · show (f t.rx).q.ring.claimed = false
      rw [hq]
      exact hidle.claimed
    · show t.seen ≤ (f t.rx).q.ring.head
      rw [hq]
      exact hidle.seen
    · show t.recorded ≤ (f t.rx).q.ring.head
      rw [hq]
      exact hidle.recorded

theorem clearRx_idle (hs : Inv r s) (hidle : AsyncioIdle s) :
    wp ((outline r).contract .asyncio) (WakeCtx.clearRx.on rxLoc) (fun _ => AsyncioIdle) s := by
  rw [WakeCtx.clearRx, on_bind, on_on]
  refine wp_seq (refill_idle hs hidle) hs fun _ t ht hidle => ?_
  rw [on_bind]
  refine wp_seq (wake_idle (fun _ => rfl) hidle) ht fun _ u hu hidle => ?_
  rw [on_bind]
  refine wp_seq (wake_idle (fun _ => rfl) hidle) hu fun _ v hv hidle => ?_
  rw [on_bind, on_on]
  refine wp_seq (wp_on (embeds_look v) (.refl v) (count_spec hv.queue hidle.settled)) hv
    fun left w hw h => ?_
  have hidle := hidle.of_refilled h.2 h.1.1
  split
  · exact wake_idle (fun _ => rfl) hidle
  rw [on_bind, on_load rxLoc fun _ => rfl]
  refine wp_load_bind fun x hwx hx => ?_
  have hidle := hidle.stable hwx
  split
  · exact wake_idle (fun _ => rfl) hidle
  · exact wake_idle (fun _ => rfl) hidle

theorem drain_spec (maxEvents : ℕ) (hs : Inv r s) (hidle : AsyncioIdle s) :
    wp ((outline r).contract .asyncio) (drain r maxEvents) (fun _ => AsyncioIdle) s := by
  unfold drain
  refine wp_seq (refill_idle hs hidle) hs fun _ t ht hidle => ?_
  refine wp_seq (drainLoop_spec (R := Peeked) (fun _ hs h => peek_idle hs h)
    (fun _ hs h => refill_idle hs h) (fun _ _ hs h => process_idle hs h) maxEvents ht hidle) ht
    fun _ u hu hidle => clearRx_idle hu hidle

theorem outline_sound (r : RxSite) : (outline r).Sound := by
  rintro i s p hs hidle hp
  cases hp with
  | stream _ data fin hroom hfin => exact streamCb_spec hidle hroom hfin
  | other _ e data he => exact otherCb_spec hs hidle he
  | drain _ maxEvents => exact drain_spec maxEvents hs hidle

theorem init_inv (r : RxSite) (geo : Geometry) (attached : Bool) : Inv r (init geo attached) := by
  refine ⟨RxQueue.create_inv geo, ?_⟩
  have hacc : (init geo attached).accepted = [] := rfl
  rw [hacc]
  refine ⟨StreamBuf.create_wf 0 false, List.prefix_rfl, fun _ => rfl, le_rfl, by simp, by simp,
    ⟨le_rfl, by simp [init]⟩,
    ⟨le_rfl, by simp [init]⟩, by
      simp [init], by simp, by simp [init], fun _ => le_rfl, le_rfl, .inl le_rfl,
    List.prefix_rfl, le_rfl, ?_, by simp, fun _ => rfl, by simp, rfl, by simp [init]⟩
  rintro ⟨f, hf, -⟩
  simp at hf

theorem init_idle (r : RxSite) (geo : Geometry) (attached : Bool) (i : Thread) :
    (outline r).idle i (init geo attached) := by
  cases i with
  | worker => exact ⟨rfl, rfl, rfl, rfl, rfl, fun h => by simp [init] at h⟩
  | asyncio => exact ⟨⟨rfl, rfl, rfl⟩, rfl, le_rfl, le_rfl, rfl, le_rfl⟩

/-! ## Every interleaving -/

/-- The events of the stream that a run has returned, against the callbacks it has made. -/
structure RxDelivered (r : RxSite) (c : Config Thread RxStream) : Prop where
  /-- The bytes delivered are the first ones received, in order. -/
  bytes : deliveredBytes c.mem.events <+: c.mem.started.flatten
  /-- What is not delivered waits in the ring. -/
  pushed : c.Idle .worker → c.mem.sc.rxBytes = c.mem.started.flatten
  conserved : c.Idle .asyncio → deliveredBytes c.mem.events ++ c.mem.sc.rxBuf.queued =
    c.mem.sc.rxBytes
  /-- The FIN event comes after all bytes, and it is the last event. -/
  fin : ∀ before f after, c.mem.events = before ++ f :: after → f.eventType = .streamFin →
    deliveredBytes (before ++ [f]) = c.mem.started.flatten ∧ after = []
  fin_delivered : c.Idle .worker → c.Idle .asyncio → c.mem.finStarted = true →
    (∀ e ∈ c.mem.rx.q.ring.contents ++ c.mem.rx.q.ovf.list, ¬ Ours r e) →
      ∃ f ∈ c.mem.events, f.eventType = .streamFin
  /-- At most one `STREAM_DATA` is queued behind the entry whose flag is cleared, which is being
  processed. -/
  coalesced : c.mem.emptyData = 0 →
    (c.mem.accepted.drop (max c.mem.head c.mem.seen)).countP (isData r) ≤ 1
  processing : c.mem.seen ≤ c.mem.head + 1
  processed : c.Idle .asyncio → c.mem.seen ≤ c.mem.head
  /-- Without an entry of the stream there is no byte of it left. -/
  empty : c.Idle .worker → c.Idle .asyncio →
    (∀ e ∈ c.mem.rx.q.ring.contents ++ c.mem.rx.q.ovf.list, ¬ Ours r e) →
      c.mem.sc.rxBuf.head = c.mem.sc.rxBuf.tail

/-- An entry that the queue holds no more has been dealt with. -/
theorem Inv.passed_of_not_queued (hs : Inv r s) (hq : ∀ e ∈ s.rx.q.queued, ¬ Ours r e) {i : ℕ}
    (he : s.accepted[i]? = some e) (ho : Ours r e) :
    (Notes r e → i < s.seen) ∧ (isFin r e = true → i < s.recorded) := by
  refine hs.core.passed i e ?_ he
  by_contra hge
  have hmem : e ∈ s.rx.q.queued := by
    refine List.mem_of_getElem? (i := i - s.head) ?_
    rw [RxQueue.queued, List.getElem?_drop]
    show s.accepted[s.head + (i - s.head)]? = some e
    rw [Nat.add_sub_cancel' (not_lt.1 hge)]
    exact he
  exact hq e hmem ho

/-- Every byte received is delivered in order, whatever the two threads do. -/
theorem rx_stream_delivered (r : RxSite) (geo : Geometry) (attached : Bool)
    {c : Config Thread RxStream}
    (hc : Reachable (Menu r) (init geo attached) c) : RxDelivered r c := by
  have h := (outline r).reachable (outline_sound r) (init_inv r geo attached)
    (init_idle r geo attached) hc
  have hinv : Inv r c.mem := h.1
  have hcore := hinv.core
  refine ⟨?_, fun hw => ?_, fun ha => ?_, fun before f after heq hf => ?_, fun hw ha hfin hq => ?_,
    fun h0 => ?_, hcore.seen_le.2, fun ha => AsyncioIdle.seen (h.idle ha), fun hw ha hq => ?_⟩
  · obtain ⟨l, hl⟩ := hcore.started
    refine hcore.delivered.trans ?_
    rw [← hl, List.flatten_append]
    exact List.prefix_append _ _
  · exact congrArg List.flatten (WorkerIdle.writes (h.idle hw))
  · have hdel : (deliveredBytes c.mem.events).length = c.mem.sc.rxBuf.head :=
      AsyncioIdle.delivered (h.idle ha)
    rw [StreamBuf.queued, ← hdel]
    conv_lhs => rw [List.prefix_iff_eq_take.1 hcore.delivered]
    rw [List.length_take, min_eq_left hcore.delivered.length_le]
    exact List.take_append_drop _ _
  · obtain ⟨i, g, -, hg, hgf⟩ := hcore.hasFin heq hf
    obtain ⟨hbytes, hafter⟩ := hcore.finLast before f after heq hf
    refine ⟨hbytes.trans ?_, hafter⟩
    exact congrArg List.flatten (hcore.finBytes ⟨g, List.mem_of_getElem? hg, hgf⟩)
  · have hai : AsyncioIdle c.mem := h.idle ha
    rw [← hinv.queue.queued_eq hai.settled hai.claimed] at hq
    obtain ⟨f, hf, hff⟩ := WorkerIdle.fin (h.idle hw) hfin
    obtain ⟨i, hi, hfi⟩ := List.getElem_of_mem hf
    have hfi' : c.mem.accepted[i]? = some f := by rw [List.getElem?_eq_getElem hi, hfi]
    have hrec := (hinv.passed_of_not_queued hq hfi' (isFin_ours hff)).2 hff
    have hpos : 0 < (c.mem.accepted.take c.mem.recorded).countP (isFin r) := by
      refine List.countP_pos_iff.2 ⟨f, List.mem_of_getElem? (i := i) ?_, hff⟩
      rw [List.getElem?_take_of_lt hrec, hfi']
    rw [← hcore.finEvents, List.countP_pos_iff] at hpos
    obtain ⟨g, hg, hgf⟩ := hpos
    exact ⟨g, hg, of_decide_eq_true hgf⟩
  · have hle : (c.mem.accepted.drop (max c.mem.head c.mem.seen)).countP (isData r) ≤
        (c.mem.accepted.drop c.mem.seen).countP (isData r) :=
      List.Sublist.countP_le (List.drop_sublist_drop_left _ (le_max_right _ _))
    have := hcore.coalesced h0
    have := Bool.toNat_le c.mem.sc.rxEventPending
    omega
  · have hwi : WorkerIdle r c.mem := h.idle hw
    have hai : AsyncioIdle c.mem := h.idle ha
    rw [← hinv.queue.queued_eq hai.settled hai.claimed] at hq
    have hle := hcore.ring.head_le
    have hcov := hai.covered
    rcases hcore.covered with hc' | hc' | hc' | ⟨i, e, hi, he, hn⟩
    · omega
    · exact absurd (hwi.owes.symm.trans hc') (by simp)
    · rw [Armed, hwi.arming] at hc'
      exact absurd hc' (by simp)
    · have := (hinv.passed_of_not_queued hq he (hcore.own he (.inr hn)).ours).1 hn
      omega

/-- A stream on connection 1 with a ring of four bytes. -/
def smallSite : RxSite := ⟨1, 4, 7, 4, false, by decide⟩

/-- A callback arrives between the drain's count of the bytes and its pop: it finds the flag cleared
and pushes a second notification. Then the FIN comes with the byte that wraps. -/
def rearmedRun : Config Thread RxStream :=
  (Config.start (init (.ofExp 1 Geometry.exp_one) false)).call .worker
    (streamCb smallSite [1, 2] false)
    |>.drive (.replicate 18 .worker) |>.call .asyncio (drain smallSite 4) |>.drive
      (.replicate 9 .asyncio)
    |>.call .worker (streamCb smallSite [3] false) |>.drive
      (.replicate 15 .worker ++ .replicate 43 .asyncio)
    |>.call .worker (streamCb smallSite [4] true) |>.drive (.replicate 17 .worker)
    |>.call .asyncio (drain smallSite 4) |>.drive (.replicate 32 .asyncio)

theorem rx_stream_delivered_rearmedRun :
    rearmedRun.mem.events =
      [⟨.streamData, some [1, 2]⟩, ⟨.streamData, some [3]⟩, ⟨.streamFin, some [4]⟩] ∧
      RxDelivered smallSite rearmedRun := by
  have h₀ : Reachable (Menu smallSite) (init (.ofExp 1 (by decide)) false)
      (Config.start (init (.ofExp 1 (by decide)) false)) := .refl
  have h₁ := (h₀.call (i := .worker) rfl (.stream _ [1, 2] false (by decide) rfl)).drive
    (.replicate 18 .worker)
  have h₂ := (h₁.call (i := .asyncio) rfl (.drain _ 4)).drive (.replicate 9 .asyncio)
  have h₃ := (h₂.call (i := .worker) rfl (.stream _ [3] false (by decide) rfl)).drive
    (.replicate 15 .worker ++ .replicate 43 .asyncio)
  have h₄ := (h₃.call (i := .worker) rfl (.stream _ [4] true (by decide) rfl)).drive
    (.replicate 17 .worker)
  have h₅ := (h₄.call (i := .asyncio) rfl (.drain _ 4)).drive (.replicate 32 .asyncio)
  exact ⟨by decide +kernel, rx_stream_delivered _ _ _ h₅⟩

end RxStream

end Aiopquic
