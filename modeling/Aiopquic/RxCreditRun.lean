import Aiopquic.RxCreditCallback

/-!
# Credit over a run

The worker's drain of the TX event ring, the asyncio thread's steps, and what every run keeps.
-/

namespace Aiopquic

open Interleave Interleave.Prog Circular

namespace RxCredit

variable {r : CreditSite} {strict : Prop} {s s' : RxCredit} {e : Entry} {n : ℕ}

/-! ### A drain of the TX event ring -/

/-- The entry before number `n` is at the head of the ring, and it is no longer needed. -/
structure Handled (r : CreditSite) (strict : Prop) (n : ℕ) (s : RxCredit) : Prop where
  idle : WorkerIdle r s
  head : s.ring.head + 1 = n
  le : n ≤ s.ring.log.length
  credited : strict → s.sc.rx.isSome = true → s.sc.rxBuf.finPending = false → s.granting = false →
    Credited r n s

theorem Handled.stable (h : Handled r strict n s) (hm : AsyncioMoves r strict s s') :
    Handled r strict n s' := by
  refine ⟨h.idle.stable hm, ?_, h.le.trans hm.ring.log.length_le, fun hst hsome hf hg => ?_⟩
  · rw [hm.ring.head]
    exact h.head
  · rw [hm.isSome] at hsome
    rw [hm.buf.fin] at hf
    rw [hm.kept.granting] at hg
    exact (h.credited hst hsome hf hg).stable hst h.le hm

/-- An entry that is no credit of the stream. -/
theorem Handled.of_not_credit (hs : Inv r strict s) (hidle : WorkerIdle r s)
    (he : s.ring.log[s.ring.head]? = some e) (hne : ¬ IsCredit r e) :
    Handled r strict (s.ring.head + 1) s := by
  refine ⟨hidle, rfl, (List.getElem?_eq_some_iff.1 he).1, fun hst hsome hf hg => ?_⟩
  rcases hs.credited hst hsome hf hg with hl | ⟨i, e', hi, he', hc⟩ | hd
  · exact .inl hl
  · refine .inr (.inl ⟨i, e', ?_, he', hc⟩)
    rcases Nat.lt_or_eq_of_le hi with hlt | heq
    · exact hlt
    · rw [← heq, he] at he'
      obtain rfl : e = e' := Option.some.inj he'
      exact absurd hc hne
  · exact .inr (.inr hd)

/-- A grant has been computed from the state `s₀` in which the head was read. -/
structure Granted (r : CreditSite) (strict : Prop) (s₀ : RxCredit) (grant : ℕ) (s : RxCredit) :
    Prop where
  moves : AsyncioMoves r strict s₀ s
  le : s₀.sc.rxBuf.tail + grant ≤ s₀.sc.rxBuf.head + r.cap
  covers : strict → s₀.sc.lastFcPushConsumed + r.cap ≤ max s₀.limit (s₀.sc.rxBuf.tail + grant)

/-- The record of the head does not matter to the asyncio thread. -/
theorem AsyncioMoves.unsample {x : Option ℕ}
    (hm : AsyncioMoves r strict { s with sampled := x } s') :
    AsyncioMoves r strict s { s' with sampled := s.sampled } :=
  ⟨hm.isSome, hm.buf, hm.ring,
    ⟨hm.kept.limit, hm.kept.overflows, hm.kept.received, hm.kept.finished,
    hm.kept.granting, rfl⟩, hm.mark_le, hm.news, hm.due⟩

/-- In a steady run the grant reaches a ring's length past the mark. -/
theorem effectiveGrant_spec (hs : Inv r strict s) (hsome : s.sc.rx.isSome = true)
    (hsam : s.sampled = none) :
    wp (worker r strict) (effectiveGrant r (r.cap - (s.sc.rxBuf.tail - s.sc.rxBuf.head)))
      (Granted r strict s) (sample r s) := by
  have hfree := hs.tail_add_free hsome le_rfl hs.rx.head_le
  have hmark := hs.mark_le
  have hcounted := hs.counted
  unfold effectiveGrant
  split
  · rename_i hraw
    have hsame : sample r s = s := by
      rw [sample, if_pos hraw, ← hsam]
    rw [wp_pure, hsame]
    refine ⟨.refl s, hfree.le, fun _ => le_max_of_le_right ?_⟩
    omega
  rename_i hraw
  refine fun t hst ht hmay => ?_
  have hst' : AsyncioMoves r strict { s with sampled := some s.sc.rxBuf.head } t := by
    rw [show sample r s = { s with sampled := some s.sc.rxBuf.head } by
      rw [sample, if_neg hraw]] at hst
    exact hst
  have ht' : Inv r strict t := ht
  have hmoves : AsyncioMoves r strict s { t with sampled := none } := by
    have := hst'.unsample
    rw [hsam] at this
    exact this
  refine ⟨⟨.refl _, rfl, .refl _, rfl⟩, { ht' with }, hmoves, ?_, fun hstr => ?_⟩
  · split <;> omega
  -- the pending bytes are none, or were popped before the head was read
  have hpend : s.sc.lastFcPushConsumed + t.sc.bytesPendingRelease ≤ s.sc.rxBuf.head := by
    rcases hmay hstr s.sc.rxBuf.head hst'.kept.sampled with hzero | hhead
    · omega
    · have h₁ := ht'.counted
      have h₂ := ht'.mark_le
      have h₃ : s.sc.lastFcPushConsumed ≤ t.sc.lastFcPushConsumed := hst'.mark_le
      omega
  have hlim : s.sc.rxBuf.tail ≤ s.limit := hs.tail_le.trans hs.received_le
  dsimp only
  split
  · exact le_max_of_le_left (by omega)
  · exact le_max_of_le_right (by omega)

/-- The handler of a credit leaves nothing to do for it. -/
theorem openCredit_spec (hidle : WorkerIdle r s) (hlt : s.ring.head < s.ring.log.length) :
    wp (worker r strict) (openCredit r) (fun _ => Handled r strict (s.ring.head + 1)) s := by
  unfold openCredit
  refine wp_load_bind fun t hst ht => ?_
  have hst' : AsyncioMoves r strict s t := hst
  have hidle' := hidle.stable hst'
  have hhead : t.ring.head + 1 = s.ring.head + 1 := by rw [hst'.ring.head]
  have hle : s.ring.head + 1 ≤ t.ring.log.length := Nat.lt_of_lt_of_le hlt hst'.ring.log.length_le
  dsimp only
  split
  · rename_i hno
    refine ⟨hidle', hhead, hle, fun _ hsome hf _ => ?_⟩
    rcases hno with hno | hno
    · rw [Option.isNone_iff_eq_none] at hno
      rw [hno] at hsome
      exact absurd hsome Bool.false_ne_true
    · rw [hno] at hf
      exact absurd hf (by simp)
  rename_i hyes
  have hsome : t.sc.rx.isSome = true := by
    rw [Option.isSome_iff_ne_none]
    intro hn
    exact hyes (.inl (by rw [hn]; rfl))
  refine wp_seq (R := fun free u => ∃ v, AsyncioMoves r strict t v ∧ Inv r strict v ∧
    u = sample r v ∧
    free = r.cap - (v.sc.rxBuf.tail - v.sc.rxBuf.head)) ?_ ht fun free u hu hfree => ?_
  · apply bufFree_spec hsome
    intro v htv hv
    refine ⟨⟨.refl _, rfl, .refl _, rfl⟩, { hv with }, v, htv, hv, rfl, ?_⟩
    rw [htv.buf.tail]
  obtain ⟨v, htv, hv, rfl, rfl⟩ := hfree
  have hvidle := hidle'.stable htv
  have hvsome : v.sc.rx.isSome = true := htv.isSome.trans hsome
  refine wp_seq (effectiveGrant_spec hv hvsome hvidle.sampled) hu fun grant w hw hgr => ?_
  have hvhead : v.ring.head + 1 = s.ring.head + 1 := by rw [htv.ring.head, hhead]
  have hvle : s.ring.head + 1 ≤ v.ring.log.length := hle.trans htv.ring.log.length_le
  have hvtail : v.sc.rxBuf.tail ≤ v.received.length := hv.tail_le
  -- what the limit must reach for the mark, whatever the asyncio thread did meanwhile
  have hdone : ∀ x, AsyncioMoves r strict v x → ∀ limit, v.limit ≤ limit →
      (strict → v.sc.lastFcPushConsumed + r.cap ≤ limit) →
      Handled r strict (s.ring.head + 1) { x with limit := limit } := by
    intro x hvx limit _ hcov
    have hx := hvidle.stable hvx
    refine ⟨⟨⟨hx.sampled, hx.granting, fun hn => ?_, hx.bytes⟩, hx.claimed⟩, ?_,
      hvle.trans hvx.ring.log.length_le, fun hstr _ _ _ => ?_⟩
    · rw [hvx.rx_eq_none hn] at hvsome
      exact absurd hvsome Bool.false_ne_true
    · show x.ring.head + 1 = s.ring.head + 1
      rw [hvx.ring.head]
      exact hvhead
    · rcases hvx.news hstr with heq | hp | hd
      · refine .inl ?_
        show x.sc.lastFcPushConsumed + r.cap ≤ limit
        rw [heq]
        exact hcov hstr
      · exact .inr (.inl (Pushed.of_le (n := v.ring.log.length) hp hvle))
      · exact .inr (.inr hd)
  show wp _ (when (0 < grant) (modify (RxCredit.openFlowControl grant))) _ _
  unfold when
  split
  · refine wp_modify fun x hwx hx => ?_
    have hvx : AsyncioMoves r strict v x := hgr.moves.trans hwx
    have hbuf := hvx.buf.head_le
    refine ⟨⟨.refl _, rfl, .refl _, rfl⟩, Inv.openFlowControl hx fun hwin => ?_, ?_⟩
    · have hlen : v.sc.rxBytes.length = v.sc.rxBuf.tail := hv.rx.length
      rw [hvx.kept.received, ← hvidle.bytes hwin, hlen]
      have := hgr.le
      omega
    · refine hdone x hvx _ ?_ fun hstr => ?_
      · rw [hvx.kept.limit]
        exact le_max_left _ _
      · rw [hvx.kept.limit, hvx.kept.received]
        exact (hgr.covers hstr).trans (max_le_max le_rfl (Nat.add_le_add_right hvtail _))
  · rename_i hzero
    refine hdone w hgr.moves w.limit hgr.moves.kept.limit.ge fun hstr => ?_
    have hcov := hgr.covers hstr
    rw [show grant = 0 by omega, Nat.add_zero] at hcov
    rw [hgr.moves.kept.limit]
    exact hcov.trans (max_le le_rfl (hvtail.trans hv.received_le))

/-- The ring while the worker looks at it. -/
theorem embeds_look :
    Embeds (worker r strict) ringLoc (SpscRing.consumer none) (Settled r) where
  inv := fun s hs => hs.ring
  rely := fun s t h hm _ => ⟨hm.ring, h.stable hm⟩
  step := by
    rintro s ring hs h hstep hwf
    have hm := hstep.moves
    have hhead : ring.head = s.ring.head := by
      cases hstep with
      | stay => rfl
      | count k => rfl
      | claim e hlt => rfl
      | advance hh hlt => exact absurd hh (by simp)
    have hinv : Inv r strict (ringLoc.set ring s) := by
      refine { (show Inv r strict s from hs) with ring := hwf, credited := fun hst hsome hf hg => ?_ }
      have hc := hs.credited hst hsome hf hg
      show Credited r ring.head { s with ring := ring }
      rw [Credited, Pushed, Due, hhead, show ring.log = s.ring.log from hm.log]
      exact hc
    exact ⟨⟨.refl _, rfl, hm, rfl⟩, hinv, h.sampled, h.granting, h.fresh, h.bytes⟩

/-- The ring while the worker pops the entry before number `n`. -/
theorem embeds_pop (k : ℕ) :
    Embeds (worker r strict) ringLoc (SpscRing.consumer (some k))
      (fun s => Settled r s ∧ k + 1 ≤ s.ring.log.length ∧
        (strict → s.sc.rx.isSome = true → s.sc.rxBuf.finPending = false → s.granting = false →
          Credited r (k + 1) s)) where
  inv := fun s hs => hs.ring
  rely := by
    rintro s t ⟨h, hle, hc⟩ hm -
    refine ⟨hm.ring, h.stable hm, hle.trans hm.ring.log.length_le, fun hst hsome hf hg => ?_⟩
    rw [hm.isSome] at hsome
    rw [hm.buf.fin] at hf
    rw [hm.kept.granting] at hg
    exact (hc hst hsome hf hg).stable hst hle hm
  step := by
    rintro s ring hs ⟨h, hle, hc⟩ hstep hwf
    have hm := hstep.moves
    have hlog : ring.log = s.ring.log := hm.log
    have hcred : ∀ m, Credited r m s → Credited r m (ringLoc.set ring s) := by
      intro m hm
      show Credited r m { s with ring := ring }
      rw [Credited, Pushed, Due, hlog]
      exact hm
    have hinv : Inv r strict (ringLoc.set ring s) := by
      refine { (show Inv r strict s from hs) with ring := hwf, credited := fun hst hsome hf hg => ?_ }
      have hold := hcred _ (hs.credited hst hsome hf hg)
      cases hstep with
      | stay => exact hold
      | count j => exact hold
      | claim e hlt => exact hold
      | advance hh hlt =>
        obtain rfl : k = s.ring.head := Option.some.inj hh
        exact hcred _ (hc hst hsome hf hg)
    refine ⟨⟨.refl _, rfl, hm, rfl⟩, hinv, ⟨h.sampled, h.granting, h.fresh, h.bytes⟩, ?_,
      fun hst hsome hf hg => hcred _ (hc hst hsome hf hg)⟩
    show k + 1 ≤ ring.log.length
    rw [hlog]
    exact hle

theorem txDrain_spec (n : ℕ) (hs : Inv r strict s) (hidle : WorkerIdle r s) :
    wp (worker r strict) (txDrain r n) (fun _ => WorkerIdle r) s := by
  induction n generalizing s with
  | zero => exact hidle
  | succ n ih =>
    unfold txDrain
    refine wp_seq (wp_on embeds_look hidle.toSettled (SpscRing.peek_spec hs.ring hidle.claimed)) hs
      fun entry t ht h => ?_
    obtain ⟨⟨hmoves, hentry⟩, hset⟩ := h
    have hcl : t.ring.claimed = false := hmoves.claimed.trans hidle.claimed
    cases entry with
    | none => exact ⟨hset, hcl⟩
    | some e =>
      have ht' : Inv r strict t := ht
      have hidle' : WorkerIdle r t := ⟨hset, hcl⟩
      have he : t.ring.log[t.ring.head]? = some e := by
        rw [show t.ring.head = s.ring.head from hmoves.head]
        exact hentry
      have hlt : t.ring.head < t.ring.log.length := (List.getElem?_eq_some_iff.1 he).1
      -- the pop, once the entry is handled
      have hpop : ∀ u, Inv r strict u → Handled r strict (t.ring.head + 1) u →
          wp (worker r strict) (do SpscRing.pop.on ringLoc; txDrain r n) (fun _ => WorkerIdle r)
            u := by
        intro u hu hh
        have hhead : u.ring.head = t.ring.head := Nat.succ.inj hh.head
        have hlt' : u.ring.head < u.ring.tail := by
          rw [hhead, ← hu.ring.length]
          exact hh.le
        refine wp_seq (wp_on (embeds_pop u.ring.head) ⟨hh.idle.toSettled, ?_, ?_⟩
          (SpscRing.pop_spec hu.ring hlt')) hu fun _ v hv hpost => ?_
        · rw [hhead]
          exact hh.le
        · rw [hhead]
          exact hh.credited
        · exact ih hv ⟨hpost.2.1, hpost.1.claimed⟩
      refine wp_when_bind (fun hc => ?_) (fun hne => ?_)
      · exact wp_seq (openCredit_spec hidle' hlt) ht fun _ u hu hh => hpop u hu hh
      · exact hpop t ht' (.of_not_credit ht' hidle' he hne)

/-! ## The asyncio thread's steps -/

/-- The asyncio thread's contract. -/
def asyncio (r : CreditSite) (strict : Prop) : Contract RxCredit :=
  (outline r strict).contract .asyncio

/-- A drain between two entries. -/
structure Draining (r : CreditSite) (noted : Bool) (s : RxCredit) : Prop where
  owing : s.owing = none
  pending : s.sc.bytesPendingRelease = 0
  drained : s.sc.rxBuf.head = s.sc.rxConsumed
  marked : noted = false → s.sc.rxConsumed ≤ s.sc.lastFcPushConsumed + r.hysteresis

theorem Draining.stable {noted : Bool} (h : Draining r noted s) (hm : WorkerMoves s s') :
    Draining r noted s' := by
  refine ⟨hm.owing.trans h.owing, hm.sc.pending.trans h.pending, ?_, fun hn => ?_⟩
  · rw [hm.sc.head, hm.sc.consumed]
    exact h.drained
  · rw [hm.sc.consumed, hm.mark]
    exact h.marked hn

/-- The context while a drain pops. -/
theorem embeds_receiver (s₀ : RxCredit) :
    Embeds (asyncio r strict) scLoc (StreamCtx.receiver 0)
      (fun s => s.owing = none ∧ s.sc.lastFcPushConsumed = s₀.sc.lastFcPushConsumed) where
  inv := fun s hs => hs.rx
  rely := fun s t h hm _ => ⟨hm.sc, hm.owing.trans h.1, hm.mark.trans h.2⟩
  step := by
    rintro s sc hs ⟨howing, hmark⟩ hstep hwf
    have hs' : Inv r strict s := hs
    have hp : StreamCtx.Pops s.sc sc := hstep.pops
    have hinv : Inv r strict (scLoc.set sc s) := by
      refine ⟨hs'.ring, hwf, fun hsome => ?_, ?_, hs'.received_le, hs'.window_le,
        hstep.counted hs'.counted,
        ?_, fun hf => hs'.fin (hp.buf.fin.symm.trans hf), fun hw => ?_, hs'.overflows,
        fun hst hsome hf hg => ?_⟩
      · show sc.rxBuf.geo.capacity = r.cap
        rw [hp.buf.geo]
        exact hs'.cap (hp.isSome.symm.trans hsome)
      · show sc.rxBuf.tail ≤ s.received.length
        rw [hp.buf.tail]
        exact hs'.tail_le
      · show sc.lastFcPushConsumed ≤ sc.rxConsumed
        rw [hp.mark]
        exact hs'.mark_le.trans hp.consumed_le
      · exact (hs'.limit_le hw).trans (Nat.add_le_add_right hp.buf.head_le _)
      · have hc := hs'.credited hst (hp.isSome.symm.trans hsome) (hp.buf.fin.symm.trans hf) hg
        show sc.lastFcPushConsumed + r.cap ≤ s.limit ∨ Pushed r s.ring.head s ∨ Due s
        rw [hp.mark]
        exact hc
    refine ⟨⟨hp.isSome, hp.buf, .refl _, ⟨rfl, rfl, rfl, rfl, rfl, rfl⟩, hp.mark.ge, fun _ =>
      .inl hp.mark,
      fun _ => .inr⟩, hinv, howing, hp.mark.trans hmark⟩

theorem drainEntries_spec (n : ℕ) {noted : Bool} (hs : Inv r strict s) (h : Draining r noted s) :
    wp (asyncio r strict) (drainEntries n noted) (Draining r) s := by
  induction n generalizing s noted with
  | zero => exact h
  | succ n ih =>
    unfold drainEntries
    refine wp_seq (wp_on (embeds_receiver s) ⟨h.owing, rfl⟩ (StreamCtx.popRx_spec hs.rx hs.counted))
      hs
      fun data t ht hpost => ?_
    obtain ⟨htaken, howing, hmark⟩ := hpost
    have hcons : t.sc.rxConsumed = s.sc.rxConsumed + (data.getD []).length := htaken.consumed
    have hhead : t.sc.rxBuf.head = s.sc.rxBuf.head + (data.getD []).length := htaken.head
    have hdrained := h.drained
    refine ih ht ⟨howing, htaken.pending.trans h.pending, by omega, fun hno => ?_⟩
    obtain ⟨hnoted, hnone⟩ := Bool.or_eq_false_iff.1 hno
    have hmarked := h.marked hnoted
    rw [Option.isSome_eq_false_iff, Option.isNone_iff_eq_none] at hnone
    rw [hcons, hmark, hnone]
    exact hmarked

/-- The ring while the asyncio thread pushes an entry: a credit that is due, or another. -/
theorem embeds_put {x : Option ℕ} (k : ℕ) (hx : x = none ∨ IsCredit r e) :
    Embeds (asyncio r strict) ringLoc (SpscRing.producer k e)
      (fun s => s.owing = x ∧ Draining r false { s with owing := none }) where
  inv := fun s hs => hs.ring
  rely := by
    rintro s t ⟨howing, hd⟩ hm -
    exact ⟨hm.ring, hm.owing.trans howing, hd.stable ⟨hm.sc, hm.mark, hm.ring, rfl⟩⟩
  step := by
    rintro s ring hs ⟨howing, hd⟩ hstep hwf
    have hs' : Inv r strict s := hs
    have hm : SpscRing.ProducerMoves s.ring ring := hstep.moves
    have hle : s.ring.head ≤ s.ring.log.length := by
      rw [hs'.ring.length]
      exact hs'.ring.head_le
    -- a credit that was due is now in the ring, or still due
    have hdue : Due s →
      Pushed r s.ring.log.length (ringLoc.set ring s) ∨ Due (ringLoc.set ring s) := by
      intro hdue
      cases hstep with
      | stay => exact .inr hdue
      | slot h => exact .inr hdue
      | count j => exact .inr hdue
      | publish h =>
        rcases hx with rfl | hc
        · rw [Due, howing] at hdue
          exact absurd hdue (by simp)
        · exact .inl ⟨s.ring.log.length, e, le_rfl, List.getElem?_concat_length, hc⟩
    have hinv : Inv r strict (ringLoc.set ring s) := by
      refine { hs' with ring := hwf, credited := fun hst hsome hf hg => ?_ }
      show Credited r ring.head { s with ring := ring }
      rw [hm.head]
      rcases hs'.credited hst hsome hf hg with hl | hp | hdu
      · exact .inl hl
      · exact .inr (.inl (hp.mono hm))
      · exact .inr ((hdue hdu).imp_left (·.of_le hle))
    exact ⟨⟨rfl, .refl _, hm, ⟨rfl, rfl, rfl, rfl, rfl, rfl⟩, le_rfl, fun _ => .inl rfl, fun _ =>
      hdue⟩, hinv,
      howing, hd.owing, hd.pending, hd.drained, hd.marked⟩

/-- A drain that popped enough pushes a credit. In a steady run the ring has room for it. -/
theorem pushFcCredit_spec (h : Draining r true s) :
    wp (asyncio r strict) (pushFcCredit r) (fun _ => AsyncioIdle r) s := by
  unfold pushFcCredit
  refine wp_load_bind fun t hst ht => wp_load_bind fun u htu hu => ?_
  have htu' : WorkerMoves t u := htu
  have hd := (h.stable hst).stable htu'
  split
  · rename_i hsmall
    rw [← htu'.sc.consumed] at hsmall
    exact ⟨hd.owing, hd.pending, hd.drained, by omega⟩
  refine wp_modify_bind fun v huv hv => ?_
  have huv' : WorkerMoves u v := huv
  have hv' : Inv r strict v := hv
  have hdv := hd.stable huv'
  rw [← htu'.sc.consumed, ← huv'.sc.consumed]
  have hinv : Inv r strict (storeMark v.sc.rxConsumed v) :=
    ⟨hv'.ring, hv'.rx, hv'.cap, hv'.tail_le, hv'.received_le, hv'.window_le, hv'.counted,
      le_rfl, hv'.fin,
      hv'.limit_le, hv'.overflows, fun _ _ _ _ => .inr (.inr rfl)⟩
  refine ⟨⟨rfl, .refl _, .refl _, ⟨rfl, rfl, rfl, rfl, rfl, rfl⟩, hv'.mark_le, fun _ =>
    .inr (.inr rfl),
    fun _ _ => .inr rfl⟩, hinv, ?_⟩
  refine wp_act_may fun w hvw hw hmay => ?_
  have hvw' : WorkerMoves (storeMark v.sc.rxConsumed v) w := hvw
  have hw' : Inv r strict w := hw
  have howing : w.owing = some w.ring.log.length := by
    rw [hvw'.owing, hvw'.ring.log]
    rfl
  have hdw : Draining r false { w with owing := none } := by
    have : Draining r false { storeMark v.sc.rxConsumed v with owing := none } :=
      ⟨rfl, hdv.pending, hdv.drained, fun _ => Nat.le_add_right _ _⟩
    exact this.stable ⟨hvw'.sc, hvw'.mark, hvw'.ring, rfl⟩
  have hput := SpscRing.put_spec (e := (creditEntry r).withData []) (k := ([] : List UInt8).length)
    hw'.ring
  refine wp_seq (wp_on (embeds_put w.ring.tail (.inr ⟨rfl, rfl⟩)) ⟨howing, hdw⟩ hput) hw
    fun _ x hx hpost => ?_
  obtain ⟨hput, hxowing, hdx⟩ := hpost
  have hnotDue : strict → ∀ y : RxCredit, y.owing = x.owing → y.ring.log = x.ring.log →
    ¬ Due y := by
    intro hstr y hyo hyl hdue
    rw [Due, hyo, hyl, hxowing] at hdue
    have hlen : w.ring.log.length = x.ring.log.length := Option.some.inj hdue
    rcases hput with ⟨-, hput⟩ | ⟨-, -, hfull⟩
    · have : x.ring.log = w.ring.log ++ [_] := hput.log
      rw [this, List.length_append, List.length_singleton] at hlen
      omega
    · have hroom : w.ring.tail < w.ring.head + w.ring.geo.capacity := hmay hstr howing
      have hfull' : w.ring.tail = w.ring.head + w.ring.geo.capacity := hfull
      omega
  refine wp_modify fun y hxy hy => ?_
  have hxy' : WorkerMoves x y := hxy
  have hy' : Inv r strict y := hy
  have hno := fun hstr => hnotDue hstr y hxy'.owing hxy'.ring.log
  have hdy : Draining r false { y with owing := none } :=
    hdx.stable ⟨hxy'.sc, hxy'.mark, hxy'.ring, rfl⟩
  refine ⟨⟨rfl, .refl _, .refl _, ⟨rfl, rfl, rfl, rfl, rfl, rfl⟩, le_rfl, fun _ => .inl rfl,
    fun hstr hdue => absurd hdue (hno hstr)⟩, ?_, ⟨rfl, hdy.pending, hdy.drained, hdy.marked rfl⟩⟩
  refine { hy' with credited := fun hstr hsome hf hg => ?_ }
  rcases hy'.credited hstr hsome hf hg with hl | hp | hdue
  · exact .inl hl
  · exact .inr (.inl hp)
  · exact absurd hdue (hno hstr)

theorem AsyncioIdle.draining (h : AsyncioIdle r s) : Draining r false s :=
  ⟨h.owing, h.pending, h.drained, fun _ => h.marked⟩

theorem drain_spec (n : ℕ) (hs : Inv r strict s) (hidle : AsyncioIdle r s) :
    wp (asyncio r strict) (drain r n) (fun _ => AsyncioIdle r) s := by
  unfold drain
  refine wp_seq (drainEntries_spec n hs hidle.draining) hs fun noted t ht h => ?_
  cases noted with
  | true => exact pushFcCredit_spec h
  | false => exact ⟨h.owing, h.pending, h.drained, h.marked rfl⟩

theorem commandCall_spec {data : List UInt8} (hs : Inv r strict s) (hidle : AsyncioIdle r s) :
    wp (asyncio r strict) (commandCall e data) (fun _ => AsyncioIdle r) s := by
  unfold commandCall
  have hd : Draining r false { s with owing := none } :=
    ⟨rfl, hidle.pending, hidle.drained, fun _ => hidle.marked⟩
  have hput := SpscRing.put_spec (e := e.withData data) (k := data.length) hs.ring
  refine wp_seq (wp_on (embeds_put s.ring.tail (.inl rfl)) ⟨hidle.owing, hd⟩ hput) hs
    fun _ t _ hpost => ?_
  obtain ⟨-, howing, hdt⟩ := hpost
  exact ⟨howing, hdt.pending, hdt.drained, hdt.marked rfl⟩

/-! ## Every run -/

theorem outline_sound (r : CreditSite) (strict : Prop) : (outline r strict).Sound := by
  rintro i s p hs hidle hp
  cases hp with
  | stream _ data fin hlimit hfin => exact streamCb_spec hidle hlimit hfin
  | postData _ data hlimit hfin =>
    exact deliver_spec _ hidle hlimit hfin fun t _ hr hf => receive_spec hr hf
  | postFin _ data hlimit hfin =>
    exact deliver_spec _ hidle hlimit hfin fun t _ hr hf => receive_spec hr hf
  | txDrain _ n => exact txDrain_spec n hs hidle
  | drain _ n => exact drain_spec n hs hidle
  | command _ e data he => exact commandCall_spec hs hidle

theorem init_inv (r : CreditSite) (strict : Prop) (txGeo : Geometry) :
    Inv r strict (init r txGeo) := by
  refine ⟨SpscRing.create_wf txGeo, StreamBuf.create_wf 0 false, fun h =>
    absurd h Bool.false_ne_true,
    le_rfl, Nat.zero_le _, le_rfl, le_rfl, le_rfl, fun h => absurd h Bool.false_ne_true,
      fun hw => ?_,
    fun _ => rfl, fun _ h => absurd h Bool.false_ne_true⟩
  show r.window ≤ 0 + r.cap
  omega

theorem init_idle (r : CreditSite) (strict : Prop) (txGeo : Geometry) (i : Thread) :
    (outline r strict).idle i (init r txGeo) := by
  cases i with
  | worker =>
    exact ⟨⟨rfl, fun h => absurd h Bool.false_ne_true, fun _ => ⟨rfl, rfl⟩, fun _ => rfl⟩,
      rfl⟩
  | asyncio => exact ⟨rfl, rfl, rfl, Nat.zero_le _⟩

/-- A peer that keeps within the limit never overflows the RX ring. -/
theorem rx_ring_never_overflows (r : CreditSite) (txGeo : Geometry) (hw : r.window ≤ r.cap)
    {c : Config Thread RxCredit} (hc : Reachable (Menu r) (init r txGeo) c) :
    c.mem.limit ≤ c.mem.sc.rxBuf.head + r.cap ∧ c.mem.overflows = 0 ∧
      (c.Idle .worker → c.mem.sc.rxBytes = c.mem.received) := by
  have h := (outline r False).reachable (outline_sound r False) (init_inv r False txGeo)
    (init_idle r False txGeo) hc fun _ _ hf => absurd hf not_false
  have hinv : Inv r False c.mem := h.1
  refine ⟨hinv.limit_le hw, hinv.overflows hw, fun hidle => ?_⟩
  have hworker : WorkerIdle r c.mem := h.idle hidle
  exact hworker.bytes hw

/-- A stream with a ring and a window of sixteen bytes. -/
def smallSite : CreditSite := ⟨1, 4, 9, 16, 16, false, false⟩

/-- The peer fills its window, the drain pops it, and the credit lets the FIN come with one more
byte. -/
def refilledRun : Config Thread RxCredit :=
  (Config.start (init smallSite (.ofExp 1 Geometry.exp_one))).call .worker
      (streamCb smallSite (.replicate 16 0) false) |>.drive (.replicate 7 .worker)
    |>.call .asyncio (drain smallSite 1) |>.drive (.replicate 19 .asyncio)
    |>.call .worker (txDrain smallSite 2) |>.drive (.replicate 13 .worker)
    |>.call .worker (streamCb smallSite [1] true) |>.drive (.replicate 7 .worker)

theorem rx_ring_never_overflows_refilledRun :
    refilledRun.mem.sc.rxBuf.tail = 17 ∧ refilledRun.mem.limit = 32 ∧
      (refilledRun.mem.limit ≤ refilledRun.mem.sc.rxBuf.head + smallSite.cap ∧
        refilledRun.mem.overflows = 0 ∧
        (refilledRun.Idle .worker → refilledRun.mem.sc.rxBytes = refilledRun.mem.received)) := by
  have h₀ : Reachable (Menu smallSite) (init smallSite (.ofExp 1 (by decide)))
      (Config.start (init smallSite (.ofExp 1 (by decide)))) := .refl
  have h₁ := (h₀.call (i := .worker) (by decide +kernel)
    (.stream _ (.replicate 16 0) false (le_refl 16) rfl)).drive (.replicate 7 .worker)
  have h₂ := (h₁.call (i := .asyncio) (by decide +kernel) (.drain _ 1)).drive
    (.replicate 19 .asyncio)
  have h₃ := (h₂.call (i := .worker) (by decide +kernel) (.txDrain _ 2)).drive
    (.replicate 13 .worker)
  have h₄ := (h₃.call (i := .worker) (by decide +kernel)
    (.stream _ [1] true (by decide +kernel) (by decide +kernel))).drive (.replicate 7 .worker)
  exact ⟨by decide +kernel, by decide +kernel, rx_ring_never_overflows smallSite _ (by decide) h₄⟩

/-- Nothing is left to do for the stream, whose FIN has not come: both threads are idle, the RX ring
and the TX event ring are empty, and no chunk waits for its first access. -/
structure Quiescent (c : Config Thread RxCredit) : Prop where
  worker : c.Idle .worker
  asyncio : c.Idle .asyncio
  isSome : c.mem.sc.rx.isSome = true
  rx : c.mem.sc.rxBuf.queued = []
  ring : c.mem.ring.queued = []
  pending : c.mem.sc.bytesPendingRelease = 0
  finished : c.mem.finished = false

/-- In a steady run no credit is lost: when nothing is left to do, the peer has at least fifteen
sixteenths of the ring to send. -/
theorem rx_credit_not_lost (r : CreditSite) (txGeo : Geometry) {c : Config Thread RxCredit}
    (hc : ReachableWhile (Menu r) Steady (init r txGeo) c) (hq : Quiescent c) :
    c.mem.sc.rxConsumed + r.cap - r.cap / 16 ≤ c.mem.limit := by
  have hsteady : ReachableWhile (Menu r) (outline r True).may (init r txGeo) c := by
    refine Relation.ReflTransGen.mono (fun a b hs => ?_) _ _ hc
    cases hs with
    | begin i p hi hp => exact .begin i p hi hp
    | act i f k hk hm => exact .act i f k hk fun _ => hm
  have h := (outline r True).reachableWhile (outline_sound r True) (init_inv r True txGeo)
    (init_idle r True txGeo) hsteady
  have hinv : Inv r True c.mem := h.1
  have hidle : AsyncioIdle r c.mem := h.idle hq.asyncio
  have hworker : WorkerIdle r c.mem := h.idle hq.worker
  have hfin : c.mem.sc.rxBuf.finPending = false := by
    by_contra hf
    have := hinv.fin (by simpa using hf)
    rw [hq.finished] at this
    exact absurd this Bool.false_ne_true
  have hgranting : c.mem.granting = false := by
    by_contra hg
    have := hworker.granting (by simpa using hg)
    rw [hfin] at this
    exact absurd this Bool.false_ne_true
  have hmarked := hidle.marked
  rw [r.hysteresis_eq] at hmarked
  rcases hinv.credited trivial hq.isSome hfin hgranting with hl | ⟨i, e, hi, he, -⟩ | hd
  · omega
  · -- the TX event ring is empty
    have hempty : c.mem.ring.log.length ≤ c.mem.ring.head := List.drop_eq_nil_iff.1 hq.ring
    have := (List.getElem?_eq_some_iff.1 he).1
    omega
  · rw [Due, hidle.owing] at hd
    exact absurd hd (by simp)

/-- The window is filled and popped, and the credit opens it again. -/
def reopenedRun : Config Thread RxCredit :=
  (Config.start (init smallSite (.ofExp 1 Geometry.exp_one))).call .worker
      (streamCb smallSite (.replicate 16 0) false) |>.drive (.replicate 7 .worker)
    |>.call .asyncio (drain smallSite 1) |>.drive (.replicate 19 .asyncio)
    |>.call .worker (txDrain smallSite 2) |>.drive (.replicate 13 .worker)

theorem rx_credit_not_lost_reopenedRun :
    Quiescent reopenedRun ∧ reopenedRun.mem.sc.rxConsumed = 16 ∧
      reopenedRun.mem.sc.rxConsumed + smallSite.cap - smallSite.cap / 16 ≤
      reopenedRun.mem.limit := by
  have h₀ : ReachableWhile (Menu smallSite) Steady (init smallSite (.ofExp 1 (by decide)))
      (Config.start (init smallSite (.ofExp 1 (by decide)))) := .refl
  have h₁ := (h₀.call (i := .worker) (by decide +kernel)
    (.stream _ (.replicate 16 0) false (le_refl 16) rfl)).drive (.replicate 7 .worker)
      (by decide +kernel)
  have h₂ := (h₁.call (i := .asyncio) (by decide +kernel) (.drain _ 1)).drive
    (.replicate 19 .asyncio) (by decide +kernel)
  have h₃ := (h₂.call (i := .worker) (by decide +kernel) (.txDrain _ 2)).drive
    (.replicate 13 .worker) (by decide +kernel)
  have hq : Quiescent reopenedRun := by
    refine ⟨Config.idle_of_isIdle ?_, Config.idle_of_isIdle ?_, ?_, ?_, ?_, ?_, ?_⟩ <;>
      decide +kernel
  exact ⟨hq, by decide +kernel, rx_credit_not_lost smallSite _ h₃ hq⟩

/-- Two other commands fill the TX event ring. The drain that pops the peer's whole window stores
its mark and cannot push the credit; when the worker has emptied the ring, nothing is left that
would open the window again. -/
def fullRingRun : Config Thread RxCredit :=
  (Config.start (init smallSite (.ofExp 1 Geometry.exp_one))).call .worker
      (streamCb smallSite (.replicate 16 0) false) |>.drive (.replicate 7 .worker)
    |>.call .asyncio (commandCall { eventType := .txMarkActive } []) |>.drive
      (.replicate 4 .asyncio)
    |>.call .asyncio (commandCall { eventType := .txMarkActive } []) |>.drive
      (.replicate 4 .asyncio)
    |>.call .asyncio (drain smallSite 1) |>.drive (.replicate 17 .asyncio)
    |>.call .worker (txDrain smallSite 3) |>.drive (.replicate 14 .worker)

theorem rx_credit_lost_fullRingRun :
    Reachable (Menu smallSite) (init smallSite (.ofExp 1 (by decide))) fullRingRun ∧
      Quiescent fullRingRun ∧ fullRingRun.mem.limit = fullRingRun.mem.received.length ∧
      ¬ fullRingRun.mem.sc.rxConsumed + smallSite.cap - smallSite.cap / 16 ≤
      fullRingRun.mem.limit := by
  have h₀ : Reachable (Menu smallSite) (init smallSite (.ofExp 1 (by decide)))
      (Config.start (init smallSite (.ofExp 1 (by decide)))) := .refl
  have h₁ := (h₀.call (i := .worker) (by decide +kernel)
    (.stream _ (.replicate 16 0) false (le_refl 16) rfl)).drive (.replicate 7 .worker)
  have h₂ := (h₁.call (i := .asyncio) (by decide +kernel)
    (.command _ { eventType := .txMarkActive } [] (by decide))).drive (.replicate 4 .asyncio)
  have h₃ := (h₂.call (i := .asyncio) (by decide +kernel)
    (.command _ { eventType := .txMarkActive } [] (by decide))).drive (.replicate 4 .asyncio)
  have h₄ := (h₃.call (i := .asyncio) (by decide +kernel) (.drain _ 1)).drive
    (.replicate 17 .asyncio)
  have h₅ := (h₄.call (i := .worker) (by decide +kernel) (.txDrain _ 3)).drive
    (.replicate 14 .worker)
  have hq : Quiescent fullRingRun := by
    refine ⟨Config.idle_of_isIdle ?_, Config.idle_of_isIdle ?_, ?_, ?_, ?_, ?_, ?_⟩ <;>
      decide +kernel
  exact ⟨h₅, hq, by decide +kernel, by decide +kernel⟩

end RxCredit

end Aiopquic
