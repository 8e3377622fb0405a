import Aiopquic.TxLoop

/-!
# The two threads of the send loop

The producer and the worker each keep the outline of the loop, with the rings as parts of it.
-/

namespace Aiopquic

open Interleave Interleave.Prog Circular

namespace TxLoop

variable {s s' t : TxLoop}

/-! ## The rings inside the loop -/

theorem Answered.mono {mark : ℕ} (h : s.Answered mark)
    (hacc : s.rx.q.accepted <+: s'.rx.q.accepted) :
    s'.Answered mark := by
  obtain ⟨e, he, htype⟩ := h
  exact ⟨e, (hacc.drop mark).subset he, htype⟩

/-- The TX event ring under the worker, with a fact the accesses of the ring do not touch. -/
theorem embeds_ring_worker {F : TxLoop → Prop} (hF : ∀ s t, F s → AsyncioMoves s t → F t)
    (hset : ∀ s r, F s → F (ringLoc.set r s)) (h : Option ℕ)
    (hh : ∀ s, F s → h = none ∨ s.draining = true) :
    Embeds (outline.contract .worker) ringLoc (SpscRing.consumer h) F where
  inv := fun s hs => hs.ring
  rely := fun s t hFs hm _ => ⟨hm.ring, hF s t hFs hm⟩
  step := by
    rintro s r hs hFs hg hr
    have hm : SpscRing.ConsumerMoves s.ring r := hg.moves
    refine ⟨⟨hm, .refl _, rfl, rfl, rfl, rfl, fun ha => .inl ⟨ha, id⟩⟩, ?_, hset s r hFs⟩
    refine ⟨hr, hs.rx, hs.blocked, hs.flag, fun ha => ?_, hs.marks, hs.signalled, hs.retried,
      fun hd => ?_⟩
    · rcases hs.covered ha with he | hw | ⟨n, hn, hlt⟩
      · exact .inl (he.stable hm)
      · exact .inr (.inl hw)
      · exact .inr (.inr ⟨n, hn, by rw [← hm.tail] at hlt; exact hlt⟩)
    · -- outside the drain loop the head stays
      have hd' : s.draining = false := hd
      have hnone : h = none := (hh s hFs).resolve_right (by simp [hd'])
      have hhead : r.head = s.ring.head := by
        cases hg with
        | stay => rfl
        | count k => rfl
        | claim e hlt => rfl
        | advance hsome hlt => exact absurd (hnone.symm.trans hsome) (by simp)
      have hq := hs.quiet hd'
      rw [Quiet, AtLow] at hq ⊢
      rw [← hm.tail, ← hhead] at hq
      exact hq

/-- The RX queue under the worker. -/
theorem embeds_rx_worker {F : TxLoop → Prop} (hF : ∀ s t, F s → AsyncioMoves s t → F t)
    (hset : ∀ s rx, F s → F (rxLoc.set rx s)) :
    Embeds (outline.contract .worker) rxLoc (WakeCtx.outline.contract .worker) F where
  inv := fun s hs => hs.rx
  rely := fun s t hFs hm _ => ⟨hm.rx, hF s t hFs hm⟩
  step := by
    rintro s rx hs hFs hg hrx
    have hm : WakeCtx.WorkerMoves s.rx rx := hg
    have hacc : s.rx.q.accepted <+: rx.q.accepted := hm.queue.accepted
    refine ⟨⟨.refl _, hm, rfl, rfl, rfl, rfl, fun ha => .inl ⟨ha, id⟩⟩, ?_, hset s rx hFs⟩
    refine ⟨hs.ring, hrx, hs.blocked, hs.flag, hs.covered, fun a ha => ?_, fun a ha => ?_,
      hs.retried, hs.quiet⟩
    · exact (hs.marks a ha).trans hacc.length_le
    · have hpre : s.rx.q.accepted <+: (rxLoc.set rx s).rx.q.accepted := hacc
      exact (hs.signalled a ha).imp_left fun h => Answered.mono h hpre

/-- The RX queue under the asyncio thread. -/
theorem embeds_rx_asyncio {F : TxLoop → Prop} (hF : ∀ s t, F s → WorkerMoves s t → F t)
    (hset : ∀ s rx, F s → F (rxLoc.set rx s)) :
    Embeds (outline.contract .asyncio) rxLoc (WakeCtx.outline.contract .asyncio) F where
  inv := fun s hs => hs.rx
  rely := fun s t hFs hm _ => ⟨hm.rx, hF s t hFs hm⟩
  step := by
    rintro s rx hs hFs hg hrx
    have hm : WakeCtx.AsyncioMoves s.rx rx := hg
    have hacc : rx.q.accepted = s.rx.q.accepted := hm.queue.accepted
    refine ⟨⟨.refl _, hm, rfl, rfl, rfl, rfl, rfl, id, fun a ha => .inl ⟨a, ha, rfl⟩, id⟩, ?_,
      hset s rx hFs⟩
    refine ⟨hs.ring, hrx, hs.blocked, hs.flag, hs.covered, fun a ha => ?_, fun a ha => ?_,
      hs.retried, hs.quiet⟩
    · show a.mark ≤ rx.q.accepted.length
      rw [hacc]
      exact hs.marks a ha
    · have hpre : s.rx.q.accepted <+: (rxLoc.set rx s).rx.q.accepted := by
        show s.rx.q.accepted <+: rx.q.accepted
        rw [hacc]
      exact (hs.signalled a ha).imp_left fun h => h.mono hpre

/-- The TX event ring under a producer that publishes entry number `n`, if it does, with its wake
decision to come. -/
theorem embeds_ring_asyncio {F : TxLoop → Prop} {n : ℕ} {e : Entry}
    (hF : ∀ s t, F s → WorkerMoves s t → F t)
    (hset : ∀ s r, F s → r.head = s.ring.head → r.tail = s.ring.tail → F (ringLoc.set r s))
    (hpub : ∀ s r, F s → s.ring.tail = n → r.tail = n + 1 →
      s.deciding = some n ∧ F (ringLoc.set r s)) :
    Embeds (outline.contract .asyncio) ringLoc (SpscRing.producer n e) F where
  inv := fun s hs => hs.ring
  rely := fun s t hFs hm _ => ⟨hm.ring, hF s t hFs hm⟩
  step := by
    rintro s r hs hFs hg hr
    have hm : SpscRing.ProducerMoves s.ring r := hg.moves
    have htail : s.ring.tail ≤ r.tail := by
      rw [← hs.ring.length, ← hr.length]
      exact hm.log.length_le
    have hquiet : s.Quiet → (ringLoc.set r s).Quiet := by
      rintro (hq | hq | hq)
      · exact .inl hq
      · exact .inr (.inl hq)
      · refine .inr (.inr fun hlow => hq ?_)
        have hlow' : r.tail - r.head ≤ s.lowWater := hlow
        rw [hm.head] at hlow'
        rw [AtLow]
        omega
    have hmoves : AsyncioMoves s (ringLoc.set r s) :=
      ⟨hm, .refl _, rfl, rfl, rfl, rfl, rfl, id, fun a ha => .inl ⟨a, ha, rfl⟩, hquiet⟩
    by_cases hn : r.tail = s.ring.tail
    · -- nothing is published
      refine ⟨hmoves, ?_, hset s r hFs hm.head hn⟩
      refine ⟨hr, hs.rx, hs.blocked, hs.flag, fun ha => ?_, hs.marks, hs.signalled, hs.retried,
        fun hd => hquiet (hs.quiet hd)⟩
      rcases hs.covered ha with he | hw | ⟨k, hk, hlt⟩
      · refine .inl ?_
        show r.tail ≤ r.head
        rw [hn, hm.head]
        exact he
      · exact .inr (.inl hw)
      · exact .inr (.inr ⟨k, hk, by rw [← hn] at hlt; exact hlt⟩)
    · obtain ⟨htn, hrn⟩ : s.ring.tail = n ∧ r.tail = n + 1 := by
        cases hg with
        | stay => exact absurd rfl hn
        | slot h => exact absurd rfl hn
        | count k => exact absurd rfl hn
        | publish h => exact ⟨h, by rw [← h]; rfl⟩
      obtain ⟨hd, hF'⟩ := hpub s r hFs htn hrn
      refine ⟨hmoves, ?_, hF'⟩
      refine ⟨hr, hs.rx, hs.blocked, hs.flag, fun _ => .inr (.inr ⟨n, hd, ?_⟩), hs.marks,
        hs.signalled,
        hs.retried, fun hd => hquiet (hs.quiet hd)⟩
      show n < r.tail
      omega

/-! ## The producer keeps the outline -/

/-- A wake decision leaves no worker waiting with a command. -/
theorem wakeUp_spec {d : Option ℕ} (h : s.Calling d) :
    wp (outline.contract .asyncio) wakeUp (fun _ t => t.Calling d ∧ t.Settled) s := by
  -- a clear flag: whoever took it from a waiting worker has posted the wake
  have hclear : ∀ u, Inv u → u.Calling d → u.workerIdle = false → u.Settled := by
    intro u hu hc hidle ha
    rcases hu.flag ha with hf | hf | hf
    · exact absurd (hidle.symm.trans hf) (by simp)
    · exact absurd (hc.posting.symm.trans hf) (by simp)
    · exact .inr hf
  unfold wakeUp txWakeNeeded
  rw [bind_assoc]
  refine wp_load_bind fun u hsu hu => ?_
  have hc := h.stable hsu
  split
  · rename_i hidle
    exact ⟨hc, hclear u hu hc hidle⟩
  refine wp_rmw_bind fun v huv hv => ?_
  have hc := hc.stable huv
  have hmoves : AsyncioMoves v v.takeIdle :=
    ⟨.refl _, .refl _, rfl, rfl, rfl, rfl, rfl, id, fun a ha => .inl ⟨a, ha, rfl⟩, id⟩
  have hinv : Inv v.takeIdle := by
    refine ⟨hv.ring, hv.rx, hv.blocked, fun ha => ?_, hv.covered, hv.marks, hv.signalled,
      hv.retried, hv.quiet⟩
    cases hi : v.workerIdle with
    | true => exact .inr (.inl hi)
    | false =>
      rcases hv.flag ha with hf | hf | hf
      · exact absurd (hi.symm.trans hf) (by simp)
      · exact absurd (hc.posting.symm.trans hf) (by simp)
      · exact .inr (.inr hf)
  refine ⟨hmoves, hinv, ?_⟩
  cases hi : v.workerIdle with
  | false => exact ⟨⟨hc.rx, hc.deciding, hi⟩, hclear v hv hc hi⟩
  | true =>
    refine wp_modify fun w hvw hw => ?_
    refine ⟨⟨.refl _, .refl _, rfl, rfl, rfl, rfl, rfl, id, fun a ha => .inl ⟨a, ha, rfl⟩, id⟩,
      ?_, ?_, ?_⟩
    · exact ⟨hw.ring, hw.rx, hw.blocked, fun _ => .inr (.inr rfl), fun _ => .inr (.inl rfl),
        hw.marks,
        hw.signalled, hw.retried, hw.quiet⟩
    · exact ⟨hc.rx.stable hvw.rx, hvw.deciding.trans hc.deciding, rfl⟩
    · exact fun _ => .inr rfl

/-- Setting or clearing `deciding` while no waiting worker depends on it. -/
theorem Inv.setDeciding {d : Option ℕ} (hs : Inv s) (h : s.Settled) :
    Inv { s with deciding := d } := by
  refine ⟨hs.ring, hs.rx, hs.blocked, hs.flag, fun ha => ?_, hs.marks, hs.signalled,
    hs.retried, hs.quiet⟩
  rcases h ha with he | hw
  · exact .inl he
  · exact .inr (.inl hw)

theorem AsyncioMoves.setDeciding (s : TxLoop) (d : Option ℕ) :
    AsyncioMoves s { s with deciding := d } :=
  ⟨.refl _, .refl _, rfl, rfl, rfl, rfl, rfl, id, fun a ha => .inl ⟨a, ha, rfl⟩, id⟩

/-- A push that began at tail `n`: until it publishes, no waiting worker depends on it. -/
structure Pushing (n : ℕ) (s : TxLoop) : Prop extends Calling (some n) s where
  tail_le : n ≤ s.ring.tail
  settled : s.ring.tail = n → s.Settled

theorem Pushing.stable {n : ℕ} (h : s.Pushing n) (hm : WorkerMoves s s') : s'.Pushing n := by
  refine ⟨h.toCalling.stable hm, ?_, fun hn => ?_⟩
  · rw [hm.ring.tail]
    exact h.tail_le
  · rw [hm.ring.tail] at hn
    exact (h.settled hn).stable hm

/-- The ring during a push that began at tail `n`. -/
theorem embeds_push {n : ℕ} {e : Entry} :
    Embeds (outline.contract .asyncio) ringLoc (SpscRing.producer n e) (Pushing n) := by
  refine embeds_ring_asyncio (fun _ _ h hm => h.stable hm) (fun s r h hhead htail => ?_)
    (fun s r h hn hr => ⟨h.deciding, ⟨h.rx, h.deciding, h.posting⟩, ?_, fun hr' => ?_⟩)
  · refine ⟨⟨h.rx, h.deciding, h.posting⟩, h.tail_le.trans_eq htail.symm, fun hn ha => ?_⟩
    rcases h.settled (htail.symm.trans hn) ha with he | hw
    · refine .inl ?_
      show r.tail ≤ r.head
      rw [htail, hhead]
      exact he
    · exact .inr hw
  · show n ≤ r.tail
    omega
  · have hr'' : r.tail = n := hr'
    omega

/-- A push and its wake decision. -/
theorem push_spec {e : Entry} {data : List UInt8} (h : s.AsyncioIdle) :
    wp (outline.contract .asyncio) (push e data) (fun _ => AsyncioIdle) s := by
  unfold push
  refine wp_modify_bind fun u hsu hu => ?_
  have hidle := h.stable hsu
  have hinv := hu.setDeciding (d := some u.ring.tail) hidle.settled
  refine ⟨.setDeciding u _, hinv, ?_⟩
  have hput := SpscRing.put_spec (e := e.withData data) (k := data.length) hu.ring
  refine wp_seq (wp_on (embeds_push (n := u.ring.tail))
    ⟨⟨hidle.rx, rfl, hidle.posting⟩, le_rfl, fun _ => hidle.settled⟩ hput) hinv fun rc v hv hpost =>
      ?_
  obtain ⟨hrc, hpushing⟩ := hpost
  -- the end of the call, once no waiting worker depends on it
  have hend : ∀ w, w.Calling (some u.ring.tail) → w.Settled →
      wp (outline.contract .asyncio)
        (modify (fun s => { s with deciding := none }) >>= fun _ => pure rc)
        (fun _ => AsyncioIdle) w := by
    intro w hc hset
    refine wp_modify_bind fun x hwx hx => ?_
    have hc := hc.stable hwx
    have hset := hset.stable hwx
    exact ⟨.setDeciding x _, hx.setDeciding hset, ⟨hc.rx, rfl, hc.posting⟩, hset⟩
  refine wp_when_bind (fun _ => ?_) (fun hne => ?_)
  · exact wp_seq (wakeUp_spec hpushing.toCalling) hv fun _ w _ hw => hend w hw.1 hw.2
  · rcases hrc with ⟨rfl, -⟩ | ⟨-, hm, -⟩
    · exact absurd rfl hne
    · exact hend v hpushing.toCalling (hpushing.settled hm.tail)

/-- A call of the drain signal that set the flag in `u`. -/
structure Arming (u s : TxLoop) : Prop extends AsyncioIdle s where
  tail : s.ring.tail = u.ring.tail
  lowWater : s.lowWater = u.lowWater
  arms : s.arms = u.arms

theorem Arming.stable {u : TxLoop} (h : Arming u s) (hm : WorkerMoves s s') : Arming u s' :=
  ⟨h.toAsyncioIdle.stable hm, hm.ring.tail.trans h.tail, hm.lowWater.trans h.lowWater,
    hm.arms.trans h.arms⟩

/-- The ring while a producer only looks at it. -/
theorem embeds_arming {u : TxLoop} :
    Embeds (outline.contract .asyncio) ringLoc (SpscRing.producer (u.ring.tail + 1) {})
    (Arming u) := by
  refine embeds_ring_asyncio (fun _ _ h hm => h.stable hm) (fun s r h hhead htail => ?_)
    (fun s r h hn _ => ?_)
  · refine ⟨⟨⟨h.rx, h.deciding, h.posting⟩, fun ha => ?_⟩, htail.trans h.tail, h.lowWater, h.arms⟩
    rcases h.settled ha with he | hw
    · refine .inl ?_
      show r.tail ≤ r.head
      rw [htail, hhead]
      exact he
    · exact .inr hw
  · rw [h.tail] at hn
    omega

/-- Setting the drain flag. -/
theorem AsyncioMoves.armStore (s : TxLoop) : AsyncioMoves s s.armStore := by
  refine ⟨.refl _, .refl _, rfl, rfl, rfl, rfl, rfl, fun _ => rfl, fun _ _ => .inr rfl, fun _ => ?_⟩
  by_cases hlow : s.AtLow
  · exact .inr (.inl ⟨_, _, rfl, decide_eq_true hlow⟩)
  · exact .inr (.inr hlow)

theorem Inv.armStore (hs : Inv s) : Inv s.armStore := by
  refine ⟨hs.ring, hs.rx, hs.blocked, hs.flag, hs.covered, fun a ha => ?_, fun _ _ =>
    .inr (.inl rfl),
    fun a ha => ?_, fun hd => (AsyncioMoves.armStore s).quiet (hs.quiet hd)⟩
  · rcases List.mem_cons.1 ha with rfl | ha
    · exact le_rfl
    · exact hs.marks a ha
  · rcases List.mem_cons.1 ha with rfl | ha
    · simp
    · exact hs.retried a ha

/-- The return of the newest call. -/
theorem AsyncioMoves.answer (s : TxLoop) (waits : Bool) : AsyncioMoves s (s.answer waits) := by
  have harms : ∀ a ∈ (s.answer waits).arms, ∃ b ∈ s.arms, b.mark = a.mark ∧ b.atLow = a.atLow := by
    intro a ha
    unfold TxLoop.answer at ha
    cases hs : s.arms with
    | nil => simp [hs] at ha
    | cons b rest =>
      rw [hs] at ha
      rcases List.mem_cons.1 ha with rfl | ha
      · exact ⟨b, by simp, rfl, rfl⟩
      · exact ⟨a, by simp [ha], rfl, rfl⟩
  refine ⟨.refl _, .refl _, rfl, rfl, rfl, rfl, rfl, id, fun a ha => ?_, ?_⟩
  · obtain ⟨b, hb, hmark, -⟩ := harms a ha
    exact .inl ⟨b, hb, hmark⟩
  · rintro (hq | ⟨a, rest, harm, hlow⟩ | hq)
    · exact .inl hq
    · exact .inr (.inl ⟨{ a with result := some waits }, rest, by simp [TxLoop.answer, harm], hlow⟩)
    · exact .inr (.inr hq)

theorem Inv.answer {a : Arm} {rest : List Arm} {waits : Bool} (hs : Inv s)
    (harms : s.arms = a :: rest)
    (ha : a.atLow = true → waits = false) : Inv (s.answer waits) := by
  have hmem : ∀ b ∈ (s.answer waits).arms, b = { a with result := some waits } ∨ b ∈ s.arms := by
    intro b hb
    simp only [TxLoop.answer, harms] at hb
    rcases List.mem_cons.1 hb with rfl | hb
    · exact .inl rfl
    · exact .inr (by simp [harms, hb])
  have ha' : a ∈ s.arms := by simp [harms]
  refine ⟨hs.ring, hs.rx, hs.blocked, hs.flag, hs.covered, fun b hb => ?_, fun b hb => ?_,
    fun b hb hlow => ?_, fun hd => (AsyncioMoves.answer s waits).quiet (hs.quiet hd)⟩
  · rcases hmem b hb with rfl | hb
    · exact hs.marks a ha'
    · exact hs.marks b hb
  · rcases hmem b hb with rfl | hb
    · exact hs.signalled a ha'
    · exact hs.signalled b hb
  · rcases hmem b hb with rfl | hb
    · simp [ha hlow]
    · exact hs.retried b hb hlow

/-- An arm makes its caller wait only if the ring was above low water at the store. -/
theorem armDrainPending_spec (h : s.AsyncioIdle) :
    wp (outline.contract .asyncio) armDrainPending (fun _ => AsyncioIdle) s := by
  unfold armDrainPending
  refine wp_modify_bind fun u hsu hu => ⟨.armStore u, hu.armStore, ?_⟩
  have hidle := h.stable hsu
  have harming : Arming u.armStore u.armStore :=
    ⟨⟨⟨hidle.rx, hidle.deciding, hidle.posting⟩, hidle.settled⟩, rfl, rfl, rfl⟩
  refine wp_seq (wp_on embeds_arming harming SpscRing.count_producer) hu.armStore fun k v hv hk =>
    ?_
  obtain ⟨⟨-, -, hk⟩, hv'⟩ := hk
  have hk' : k ≤ u.ring.tail - u.ring.head := hk
  refine wp_load_bind fun w hvw hw => ?_
  have hw' := hv'.stable hvw
  refine wp_modify_bind fun x hwx hx => ?_
  have hx' := hw'.stable hwx
  have harms : x.arms = ⟨u.rx.q.accepted.length, decide u.AtLow, none⟩ :: u.arms := hx'.arms
  refine ⟨.answer x _, hx.answer harms fun hlow => ?_, ⟨hx'.rx, hx'.deciding, hx'.posting⟩,
    hx'.settled⟩
  have hlow' : u.ring.tail - u.ring.head ≤ u.lowWater := of_decide_eq_true hlow
  have hw'' : w.lowWater = u.lowWater := hw'.lowWater
  exact decide_eq_false (by omega)

/-- A drain of the RX queue. -/
theorem drainRx_spec (maxEvents : ℕ) (hs : Inv s) (h : s.AsyncioIdle) :
    wp (outline.contract .asyncio) ((WakeCtx.drain maxEvents).on rxLoc) (fun _ => AsyncioIdle)
    s := by
  refine wp_mono (wp_on (embeds_rx_asyncio
    (F := fun s => s.deciding = none ∧ s.posting = false ∧ s.Settled) ?_ (fun _ _ h => h))
    ⟨h.deciding, h.posting, h.settled⟩ (WakeCtx.drain_spec maxEvents hs.rx h.rx)) hs
      fun _ t _ ht => ?_
  · intro u v hu hm
    exact ⟨hm.deciding.trans hu.1, hm.posting.trans hu.2.1, hu.2.2.stable hm⟩
  · obtain ⟨hrx, hd, hp, hset⟩ := ht
    exact ⟨⟨hrx, hd, hp⟩, hset⟩

/-! ## The worker keeps the outline -/

/-- The worker outside a wait. -/
structure Awake (s : TxLoop) : Prop extends WorkerIdle s where
  armed : s.armed = false
  blocked : s.blocked = false

theorem Awake.stable (h : s.Awake) (hm : AsyncioMoves s s') : s'.Awake :=
  ⟨h.toWorkerIdle.stable hm, hm.armed.trans h.armed, hm.blocked.trans h.blocked⟩

/-- The worker clears its idle flag, and nothing else that matters. -/
structure Clears (s s' : TxLoop) : Prop where
  eq : s' = { s with workerIdle := s'.workerIdle, wakeLost := s'.wakeLost }

theorem Clears.keeps (h : Clears s s') (hs : Inv s) (ha : s.Awake) :
    WorkerMoves s s' ∧ Inv s' ∧ s'.Awake := by
  rw [h.eq]
  refine ⟨⟨.refl _, .refl _, rfl, rfl, rfl, rfl, fun h => .inl ⟨h, id⟩⟩, ?_, ?_⟩
  · refine ⟨hs.ring, hs.rx, hs.blocked, fun h => ?_, hs.covered, hs.marks, hs.signalled,
      hs.retried, hs.quiet⟩
    have h' : s.armed = true := h
    exact absurd (ha.armed.symm.trans h') (by simp)
  · exact ⟨⟨ha.rx, ha.claimed, ha.firing⟩, ha.armed, ha.blocked⟩

theorem clearIdle_only (now : ℕ) : Only Clears (clearIdle now) := by
  unfold clearIdle noteLost
  refine only_bind (only_load fun s => ⟨rfl⟩) fun idle => ?_
  split
  · trivial
  refine only_bind (only_load fun s => ⟨rfl⟩) fun armedAt => ?_
  split
  · exact only_modify fun s => ⟨rfl⟩
  refine only_bind (only_rmw fun s => ⟨rfl⟩) fun was => only_when ?_
  exact only_bind ((SpscRing.peek_reads.on fun _ => rfl).only fun s => ⟨rfl⟩)
    fun entry => only_when (only_modify fun s => ⟨rfl⟩)

theorem clearIdle_spec (now : ℕ) (h : s.Awake) :
    wp (outline.contract .worker) (clearIdle now) (fun _ => Awake) s :=
  wp_only (clearIdle_only now) h (fun _ _ h hm _ => h.stable hm) fun _ _ hs h hc => hc.keeps hs h

/-- Leaving the wait, with or without taking the wake. -/
theorem Inv.leaveWait (wake : Bool) (hs : Inv s) : Inv { s.leaveWait with wake := wake } :=
  ⟨hs.ring, hs.rx, nofun, nofun, nofun, hs.marks, hs.signalled, hs.retried, hs.quiet⟩

theorem WorkerMoves.leaveWait (s : TxLoop) (wake : Bool) :
    WorkerMoves s { s.leaveWait with wake := wake } :=
  ⟨.refl _, .refl _, rfl, rfl, rfl, rfl, nofun⟩

theorem WorkerIdle.leaveWait (wake : Bool) (h : s.WorkerIdle) :
    Awake { s.leaveWait with wake := wake } :=
  ⟨⟨h.rx, h.claimed, h.firing⟩, rfl, rfl⟩

/-- A field of the worker alone that no invariant depends on, or the start of the drain loop. -/
theorem Awake.setDraining (h : s.Awake) (hs : Inv s) :
    WorkerMoves s { s with draining := true } ∧ Inv { s with draining := true } ∧
      Awake { s with draining := true } :=
  ⟨⟨.refl _, .refl _, rfl, rfl, rfl, rfl, fun h => .inl ⟨h, id⟩⟩,
    ⟨hs.ring, hs.rx, hs.blocked, hs.flag, hs.covered, hs.marks, hs.signalled, hs.retried, nofun⟩,
    ⟨⟨h.rx, h.claimed, h.firing⟩, h.armed, h.blocked⟩⟩

theorem otherCb_spec (now : ℕ) (h : s.WorkerIdle) :
    wp (outline.contract .worker) (otherCb now) (fun _ => WorkerIdle) s := by
  unfold otherCb
  refine wp_modify_bind fun u hsu hu => ?_
  have hu' : Inv u.leaveWait := hu.leaveWait u.wake
  refine ⟨.leaveWait u u.wake, hu', ?_⟩
  exact wp_mono (clearIdle_spec now ((h.stable hsu).leaveWait u.wake)) hu' fun _ _ _ h =>
    h.toWorkerIdle

theorem wakeUpCb_spec (now : ℕ) (h : s.WorkerIdle) :
    wp (outline.contract .worker) (wakeUpCb now) (fun _ => WorkerIdle) s := by
  unfold wakeUpCb
  refine wp_modify_bind fun u hsu hu => ⟨.leaveWait u false, hu.leaveWait false, ?_⟩
  refine wp_seq (clearIdle_spec now ((h.stable hsu).leaveWait false)) (hu.leaveWait false)
    fun _ v _ hv => ?_
  refine wp_modify fun w hvw hw => ?_
  obtain ⟨hm, hi, ha⟩ := (hv.stable hvw).setDraining hw
  exact ⟨hm, hi, ha.toWorkerIdle⟩

/-- The worker between setting its idle flag and its wait; `armed` says that the ring was empty
then. -/
structure Arriving (armed : Bool) (s : TxLoop) : Prop extends WorkerIdle s where
  armed : s.armed = armed
  blocked : s.blocked = false

theorem Arriving.stable {armed : Bool} (h : s.Arriving armed) (hm : AsyncioMoves s s') :
    s'.Arriving armed :=
  ⟨h.toWorkerIdle.stable hm, hm.armed.trans h.armed, hm.blocked.trans h.blocked⟩

/-- The worker looks at the ring: what it knows besides stays. -/
theorem peek_spec {F : TxLoop → Prop} (hF : ∀ s t, F s → AsyncioMoves s t → F t) (hs : Inv s)
    (hcl : s.ring.claimed = false) (h : F s) :
    wp (outline.contract .worker) (SpscRing.peek.on ringLoc)
      (fun o t => (SpscRing.ProducerMoves s.ring t.ring ∧ match o with
        | some e => t.ring.log[s.ring.head]? = some e
        | none => s.ring.head = s.ring.tail) ∧ F t) s := by
  refine wp_reads (SpscRing.peek_reads.on fun _ => rfl) h (fun s t h hm _ => hF s t h hm) ?_
  refine wp_mono (wp_on (embeds_ring_worker (F := fun _ => True) (fun _ _ _ _ => trivial)
    (fun _ _ _ => trivial) none fun _ _ => .inl rfl) trivial (SpscRing.peek_spec hs.ring hcl)) hs
    fun o t _ ht => ht.1

theorem count_spec {F : TxLoop → Prop} (hF : ∀ s t, F s → AsyncioMoves s t → F t) (hs : Inv s)
    (h : F s) :
    wp (outline.contract .worker) (SpscRing.count.on ringLoc)
      (fun n t => n ≤ t.ring.tail - t.ring.head ∧ F t) s := by
  refine wp_reads (SpscRing.count_reads.on fun _ => rfl) h (fun s t h hm _ => hF s t h hm) ?_
  refine wp_mono (wp_on (embeds_ring_worker (F := fun _ => True) (fun _ _ _ _ => trivial)
    (fun _ _ _ => trivial) none fun _ _ => .inl rfl) trivial (SpscRing.count_spec hs.ring)) hs
    fun o t _ ht => ht.1.2.2

/-- Setting the idle flag keeps the invariant: if the ring is empty there is nothing to miss, and if
it is not the re-check finds it. -/
theorem setIdle_keeps (hs : Inv s) (h : s.Awake) :
    WorkerMoves s s.setIdle ∧ Inv s.setIdle ∧ s.setIdle.Arriving (decide s.Empty) := by
  refine ⟨⟨.refl _, .refl _, rfl, rfl, rfl, rfl, fun ha => .inr ?_⟩, ?_, ?_⟩
  · exact of_decide_eq_true ha
  · refine ⟨hs.ring, hs.rx, fun hb => ?_, fun _ => .inl rfl, fun ha => .inl ?_, hs.marks,
      hs.signalled,
      hs.retried, hs.quiet⟩
    · exact absurd (h.blocked.symm.trans hb) (by simp)
    · exact of_decide_eq_true ha
  · exact ⟨⟨h.rx, h.claimed, h.firing⟩, rfl, h.blocked⟩

/-- `aiopquic_tx_worker_idle_arm`: the worker may wait only after it saw the ring empty with the
flag set. -/
theorem txWorkerIdleArm_spec (h : s.Awake) :
    wp (outline.contract .worker) txWorkerIdleArm
      (fun queued t => if queued then t.Awake else t.Arriving true) s := by
  unfold txWorkerIdleArm
  refine wp_modify_bind fun u hsu hu => ?_
  obtain ⟨hm, hi, harr⟩ := setIdle_keeps hu (h.stable hsu)
  refine ⟨hm, hi, ?_⟩
  refine wp_seq (peek_spec (fun _ _ h hm => Arriving.stable h hm) hi harr.claimed harr) hi
    fun o v hv hpost => ?_
  obtain ⟨⟨-, ho⟩, hv'⟩ := hpost
  cases o with
  | none =>
    have hempty : u.Empty := le_of_eq (Eq.symm ho)
    rw [decide_eq_true hempty] at hv'
    exact hv'
  | some e =>
    rw [if_neg (by simp)]
    refine wp_modify_bind fun w hvw hw => ?_
    have hw' := hv'.stable hvw
    refine ⟨⟨.refl _, .refl _, rfl, rfl, rfl, rfl, nofun⟩, ?_, ?_⟩
    · refine ⟨hw.ring, hw.rx, fun hb => ?_, nofun, nofun, hw.marks, hw.signalled,
        hw.retried, hw.quiet⟩
      exact absurd (hw'.blocked.symm.trans hb) (by simp)
    · exact ⟨⟨hw'.rx, hw'.claimed, hw'.firing⟩, rfl, hw'.blocked⟩

/-- The worker enters the drain loop. -/
theorem enterDrain_spec (h : s.Awake) :
    wp (outline.contract .worker) (modify fun s => { s with draining := true })
    (fun _ => WorkerIdle) s := by
  refine wp_modify fun w hvw hw => ?_
  obtain ⟨hm, hi, ha⟩ := (h.stable hvw).setDraining hw
  exact ⟨hm, hi, ha.toWorkerIdle⟩

theorem timeCheck_spec (now currentTime : ℕ) (deltaT : ℤ) (h : s.WorkerIdle) :
    wp (outline.contract .worker) (timeCheck now currentTime deltaT) (fun _ => WorkerIdle) s := by
  unfold timeCheck
  refine wp_modify_bind fun u hsu hu => ?_
  have hu' : Inv u.leaveWait := hu.leaveWait u.wake
  refine ⟨.leaveWait u u.wake, hu', ?_⟩
  refine wp_seq (clearIdle_spec now ((h.stable hsu).leaveWait u.wake)) hu' fun _ v hv hawake => ?_
  split
  · refine wp_modify_bind fun w hvw hw => ?_
    have hawake := hawake.stable hvw
    have hi : ∀ at', Inv { w with workerArmedAt := at' } := fun _ =>
      ⟨hw.ring, hw.rx, hw.blocked, hw.flag, hw.covered, hw.marks, hw.signalled,
        hw.retried, hw.quiet⟩
    refine ⟨⟨.refl _, .refl _, rfl, rfl, rfl, rfl, fun h => .inl ⟨h, id⟩⟩, hi _, ?_⟩
    refine wp_seq (txWorkerIdleArm_spec ⟨⟨hawake.rx, hawake.claimed, hawake.firing⟩,
      hawake.armed, hawake.blocked⟩) (hi _) fun queued x hx hpost => ?_
    cases queued with
    | true => exact enterDrain_spec hpost
    | false =>
      have hpost : x.Arriving true := hpost
      refine wp_modify fun y hxy hy => ?_
      have hy' := hpost.stable hxy
      refine ⟨⟨.refl _, .refl _, rfl, rfl, rfl, rfl, fun h => .inl ⟨h, id⟩⟩, ?_, ?_⟩
      · exact ⟨hy.ring, hy.rx, fun _ => hy'.armed, hy.flag, hy.covered, hy.marks, hy.signalled,
          hy.retried, hy.quiet⟩
      · exact ⟨hy'.rx, hy'.claimed, hy'.firing⟩
  · refine wp_seq (peek_spec (fun _ _ h hm => Awake.stable h hm) hv hawake.claimed hawake) hv
      fun o w _ hpost => ?_
    unfold when
    split
    · exact enterDrain_spec hpost.2
    · exact hpost.2.toWorkerIdle

end TxLoop

end Aiopquic
