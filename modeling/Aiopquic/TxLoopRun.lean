import Aiopquic.TxLoopOutline

/-!
# Every run of the send loop

The drain signal of the loop, and what is left when a run has come to rest.
-/

namespace Aiopquic

open Interleave Interleave.Prog Circular

namespace TxLoop

variable {s s' t : TxLoop}

/-! ## The drain signal -/

/-- The answer to every arm made so far, or made since with the flag set again. -/
structure Firing (n : ℕ) (draining : Bool) (s : TxLoop) : Prop where
  claimed : s.ring.claimed = false
  firing : s.firing = true
  draining : s.draining = draining
  arms : ∀ a ∈ s.arms, a.mark ≤ n ∨ s.drainPending = true
  quiet : s.Quiet

theorem Firing.stable {n : ℕ} {d : Bool} (h : s.Firing n d) (hm : AsyncioMoves s s') :
    s'.Firing n d := by
  refine ⟨hm.ring.claimed.trans h.claimed, hm.firing.trans h.firing, hm.draining.trans h.draining,
    fun a ha => ?_, hm.quiet h.quiet⟩
  rcases hm.arms a ha with ⟨b, hb, hmark⟩ | hp
  · rcases h.arms b hb with hle | hp
    · exact .inl (hmark ▸ hle)
    · exact .inr (hm.pending hp)
  · exact .inr hp

/-- Taking the flag: the arms it stood for are now the worker's to answer. -/
theorem takePending_keeps (hs : Inv s) (h : s.WorkerIdle) (ht : s.drainPending = true) :
    WorkerMoves s s.takePending ∧ Inv s.takePending ∧
      s.takePending.Firing s.rx.q.accepted.length s.draining := by
  refine ⟨⟨.refl _, .refl _, rfl, rfl, rfl, rfl, fun h => .inl ⟨h, id⟩⟩, ?_, ?_⟩
  · refine ⟨hs.ring, hs.rx, hs.blocked, hs.flag, hs.covered, hs.marks, fun a ha => ?_, hs.retried,
      fun _ => .inl rfl⟩
    rcases hs.signalled a ha with hans | hp | hf
    · exact .inl hans
    · exact .inr (.inr hp)
    · exact absurd (h.firing.symm.trans hf) (by simp)
  · exact ⟨h.claimed, ht, rfl, fun a ha => .inl (hs.marks a ha), .inl rfl⟩

/-- The end of an answer that was queued as event number `n`. -/
theorem fired_keeps {n : ℕ} {d : Bool} {before : List Entry} {e : Entry} (hs : Inv s)
    (h : s.Firing n d)
    (hrx : s.rx.WorkerIdle) (hn : before.length = n) (he : e.eventType = .txEventRingDrained)
    (hacc : s.rx.q.accepted = before ++ [e]) :
    WorkerMoves s (s.fired 0) ∧ Inv (s.fired 0) ∧
      (s.fired 0).WorkerIdle ∧ (s.fired 0).Quiet ∧ (s.fired 0).draining = d := by
  refine ⟨⟨.refl _, .refl _, rfl, rfl, rfl, rfl, fun h => .inl ⟨h, id⟩⟩, ?_, ⟨hrx, h.claimed, rfl⟩,
    h.quiet,
    h.draining⟩
  refine ⟨hs.ring, hs.rx, hs.blocked, hs.flag, hs.covered, hs.marks, fun a ha => ?_,
    hs.retried, hs.quiet⟩
  rcases h.arms a ha with hle | hp
  · refine .inl ⟨e, ?_, he⟩
    show e ∈ s.rx.q.accepted.drop a.mark
    rw [hacc, List.drop_append_of_le_length (by omega)]
    simp
  · exact .inr (.inl hp)

/-- Whatever the producer does meanwhile, the check leaves nobody waiting for a signal that the
worker owes. -/
theorem maybeFireDrained_spec {d : Bool} (h : s.WorkerIdle) (hd : s.draining = d) :
    wp (outline.contract .worker) maybeFireDrained
      (fun _ t => t.WorkerIdle ∧ t.Quiet ∧ t.draining = d) s := by
  have hF : ∀ s t : TxLoop, (s.WorkerIdle ∧ s.draining = d) → AsyncioMoves s t →
      t.WorkerIdle ∧ t.draining = d :=
    fun s t h hm => ⟨h.1.stable hm, hm.draining.trans h.2⟩
  unfold maybeFireDrained
  refine wp_load_bind fun u hsu hu => ?_
  have hu' := hF s u ⟨h, hd⟩ hsu
  split
  · rename_i hp
    exact ⟨hu'.1, .inl hp, hu'.2⟩
  refine wp_seq (count_spec hF hu hu') hu fun k v hv hpost => ?_
  obtain ⟨hk, hv'⟩ := hpost
  refine wp_load_bind fun w hvw hw => ?_
  have hw' := hF v w hv' hvw
  split
  · -- the ring is above low water now
    rename_i hlow
    refine ⟨hw'.1, hvw.quiet (.inr (.inr fun hat => ?_)), hw'.2⟩
    have hat' : v.ring.tail - v.ring.head ≤ v.lowWater := hat
    rw [hvw.lowWater] at hlow
    omega
  refine wp_rmw_bind fun x hwx hx => ?_
  have hx' := hF w x hw' hwx
  cases htaken : x.drainPending with
  | false =>
    have heq : x.takePending = x := by
      rw [takePending, htaken]
      congr 1
      · exact htaken.symm
      · exact hx'.1.firing.symm
    rw [heq]
    exact ⟨.refl x, hx, hx'.1, .inl htaken, hx'.2⟩
  | true =>
    obtain ⟨hm, hi, hfiring⟩ := takePending_keeps hx hx'.1 htaken
    refine ⟨hm, hi, ?_⟩
    rw [if_neg (by simp)]
    refine wp_seq (wp_on (embeds_rx_worker (fun _ _ h hm => Firing.stable h hm) fun _ _ h => ?_)
      hfiring
      (WakeCtx.rxPush_spec (·.eventType = .txEventRingDrained) rfl rfl hx.rx hx'.1.rx)) hi
      fun rc y hy hpost => ?_
    · exact ⟨h.claimed, h.firing, h.draining, h.arms, h.quiet⟩
    obtain ⟨⟨rfl, hrx, e, he, hacc⟩, hfiring⟩ := hpost
    refine wp_modify fun z hyz hz => ?_
    obtain ⟨hm, hi, hrun, hq, hd'⟩ := fired_keeps hz (hfiring.stable hyz) (hrx.stable hyz.rx) rfl he
      (hyz.rx.queue.accepted.trans hacc)
    exact ⟨hm, hi, hrun, hq, hd'.trans hx'.2⟩

/-- One turn of the drain loop; the last one ends with the signal settled. -/
theorem drainTurn_spec (hs : Inv s) (h : s.WorkerIdle) (hd : s.draining = true) :
    wp (outline.contract .worker) drainTurn (fun _ => WorkerIdle) s := by
  have hF : ∀ s t : TxLoop, (s.WorkerIdle ∧ s.draining = true) → AsyncioMoves s t →
      t.WorkerIdle ∧ t.draining = true := fun s t h hm => ⟨h.1.stable hm, hm.draining.trans h.2⟩
  unfold drainTurn
  refine wp_seq (peek_spec hF hs h.claimed ⟨h, hd⟩) hs fun o u hu hpost => ?_
  obtain ⟨⟨hm, ho⟩, hrun, hdr⟩ := hpost
  cases o with
  | none =>
    refine wp_seq (maybeFireDrained_spec hrun hdr) hu fun _ v hv hpost => ?_
    obtain ⟨hrun, hq, -⟩ := hpost
    refine wp_modify fun w hvw hw => ?_
    have hrun := hrun.stable hvw
    refine ⟨⟨.refl _, .refl _, rfl, rfl, rfl, rfl, fun h => .inl ⟨h, id⟩⟩, ?_, ?_⟩
    · exact ⟨hw.ring, hw.rx, hw.blocked, hw.flag, hw.covered, hw.marks, hw.signalled, hw.retried,
        fun _ => hvw.quiet hq⟩
    · exact ⟨hrun.rx, hrun.claimed, hrun.firing⟩
  | some e =>
    have hlt : u.ring.head < u.ring.tail := by
      have hlen := (List.getElem?_eq_some_iff.1 ho).1
      rw [hu.ring.length] at hlen
      rw [hm.head]
      exact hlen
    have hG : ∀ s t : TxLoop, (s.rx.WorkerIdle ∧ s.firing = false ∧ s.draining = true) →
      AsyncioMoves s t →
        t.rx.WorkerIdle ∧ t.firing = false ∧ t.draining = true := fun s t h hm =>
      ⟨h.1.stable hm.rx, hm.firing.trans h.2.1, hm.draining.trans h.2.2⟩
    refine wp_seq (wp_on (embeds_ring_worker hG (fun _ _ h => h) (some u.ring.head) fun _ h =>
      .inr h.2.2)
      ⟨hrun.rx, hrun.firing, hdr⟩ (SpscRing.pop_spec hu.ring hlt)) hu fun _ v hv hpost => ?_
    obtain ⟨hpop, hrx, hf, hdr⟩ := hpost
    exact wp_mono (maybeFireDrained_spec ⟨hrx, hpop.claimed, hf⟩ hdr) hv fun _ w _ hpost => hpost.1

/-- Another event for the RX side. -/
theorem rxEvent_spec {e : Entry} {data : List UInt8} (hs : Inv s) (h : s.WorkerIdle) :
    wp (outline.contract .worker) ((WakeCtx.pushCall e data).on rxLoc) (fun _ => WorkerIdle) s := by
  refine wp_mono (wp_on
    (embeds_rx_worker (F := fun s => s.ring.claimed = false ∧ s.firing = false) ?_
    (fun _ _ h => h)) ⟨h.claimed, h.firing⟩ (WakeCtx.pushCall_spec hs.rx h.rx)) hs
      fun _ t _ ht => ?_
  · exact fun u v h hm => ⟨hm.ring.claimed.trans h.1, hm.firing.trans h.2⟩
  · exact ⟨ht.1, ht.2.1, ht.2.2⟩

/-! ## Every run -/

theorem outline_sound : outline.Sound := by
  rintro i s p hs hidle hp
  cases hp with
  | push _ e data => exact wp_seq (push_spec hidle) hs fun _ _ _ h => h
  | wakeUp _ =>
    have hidle : s.AsyncioIdle := hidle
    exact wp_mono (wakeUp_spec hidle.toCalling) hs fun _ _ _ h => ⟨h.1, h.2⟩
  | arm _ => exact wp_seq (armDrainPending_spec hidle) hs fun _ _ _ h => h
  | drainRx _ maxEvents => exact drainRx_spec maxEvents hs hidle
  | timeCheck _ now currentTime deltaT _ => exact timeCheck_spec now currentTime deltaT hidle
  | wakeUpCb _ now _ => exact wakeUpCb_spec now hidle
  | otherCb _ now _ => exact otherCb_spec now hidle
  | drainTurn _ h => exact drainTurn_spec hs hidle h
  | rxEvent _ e data _ => exact rxEvent_spec hs hidle

theorem init_inv (txGeo rxGeo : Geometry) (lowWaterPct : ℕ) (env : Option ℤ) :
    Inv (init txGeo rxGeo lowWaterPct env) :=
  ⟨SpscRing.create_wf txGeo, WakeCtx.create_inv rxGeo, nofun, nofun, nofun, nofun, nofun, nofun,
    fun _ => .inl rfl⟩

theorem init_idle (txGeo rxGeo : Geometry) (lowWaterPct : ℕ) (env : Option ℤ) (i : Thread) :
    outline.idle i (init txGeo rxGeo lowWaterPct env) := by
  cases i with
  | worker => exact ⟨WakeCtx.create_idle rxGeo .worker, rfl, rfl⟩
  | asyncio => exact ⟨⟨WakeCtx.create_idle rxGeo .asyncio, rfl, rfl⟩, nofun⟩

/-- No wake is lost: while the worker is in a wait that can block, its ring is empty, or a wake is
pending, or the producer that filled the ring has not yet settled its wake. -/
theorem tx_wake_not_lost (txGeo rxGeo : Geometry) (lowWaterPct : ℕ) (env : Option ℤ)
    {c : Config Thread TxLoop} (hc : Reachable Menu (init txGeo rxGeo lowWaterPct env) c)
    (hb : c.mem.blocked = true) :
    c.mem.Empty ∨ c.mem.wake = true ∨ ¬ c.Idle .asyncio ∧ c.mem.Deciding := by
  have h := outline.reachable outline_sound (init_inv txGeo rxGeo lowWaterPct env)
    (init_idle txGeo rxGeo lowWaterPct env) hc
  have hinv : Inv c.mem := h.1
  refine (hinv.covered (hinv.blocked hb)).imp_right (.imp_right fun hd => ⟨fun hidle => ?_, hd⟩)
  have hidle : AsyncioIdle c.mem := h.idle hidle
  obtain ⟨n, hn, -⟩ := hd
  exact absurd (hidle.deciding.symm.trans hn) (by simp)

/-- A context with rings of four slots. -/
def smallLoop : TxLoop := init (.ofExp 2 Geometry.exp_two) (.ofExp 2 Geometry.exp_two) 50 none

/-- The worker goes to wait, and then a command is pushed. -/
def wokenRun : Config Thread TxLoop :=
  ((Config.start smallLoop).call .worker (timeCheck 0 0 100000)).drive (.replicate 10 .worker)
    |>.call .asyncio (call (push {} [])) |>.drive (.replicate 12 .asyncio)

theorem tx_wake_not_lost_wokenRun :
    wokenRun.mem.blocked = true ∧ ¬ wokenRun.mem.Empty ∧
      (wokenRun.mem.Empty ∨ wokenRun.mem.wake = true ∨
        ¬ wokenRun.Idle .asyncio ∧ wokenRun.mem.Deciding) := by
  have h₀ : Reachable Menu smallLoop (Config.start smallLoop) := .refl
  have h₁ := (h₀.call (i := .worker) rfl (.timeCheck _ 0 0 100000 rfl)).drive
    (.replicate 10 .worker)
  have h₂ := (h₁.call (i := .asyncio) rfl (.push _ {} [])).drive (.replicate 12 .asyncio)
  exact ⟨by decide, by decide, tx_wake_not_lost _ _ _ _ h₂ (by decide)⟩

/-- The drain signal is not lost: an arm that made its caller wait is answered, or its flag is up,
or the answer is on its way; with the worker outside the drain loop and the ring at or below low
water, the flag is down or the newest arm found the ring there, and such an arm does not make its
caller wait. -/
theorem tx_drain_signal_not_lost (txGeo rxGeo : Geometry) (lowWaterPct : ℕ) (env : Option ℤ)
    {c : Config Thread TxLoop} (hc : Reachable Menu (init txGeo rxGeo lowWaterPct env) c) :
    (∀ a ∈ c.mem.arms, a.result = some true →
      c.mem.Answered a.mark ∨ c.mem.drainPending = true ∨ c.mem.firing = true) ∧
    (c.mem.draining = false → c.mem.AtLow →
      c.mem.drainPending = false ∨ ∃ a rest, c.mem.arms = a :: rest ∧ a.atLow = true) ∧
    ∀ a ∈ c.mem.arms, a.atLow = true → a.result ≠ some true := by
  have h := outline.reachable outline_sound (init_inv txGeo rxGeo lowWaterPct env)
    (init_idle txGeo rxGeo lowWaterPct env) hc
  have hinv : Inv c.mem := h.1
  refine ⟨fun a ha _ => hinv.signalled a ha, fun hd hlow => ?_, hinv.retried⟩
  rcases hinv.quiet hd with hq | hq | hq
  · exact .inl hq
  · exact .inr hq
  · exact absurd hlow hq

/-- Three commands fill the ring above low water, the producer arms, and the worker drains. -/
def drainedRun : Config Thread TxLoop :=
  (((Config.start smallLoop).call .asyncio (call (push {} []))).drive (.replicate 12 .asyncio)
    |>.call .asyncio (call (push {} []))).drive (.replicate 12 .asyncio)
    |>.call .asyncio (call (push {} [])) |>.drive (.replicate 12 .asyncio)
    |>.call .asyncio (call armDrainPending) |>.drive (.replicate 12 .asyncio)
    |>.call .worker (wakeUpCb 0) |>.drive (.replicate 12 .worker)
    |>.call .worker drainTurn |>.drive (.replicate 30 .worker)

theorem tx_drain_signal_not_lost_drainedRun :
    drainedRun.mem.arms = [⟨0, false, some true⟩] ∧ drainedRun.mem.drainPending = false ∧
      drainedRun.mem.firing = false ∧
      (drainedRun.mem.Answered 0 ∨ drainedRun.mem.drainPending = true ∨ drainedRun.mem.firing =
      true) := by
  have h₀ : Reachable Menu smallLoop (Config.start smallLoop) := .refl
  have h₁ := (h₀.call (i := .asyncio) rfl (.push _ {} [])).drive (.replicate 12 .asyncio)
  have h₂ := (h₁.call (i := .asyncio) rfl (.push _ {} [])).drive (.replicate 12 .asyncio)
  have h₃ := (h₂.call (i := .asyncio) (by decide +kernel) (.push _ {} [])).drive
    (.replicate 12 .asyncio)
  have h₄ := (h₃.call (i := .asyncio) (by decide +kernel) (.arm _)).drive (.replicate 12 .asyncio)
  have h₅ := (h₄.call (i := .worker) (by decide +kernel) (.wakeUpCb _ 0 (by decide +kernel))).drive
    (.replicate 12 .worker)
  have h₆ := (h₅.call (i := .worker) (by decide +kernel) (.drainTurn _ (by decide +kernel))).drive
    (.replicate 30 .worker)
  have harms : drainedRun.mem.arms = [⟨0, false, some true⟩] := by decide +kernel
  have hmem : (⟨0, false, some true⟩ : Arm) ∈ drainedRun.mem.arms := by
    rw [harms]
    exact List.mem_singleton_self _
  have h₇ : Reachable Menu smallLoop drainedRun := h₆
  have hsignal := (tx_drain_signal_not_lost _ _ _ _ h₇).1 _ hmem rfl
  exact ⟨harms, by decide +kernel, by decide +kernel, hsignal⟩

/-- The worker drains an empty ring; then a producer arms the signal and is told not to wait. -/
def keptArmRun : Config Thread TxLoop :=
  (((Config.start smallLoop).call .worker (wakeUpCb 0)).drive (.replicate 12 .worker)
    |>.call .worker drainTurn).drive (.replicate 12 .worker)
    |>.call .asyncio (call armDrainPending) |>.drive (.replicate 12 .asyncio)

/-- The flag of such an arm stays up after the call. -/
theorem tx_drain_signal_kept_keptArmRun :
    Reachable Menu smallLoop keptArmRun ∧ keptArmRun.Idle .worker ∧ keptArmRun.Idle .asyncio ∧
      keptArmRun.mem.draining = false ∧ keptArmRun.mem.AtLow ∧
      ¬ (keptArmRun.mem.drainPending = false ∨
        ¬ keptArmRun.Idle .asyncio ∧ ∃ a rest, keptArmRun.mem.arms = a :: rest ∧ a.result =
        none) := by
  have h₀ : Reachable Menu smallLoop (Config.start smallLoop) := .refl
  have h₁ := (h₀.call (i := .worker) rfl (.wakeUpCb _ 0 rfl)).drive (.replicate 12 .worker)
  have h₂ := (h₁.call (i := .worker) rfl (.drainTurn _ (by decide))).drive (.replicate 12 .worker)
  have h₃ := (h₂.call (i := .asyncio) rfl (.arm _)).drive (.replicate 12 .asyncio)
  have hidle : keptArmRun.Idle .asyncio := Config.idle_of_isIdle (by decide +kernel)
  refine ⟨h₃, Config.idle_of_isIdle (by decide +kernel),
    hidle, by decide +kernel, by decide +kernel, ?_⟩
  rintro (hp | ⟨hbusy, -⟩)
  · exact absurd hp (by decide +kernel)
  · exact hbusy hidle

end TxLoop

end Aiopquic
