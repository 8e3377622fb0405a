import Aiopquic.TxPoolBytes

/-!
# Resets that wait for their reliable bytes

A reset that keeps bytes not yet sent is held: the flag caps the pulls at the reliable size, an
entry of the worker's list waits for the head to reach it, and the close of the connection drops the
entry. The flag is the only memory of a reset, so a request that comes after the held one went out
is passed to picoquic again.

`Local` is what holds of one context, given how many entries name it and whether its connection is
over. Every operation touches one context; `Only` says so.
-/

namespace Aiopquic

open Interleave Interleave.Prog Circular

namespace TxPool

variable {s t : TxPool} {x : ℕ}

/-! ## One context -/

/-- Picoquic asks for no more bytes of the stream: it was told to reset it, the connection is over,
or h3zero has let the stream go. -/
def Quiet (c : TxCtx) (ceased : Bool) : Prop :=
  c.told ≠ [] ∨ ceased = true ∨ c.isWt = true ∧ c.linked = false

/-- What was deferred is still kept: no more than its size is handed, and no FIN since. -/
structure Keeps (c : TxCtx) (ceased : Bool) (h : Held) : Prop where
  before : h.before ≤ c.frames.length
  handed : c.handed ≤ h.size
  noFin : ∀ f ∈ c.frames.drop h.before, f.isFin = false
  waits : Quiet c ceased ∨ c.sc.txResetPending = true ∧ c.sc.txReliableSize = h.size

/-- An entry was taken for ready when its size had been handed exactly, and its reset was sent for
an open connection. -/
structure Exact (c : TxCtx) (r : Done) : Prop where
  handed : r.handed = r.size
  held : ∃ h ∈ c.held, h.size = r.size
  told : r.calls ≠ [] → c.told ≠ [] ∧ r.closing = false
  discarded : (∃ a ∈ r.calls, a.2 = .ok) → r.queued = 0
  calls : r.calls = [] ∨ ∃ v header, r.calls = (resetStreamReliable v (header + r.size)).1

structure Local (c : TxCtx) (n : ℕ) (ceased : Bool) : Prop where
  flag : n = if c.sc.txResetPending then 1 else 0
  tracked : c.linked = c.tracked
  handed_le : c.handed ≤ c.sc.txBuf.head
  handed : c.told = [] → c.handed = c.sc.txBuf.head
  below : c.sc.txResetPending = true → c.sc.txBuf.head ≤ c.sc.txReliableSize
  waits : c.sc.txResetPending = true → c.told ≠ [] → c.sc.txBuf.head < c.sc.txReliableSize
  current : c.sc.txResetPending = true → ∃ h ∈ c.held, h.size = c.sc.txReliableSize
  held : ∀ h ∈ c.held, Keeps c ceased h
  done : ∀ r ∈ c.done, Exact c r
  once : c.done.countP (fun r => decide (r.calls ≠ [])) ≤ 1

variable {c c' : TxCtx} {n n' : ℕ} {ceased ceased' : Bool}

/-- The fields that `Local` reads. -/
structure SameLocal (c c' : TxCtx) : Prop where
  sc : c'.sc.txResetPending = c.sc.txResetPending ∧ c'.sc.txReliableSize = c.sc.txReliableSize ∧
    c'.sc.txBuf.head = c.sc.txBuf.head
  stream : c'.isWt = c.isWt ∧ c'.linked = c.linked ∧ c'.tracked = c.tracked
  history : c'.frames = c.frames ∧ c'.held = c.held ∧ c'.told = c.told ∧ c'.done = c.done

theorem Local.same (h : Local c n ceased) (hc : SameLocal c c') : Local c' n ceased := by
  obtain ⟨⟨hp, hs, hh⟩, ⟨hw, hl, ht⟩, hf, hd, htold, hdone⟩ := hc
  have hq : Quiet c' ceased ↔ Quiet c ceased := by
    rw [Quiet, Quiet, htold, hw, hl]
  have hk : ∀ h, Keeps c ceased h → Keeps c' ceased h := by
    intro k hk
    refine ⟨?_, ?_, ?_, ?_⟩
    · rw [hf]
      exact hk.before
    · rw [TxCtx.handed, hf]
      exact hk.handed
    · rw [hf]
      exact hk.noFin
    · rw [hq, hp, hs]
      exact hk.waits
  have he : ∀ r, Exact c r → Exact c' r := by
    intro r hr
    exact ⟨hr.handed, by
      rw [hd]; exact hr.held, by rw [htold]; exact hr.told, hr.discarded, hr.calls⟩
  refine ⟨?_, ?_, ?_, ?_, ?_, ?_, ?_, ?_, ?_, ?_⟩
  · rw [hp]
    exact h.flag
  · rw [hl, ht]
    exact h.tracked
  · rw [TxCtx.handed, hf, hh]
    exact h.handed_le
  · rw [TxCtx.handed, hf, hh, htold]
    exact h.handed
  · rw [hp, hh, hs]
    exact h.below
  · rw [hp, hh, hs, htold]
    exact h.waits
  · rw [hp, hs, hd]
    exact h.current
  · rw [hd]
    exact fun k hk' => hk k (h.held k hk')
  · rw [hdone]
    exact fun r hr => he r (h.done r hr)
  · rw [hdone]
    exact h.once

theorem local_new (cnx streamId session : ℕ) (isWt ceased : Bool) :
    Local { cnx := cnx, streamId := streamId, isWt := isWt, session := session } 0 ceased :=
  ⟨rfl, rfl, le_rfl, fun _ => rfl, (nomatch ·), (nomatch ·), (nomatch ·),
    fun _ h => absurd h List.not_mem_nil, fun _ h => absurd h List.not_mem_nil, Nat.zero_le _⟩

/-- The connection ends. -/
theorem Local.ends (h : Local c n ceased) (hover : ceased = true → ceased' = true) :
    Local c n ceased' := by
  refine ⟨h.flag, h.tracked, h.handed_le, h.handed, h.below, h.waits, h.current, fun k hk => ?_,
    h.done, h.once⟩
  obtain ⟨hb, hh, hf, hw⟩ := h.held k hk
  exact ⟨hb, hh, hf, hw.imp (.imp_right (.imp_left hover)) id⟩

/-- h3zero lets the stream go. -/
theorem Local.release (h : Local c n ceased) :
    Local { c with linked := false, tracked := false } n ceased := by
  refine ⟨h.flag, rfl, h.handed_le, h.handed, h.below, h.waits, h.current, fun k hk => ?_,
    fun r hr => ⟨(h.done r hr).1, (h.done r hr).2, (h.done r hr).3, (h.done r hr).4,
      (h.done r hr).5⟩, h.once⟩
  obtain ⟨hb, hh, hf, hw⟩ := h.held k hk
  exact ⟨hb, hh, hf, hw.imp (.imp_right (.imp_right fun hw => ⟨hw.1, rfl⟩)) id⟩

theorem handed_append (frames : List Frame) (f : Frame) :
    (handedBytes (frames ++ [f])).length = (handedBytes frames).length + f.bytes.length := by
  simp [handedBytes]

/-- A pull: `n` bytes leave the ring, and they are handed. -/
theorem Local.pull {f : Frame} (h : Local c n ceased) (htold : c.told = []) {sc : StreamCtx}
    (hsc : sc.txResetPending = c.sc.txResetPending ∧ sc.txReliableSize = c.sc.txReliableSize)
    (hhead : sc.txBuf.head = c.sc.txBuf.head + f.bytes.length)
    (hsize : c.sc.txResetPending = true → sc.txBuf.head ≤ c.sc.txReliableSize ∧ f.isFin = false)
    (hasks : f.bytes = [] ∧ f.isFin = false ∨ ¬ Quiet c ceased) :
    Local { c with sc := sc, frames := c.frames ++ [f] } n ceased := by
  obtain ⟨hp, hs⟩ := hsc
  have hhanded : TxCtx.handed { c with sc := sc, frames := c.frames ++ [f] } = sc.txBuf.head := by
    rw [TxCtx.handed, handed_append, hhead, ← h.handed htold]
    rfl
  refine ⟨?_, h.tracked, hhanded.le, fun _ => hhanded, fun hpend => ?_, fun _ hne =>
    absurd htold hne, fun hpend => ?_,
    fun k hk => ?_, fun r hr =>
      ⟨(h.done r hr).1, (h.done r hr).2, (h.done r hr).3, (h.done r hr).4, (h.done r hr).5⟩, h.once⟩
  · show n = if sc.txResetPending = true then 1 else 0
    rw [hp]
    exact h.flag
  · show sc.txBuf.head ≤ sc.txReliableSize
    rw [hs]
    exact (hsize (hp.symm.trans hpend)).1
  · show ∃ k ∈ c.held, k.size = sc.txReliableSize
    rw [hs]
    exact h.current (hp.symm.trans hpend)
  · obtain ⟨hb, hh, hf, hw⟩ := h.held k hk
    have hdrop : (c.frames ++ [f]).drop k.before = c.frames.drop k.before ++ [f] :=
      List.drop_append_of_le_length hb
    have hwaits : Quiet { c with sc := sc, frames := c.frames ++ [f] } ceased ∨
        sc.txResetPending = true ∧ sc.txReliableSize = k.size := by
      rw [hp, hs]
      exact hw
    -- either the frame is empty or the deferral is still in force
    have hframe : c.handed + f.bytes.length ≤ k.size ∧ f.isFin = false := by
      rcases hasks with ⟨hnil, hfin⟩ | hopen
      · rw [hnil]
        exact ⟨hh, hfin⟩
      · obtain ⟨hpend, hsz⟩ := hw.resolve_left hopen
        obtain ⟨hle, hfin⟩ := hsize hpend
        rw [h.handed htold, ← hhead, ← hsz]
        exact ⟨hle, hfin⟩
    refine ⟨?_, ?_, fun g hg => ?_, hwaits⟩
    · show k.before ≤ (c.frames ++ [f]).length
      rw [List.length_append]
      omega
    · rw [TxCtx.handed, handed_append]
      exact hframe.1
    · rw [hdrop] at hg
      rcases List.mem_append.1 hg with hg | hg
      · exact hf g hg
      · rw [List.mem_singleton.1 hg]
        exact hframe.2

/-- A reset is deferred. -/
theorem Local.defer (h : Local c n ceased) (hpend : c.sc.txResetPending = false) {reliable : ℕ}
    (hlt : c.sc.txBuf.head < reliable) :
    Local { c with
      sc := { c.sc with txResetPending := true, txReliableSize := reliable }
      held := c.held ++ [⟨reliable, c.frames.length⟩] } (n + 1) ceased := by
  have hn : n = 0 := by
    rw [h.flag, hpend]
    rfl
  refine ⟨by rw [hn]; rfl, h.tracked, h.handed_le, h.handed, fun _ => hlt.le, fun _ _ => hlt,
    fun _ => ⟨_, List.mem_append_right _ List.mem_cons_self, rfl⟩, fun k hk => ?_, fun r hr =>
      ?_, h.once⟩
  · rcases List.mem_append.1 hk with hk | hk
    · obtain ⟨hb, hh, hf, hw⟩ := h.held k hk
      exact ⟨hb, hh, hf, .inl (hw.resolve_right fun hw => by simp [hpend] at hw)⟩
    · rw [List.mem_singleton.1 hk]
      refine ⟨le_rfl, h.handed_le.trans hlt.le, fun f hf => ?_, .inr ⟨rfl, rfl⟩⟩
      rw [List.drop_length] at hf
      exact absurd hf List.not_mem_nil
  · obtain ⟨hh, ⟨k, hk, hks⟩, ht, hd, hc⟩ := h.done r hr
    exact ⟨hh, ⟨k, List.mem_append_left _ hk, hks⟩, ht, hd, hc⟩

/-- A reset is sent for a request, and the queue may be dropped. -/
theorem Local.tell (h : Local c n ceased) (hpend : c.sc.txResetPending = false)
    {calls : List (ResetCall × ResetRc)}
    (hcalls : calls ≠ []) {sc : StreamCtx} (hsc : sc.txResetPending = false)
    (hhead : c.sc.txBuf.head ≤ sc.txBuf.head) :
    Local { c with sc := sc, told := c.told ++ calls } n ceased := by
  have htold : c.told ++ calls ≠ [] := fun hnil => hcalls (List.append_eq_nil_iff.1 hnil).2
  refine ⟨?_, h.tracked, h.handed_le.trans hhead, fun hnil => absurd hnil htold, fun hp => ?_,
    fun hp => ?_,
    fun hp => ?_, fun k hk => ?_, fun r hr => ?_, h.once⟩
  · rw [hsc, h.flag, hpend]
  · exact absurd (hsc.symm.trans hp) (by simp)
  · exact absurd (hsc.symm.trans hp) (by simp)
  · exact absurd (hsc.symm.trans hp) (by simp)
  · obtain ⟨hb, hh, hf, -⟩ := h.held k hk
    exact ⟨hb, hh, hf, .inl (.inl htold)⟩
  · obtain ⟨hh, hk, ht, hd, hc⟩ := h.done r hr
    exact ⟨hh, hk, fun hne => ⟨htold, (ht hne).2⟩, hd, hc⟩

/-- An entry goes with the end of its stream: the flag falls. -/
theorem Local.drop (h : Local c (n + 1) ceased) (hquiet : Quiet c ceased) :
    Local { c with sc := { c.sc with txResetPending := false } } n ceased := by
  have hn : n = 0 := by
    have := h.flag
    split at this <;> omega
  refine ⟨hn, h.tracked, h.handed_le, h.handed, (nomatch ·), (nomatch ·), (nomatch ·),
    fun k hk => ?_, fun r hr =>
      ⟨(h.done r hr).1, (h.done r hr).2, (h.done r hr).3, (h.done r hr).4, (h.done r hr).5⟩, h.once⟩
  obtain ⟨hb, hh, hf, -⟩ := h.held k hk
  exact ⟨hb, hh, hf, .inl hquiet⟩

/-- An entry that is ready has been handed its size exactly, and its stream was told nothing yet. -/
theorem Local.ready (h : Local c n ceased) (hpend : c.sc.txResetPending = true)
    (hready : c.sc.txReliableSize ≤ c.sc.txBuf.head) :
    c.told = [] ∧ c.handed = c.sc.txReliableSize := by
  have htold : c.told = [] := by
    by_contra hne
    exact absurd (h.waits hpend hne) (by omega)
  refine ⟨htold, ?_⟩
  rw [h.handed htold]
  exact le_antisymm (h.below hpend) hready

/-- The reset of a ready entry is sent, or its stream has ended. -/
theorem Local.finish (h : Local c (n + 1) ceased) (hready : c.sc.txReliableSize ≤ c.sc.txBuf.head)
    {calls : List (ResetCall × ResetRc)} {sc : StreamCtx} {r : Done}
    (hsc : sc.txResetPending = false)
    (hhead : c.sc.txBuf.head ≤ sc.txBuf.head) (hsame : calls = [] → sc.txBuf.head = c.sc.txBuf.head)
    (hsize : r.size = c.sc.txReliableSize) (hhanded : r.handed = c.handed)
    (hcalls : r.calls = calls)
    (hopen : calls ≠ [] ∧ r.closing = false ∨ calls = [] ∧ Quiet c ceased)
    (hqueued : (∃ a ∈ calls, a.2 = .ok) → r.queued = 0)
    (hasked : calls = [] ∨ ∃ v header, calls =
    (resetStreamReliable v (header + c.sc.txReliableSize)).1) :
    Local { c with sc := sc, told := c.told ++ calls, done := c.done ++ [r] } n ceased := by
  have hflag := h.flag
  have hpend : c.sc.txResetPending = true := by
    by_contra hne
    rw [if_neg hne] at hflag
    omega
  rw [if_pos hpend] at hflag
  obtain ⟨htold, hall⟩ := h.ready hpend hready
  have hquiet : ∀ c' : TxCtx, c'.told = c.told ++ calls → c'.isWt = c.isWt → c'.linked = c.linked →
      Quiet c' ceased := by
    intro c' ht hw hl
    rcases hopen with hopen | ⟨-, hq⟩
    · refine .inl ?_
      rw [ht]
      exact fun hnil => hopen.1 (List.append_eq_nil_iff.1 hnil).2
    · rcases hq with hq | hq | hq
      · exact absurd htold hq
      · exact .inr (.inl hq)
      · exact .inr (.inr ⟨hw.trans hq.1, hl.trans hq.2⟩)
  have hnone : ∀ r ∈ c.done, r.calls = [] := by
    intro r' hr'
    by_contra hne
    exact ((h.done r' hr').told hne).1 htold
  refine ⟨?_, h.tracked, h.handed_le.trans hhead, fun hnil => ?_, fun hp => ?_, fun hp => ?_,
    fun hp => ?_,
    fun k hk => ?_, fun r' hr' => ?_, ?_⟩
  · show n = if sc.txResetPending = true then 1 else 0
    rw [hsc]
    simp only [Bool.false_eq_true, if_false]
    omega
  · show c.handed = sc.txBuf.head
    rw [hsame (List.append_eq_nil_iff.1 hnil).2]
    exact h.handed htold
  · exact absurd (hsc.symm.trans hp) (by simp)
  · exact absurd (hsc.symm.trans hp) (by simp)
  · exact absurd (hsc.symm.trans hp) (by simp)
  · obtain ⟨hb, hh, hf, -⟩ := h.held k hk
    exact ⟨hb, hh, hf, .inl (hquiet _ rfl rfl rfl)⟩
  · rcases List.mem_append.1 hr' with hr' | hr'
    · obtain ⟨hh, hk, ht, hd, hc⟩ := h.done r' hr'
      exact ⟨hh, hk, fun hne => absurd (hnone r' hr') hne, hd, hc⟩
    · rw [List.mem_singleton.1 hr']
      refine ⟨by rw [hhanded, hsize, hall], ?_, fun hne => ?_, ?_, ?_⟩
      · rw [hsize]
        exact h.current hpend
      · rw [hcalls] at hne
        rcases hopen with hopen | hopen
        · exact ⟨fun hnil => hne (List.append_eq_nil_iff.1 hnil).2, hopen.2⟩
        · exact absurd hopen.1 hne
      · rw [hcalls]
        exact hqueued
      · rw [hcalls, hsize]
        exact hasked
  · have hzero : c.done.countP (fun r => decide (r.calls ≠ [])) = 0 := by
      rw [List.countP_eq_zero]
      intro r' hr'
      simp [hnone r' hr']
    rw [List.countP_append, hzero, Nat.zero_add]
    exact List.countP_le_length

/-! ## What the operations do to a context -/

/-- Other contexts and the connections stay. -/
structure Only (x : ℕ) (s t : TxPool) : Prop where
  ctxs : ∀ y ≠ x, t.ctxs y = s.ctxs y
  closing : t.closing = s.closing
  deleted : t.deleted = s.deleted

theorem Only.refl (x : ℕ) (s : TxPool) : Only x s s := ⟨fun _ _ => rfl, rfl, rfl⟩

theorem Only.trans {u : TxPool} (h : Only x s t) (h' : Only x t u) : Only x s u :=
  ⟨fun y hy => (h'.ctxs y hy).trans (h.ctxs y hy), h'.closing.trans h.closing,
    h'.deleted.trans h.deleted⟩

theorem only_modifyCtx {f : TxCtx → TxCtx} : Only x s (s.modifyCtx x f) :=
  ⟨fun _ hy => modifyCtx_of_ne hy, rfl, rfl⟩

theorem only_destroy : Only x s (s.destroy x) := by
  have h : Only x s (s.modifyCtx x fun c => { c with refcount := c.refcount - 1 }) := only_modifyCtx
  rw [destroy]
  split
  · exact ⟨h.ctxs, h.closing, h.deleted⟩
  · exact h

theorem destroy_ctx :
    (s.destroy x).ctxs x = { s.ctxs x with refcount := (s.ctxs x).refcount - 1 } := by
  have h : (s.modifyCtx x fun c => { c with refcount := c.refcount - 1 }).ctxs x = _ :=
    modifyCtx_self
  rw [destroy]
  split <;> exact h

/-- A reset is sent for `x`: the calls, and what becomes of its ring. -/
structure Sends (x : ℕ) (calls : List (ResetCall × ResetRc)) (s t : TxPool) : Prop where
  only : Only x s t
  ctx : ∃ sc, t.ctxs x = { s.ctxs x with sc := sc, told := (s.ctxs x).told ++ calls } ∧
    sc.txResetPending = (s.ctxs x).sc.txResetPending ∧ sc.txReliableSize =
      (s.ctxs x).sc.txReliableSize ∧
    (s.ctxs x).sc.txBuf.head ≤ sc.txBuf.head ∧
      (calls = [] → sc.txBuf.head = (s.ctxs x).sc.txBuf.head)

theorem sends_tell {calls : List (ResetCall × ResetRc)} : Sends x calls s (s.tell x calls) :=
  ⟨only_modifyCtx, (s.ctxs x).sc, modifyCtx_self, rfl, rfl, le_rfl, fun _ => rfl⟩

theorem abandon_queued : ((s.abandon x).ctxs x).sc.txQueued = 0 := by
  rw [abandon]
  dsimp only
  split
  · have hself : ((s.modifySc x fun sc => { sc with tx := some (s.ctxs x).sc.txBuf.skip }).ctxs
      x).sc.txQueued =
        0 := by
      rw [modifySc, modifyCtx_self]
      exact StreamBuf.skip_queued
    exact hself
  · rename_i h
    rw [StreamCtx.txQueued]
    by_cases hsome : (s.ctxs x).sc.tx.isSome = true
    · have hge : ¬ (s.ctxs x).sc.txBuf.head < (s.ctxs x).sc.txBuf.tail := fun hlt => h ⟨hsome, hlt⟩
      omega
    · have hnone : (s.ctxs x).sc.tx = none := by simpa using hsome
      rw [StreamCtx.txBuf, hnone]
      rfl

theorem Sends.abandon {calls : List (ResetCall × ResetRc)} (h : Sends x calls s t)
    (hcalls : calls ≠ []) :
    Sends x calls s (t.abandon x) := by
  obtain ⟨honly, sc, hctx, hp, hs, hh, -⟩ := h
  rw [TxPool.abandon]
  dsimp only
  split
  · rename_i hlt
    have hring : Only x t
      (t.modifySc x fun sc => { sc with tx := some (t.ctxs x).sc.txBuf.skip }) := only_modifyCtx
    refine ⟨honly.trans ⟨hring.ctxs, rfl, rfl⟩, { sc with tx := some (t.ctxs x).sc.txBuf.skip }, ?_,
      hp, hs, ?_,
      fun hnil => absurd hnil hcalls⟩
    · have hself : (t.modifySc x fun sc => { sc with tx := some (t.ctxs x).sc.txBuf.skip }).ctxs x =
          { t.ctxs x with sc := { (t.ctxs x).sc with tx := some (t.ctxs x).sc.txBuf.skip } } :=
            modifyCtx_self
      refine hself.trans ?_
      rw [hctx]
    · have hle : (t.ctxs x).sc.txBuf.head = sc.txBuf.head := by rw [hctx]
      show (s.ctxs x).sc.txBuf.head ≤ (t.ctxs x).sc.txBuf.tail
      exact (hh.trans hle.ge).trans hlt.2.le
  · exact ⟨honly, sc, hctx, hp, hs, hh, fun hnil => absurd hnil hcalls⟩

theorem resetStreamReliable_ne_nil (v : ResetView) (reliable : ℕ) :
    (resetStreamReliable v reliable).1 ≠ [] := by
  rw [resetStreamReliable]
  split
  · split <;> exact List.cons_ne_nil _ _
  · exact List.cons_ne_nil _ _

theorem wtReset_ne_nil (v : ResetView) : (wtReset v).1 ≠ [] := by
  rw [wtReset]
  split <;> exact List.cons_ne_nil _ _

/-- If a reset is taken, the result says so. -/
theorem resetStreamReliable_ok {v : ResetView} {reliable : ℕ}
    (h : ∃ a ∈ (resetStreamReliable v reliable).1, a.2 = .ok) :
    (resetStreamReliable v reliable).2 = .ok := by
  revert h
  rw [resetStreamReliable]
  split
  · split
    · simp
    · rename_i hne
      rw [not_and_or, not_not, not_not] at hne
      rcases hne with hne | hne <;> simp [hne]
  · simp

theorem sends_sendReset {v : ResetView} {reliable : ℕ} :
    Sends x (resetStreamReliable v reliable).1 s (s.sendReset x v reliable) := by
  rw [sendReset]
  split
  · exact sends_tell.abandon (resetStreamReliable_ne_nil v reliable)
  · exact sends_tell

theorem sends_wtSendReset {own : Bool} {result : List (ResetCall × ResetRc) × ResetRc}
    (h : result.1 ≠ []) :
    Sends x result.1 s (s.wtSendReset x own result) := by
  rw [wtSendReset]
  split
  · exact sends_tell.abandon h
  · exact sends_tell

/-! ## The invariant -/

/-- The connection of a context is over. -/
def ended (s : TxPool) (x : ℕ) : Bool := s.closing (s.ctxs x).cnx || s.deleted (s.ctxs x).cnx

structure Inv (s : TxPool) : Prop where
  acct : s.Acct
  ctxs : ∀ x, Local (s.ctxs x) (s.deferrals x) (s.ended x)
  entries : ∀ d ∈ s.deferred, d.cnx = (s.ctxs d.sc).cnx ∧ d.isWt = (s.ctxs d.sc).isWt

theorem inv_init : Inv {} :=
  ⟨acct_init, fun _ => local_new 0 0 0 false _, fun _ h => absurd h List.not_mem_nil⟩

/-- An operation on `x` that leaves the list alone. -/
theorem Inv.change (h : Inv s) (honly : Only x s t) (hacct : t.Acct)
    (hdef : t.deferred = s.deferred)
    (hstream : (t.ctxs x).cnx = (s.ctxs x).cnx ∧ (t.ctxs x).isWt = (s.ctxs x).isWt)
    (hx : Local (t.ctxs x) (s.deferrals x) (s.ended x)) : Inv t := by
  have hsame : ∀ y, (t.ctxs y).cnx = (s.ctxs y).cnx ∧ (t.ctxs y).isWt = (s.ctxs y).isWt := by
    intro y
    by_cases hy : y = x
    · rw [hy]
      exact hstream
    · rw [honly.ctxs y hy]
      exact ⟨rfl, rfl⟩
  have hover : ∀ y, t.ended y = s.ended y := by
    intro y
    rw [ended, ended, honly.closing, honly.deleted, (hsame y).1]
  refine ⟨hacct, fun y => ?_, fun d hd => ?_⟩
  · rw [hover, deferrals, hdef]
    by_cases hy : y = x
    · rw [hy]
      exact hx
    · rw [honly.ctxs y hy]
      exact h.ctxs y
  · rw [hdef] at hd
    rw [(hsame d.sc).1, (hsame d.sc).2]
    exact h.entries d hd

theorem Inv.only (h : Inv s) (honly : Only x s t) (hmoves : Moves s t)
    (hstream : (t.ctxs x).cnx = (s.ctxs x).cnx ∧ (t.ctxs x).isWt = (s.ctxs x).isWt)
    (hx : Local (t.ctxs x) (s.deferrals x) (s.ended x)) : Inv t :=
  h.change honly (hmoves.acct h.acct) hmoves.refs.deferred hstream hx

/-- A change to fields that `Local` does not read. -/
theorem Inv.modifyCtx {f : TxCtx → TxCtx} (h : Inv s) (hmoves : Moves s (s.modifyCtx x f))
    (hstream : (f (s.ctxs x)).cnx = (s.ctxs x).cnx ∧ (f (s.ctxs x)).isWt = (s.ctxs x).isWt)
    (hf : SameLocal (s.ctxs x) (f (s.ctxs x))) : Inv (s.modifyCtx x f) := by
  refine h.only only_modifyCtx hmoves ?_ ?_
  · rw [modifyCtx_self]
    exact hstream
  · rw [modifyCtx_self]
    exact (h.ctxs x).same hf

/-! ## Writes and pulls -/

theorem Inv.send (h : Inv s) (hx : x ∈ s.live) (data : List UInt8) (capacity : UInt32)
    (setFin hash : Bool) :
    Inv (s.send x data capacity setFin hash) := by
  have hmoves := moves_send hx data capacity setFin hash
  revert hmoves
  rw [TxPool.send]
  generalize data.take (data.length % 2 ^ 32) = data
  obtain ⟨-, hwrote, -⟩ := StreamCtx.exec_sendData (h.acct.wf x hx) data capacity setFin hash
  revert hwrote
  generalize (StreamCtx.sendData data capacity setFin hash).exec (s.ctxs x).sc = sent
  intro hwrote
  have honly : Only x s (s.modifySc x fun _ => sent.2) := only_modifyCtx
  have hctx : (s.modifySc x fun _ => sent.2).ctxs x = { s.ctxs x with sc := sent.2 } :=
    modifyCtx_self
  have hsame : SameLocal (s.ctxs x) { s.ctxs x with sc := sent.2 } :=
    ⟨⟨hwrote.pending, hwrote.size, hwrote.head⟩, ⟨rfl, rfl, rfl⟩, rfl, rfl, rfl, rfl⟩
  have hlocal := (h.ctxs x).same hsame
  split
  all_goals
    intro hmoves
    refine h.only ⟨honly.ctxs, rfl, rfl⟩ hmoves ?_ ?_
    · show ((s.modifySc x fun _ => sent.2).ctxs x).cnx = _ ∧
        ((s.modifySc x fun _ => sent.2).ctxs x).isWt = _
      rw [hctx]
      exact ⟨rfl, rfl⟩
    · show Local ((s.modifySc x fun _ => sent.2).ctxs x) _ _
      rw [hctx]
      exact hlocal

theorem Inv.signalDrained (h : Inv s) (pushes : Bool) : Inv (s.signalDrained x pushes) := by
  have hmoves := moves_signalDrained s x pushes
  revert hmoves
  rw [TxPool.signalDrained]
  dsimp only
  split
  · intro hmoves
    have hflag : Moves s (s.modifySc x fun sc => { sc with txDrainPending := false }) :=
      moves_modifyCtx (fun _ => rfl) fun _ => rfl
    have hinv := h.modifyCtx hflag ⟨rfl, rfl⟩ ⟨⟨rfl, rfl, rfl⟩, ⟨rfl, rfl, rfl⟩, rfl, rfl, rfl, rfl⟩
    exact ⟨hmoves.acct h.acct, hinv.ctxs, hinv.entries⟩
  · exact fun _ => h

/-- What picoquic asks for: bytes of a stream that it was not told to reset, on an open
connection. -/
structure Asks (s : TxPool) (x : ℕ) : Prop where
  told : (s.ctxs x).told = []
  open_ : s.ended x = false

theorem Inv.hand (h : Inv s) (hasks : Asks s x) {f : Frame} (hnil : f.bytes = [])
    (hfin : f.isFin = true → ¬ Quiet (s.ctxs x) (s.ended x) ∧ (s.ctxs x).sc.txResetPending =
    false) :
    Inv (s.hand x f) := by
  have hctx : (s.hand x f).ctxs x = { s.ctxs x with frames := (s.ctxs x).frames ++ [f] } :=
    modifyCtx_self
  have hx := h.ctxs x
  refine h.only only_modifyCtx (moves_hand s x f) ?_ ?_
  · rw [hctx]
    exact ⟨rfl, rfl⟩
  · rw [hctx]
    refine hx.pull hasks.told ⟨rfl, rfl⟩ (by rw [hnil]; rfl) (fun hpend => ⟨hx.below hpend, ?_⟩) ?_
    · by_contra hne
      have := (hfin (by simpa using hne)).2
      exact absurd (this.symm.trans hpend) (by simp)
    · by_cases hf : f.isFin = true
      · exact .inr (hfin hf).1
      · exact .inl ⟨hnil, by simpa using hf⟩

/-- Picoquic gives a buffer for the bytes of a pull. -/
theorem Inv.take (h : Inv s) (hx : x ∈ s.live) (hasks : Asks s x) {b : StreamBuf} {out : List UInt8}
    {toSend : ℕ}
    {fin : Bool} (htook : StreamBuf.TookOut (s.ctxs x).sc.txBuf toSend out b)
    (hlen : out.length = toSend)
    (hsize : (s.ctxs x).sc.txResetPending = true →
      (s.ctxs x).sc.txBuf.head + toSend ≤ (s.ctxs x).sc.txReliableSize ∧ fin = false)
    (hquiet : ¬ Quiet (s.ctxs x) (s.ended x)) :
    Inv (({ s.modifySc x fun sc => { sc with tx := some b } with pulled := s.pulled + toSend } :
    TxPool).hand x
      ⟨StreamBuf.fillBuffer toSend out, fin⟩) := by
  have hle : toSend ≤ (s.ctxs x).sc.txQueued := by
    have := htook.length
    rw [StreamCtx.txQueued]
    omega
  have hmoves : Moves s
    { s.modifySc x fun sc => { sc with tx := some b } with pulled := s.pulled + toSend } := by
    refine moves_tx (p := 0) (d := 0) hx fun _ => ⟨htook.wf, ?_⟩
    rw [htook.tail, htook.head, hlen]
    unfold StreamCtx.txQueued at hle ⊢
    omega
  have hctx : (({ s.modifySc x fun sc => { sc with tx := some b } with pulled := s.pulled + toSend } : TxPool).hand x
      ⟨StreamBuf.fillBuffer toSend out, fin⟩).ctxs x =
      { s.ctxs x with
        sc := { (s.ctxs x).sc with tx := some b }
        frames := (s.ctxs x).frames ++ [⟨StreamBuf.fillBuffer toSend out, fin⟩] } := by
    refine modifyCtx_self.trans ?_
    have hself : (s.modifySc x fun sc => { sc with tx := some b }).ctxs x =
      { s.ctxs x with sc := { (s.ctxs x).sc with tx := some b } } := modifyCtx_self
    dsimp only
    rw [hself]
  have hring : Only x s (s.modifySc x fun sc => { sc with tx := some b }) := only_modifyCtx
  have honly : Only x s
    { s.modifySc x fun sc => { sc with tx := some b } with pulled := s.pulled + toSend } :=
    ⟨hring.ctxs, rfl, rfl⟩
  refine h.only (honly.trans only_modifyCtx) (hmoves.trans (moves_hand _ x _)) ?_ ?_
  · rw [hctx]
    exact ⟨rfl, rfl⟩
  · rw [hctx]
    have hhead : b.head = (s.ctxs x).sc.txBuf.head + toSend := by rw [htook.head, hlen]
    rw [StreamBuf.fillBuffer_eq hlen]
    refine (h.ctxs x).pull hasks.told ⟨rfl, rfl⟩ ?_ (fun hpend => ⟨?_, (hsize hpend).2⟩)
      (.inr hquiet)
    · show b.head = (s.ctxs x).sc.txBuf.head + out.length
      rw [hhead, hlen]
    · show b.head ≤ (s.ctxs x).sc.txReliableSize
      rw [hhead]
      exact (hsize hpend).1

theorem Inv.pull (h : Inv s) (hx : x ∈ s.live) (hasks : Asks s x) (length : ℕ)
    (buffer pushes : Bool) :
    Inv (s.pull x length buffer pushes) := by
  have hwf := h.acct.wf x hx
  have hlocal := h.ctxs x
  rw [TxPool.pull]
  dsimp only
  split
  · exact h.hand hasks rfl (by simp)
  rename_i hopen
  rw [not_or] at hopen
  have hquiet : ¬ Quiet (s.ctxs x) (s.ended x) := by
    rintro (hq | hq | hq)
    · exact hq hasks.told
    · exact absurd (hq.symm.trans hasks.open_) (by simp)
    · exact hopen.1 hq
  refine Inv.signalDrained ?_ pushes
  have hle : min (sendable (s.ctxs x).sc) (length % 2 ^ 32) ≤ sendable (s.ctxs x).sc :=
    min_le_left _ _
  revert hle
  generalize min (sendable (s.ctxs x).sc) (length % 2 ^ 32) = toSend
  intro hle
  have hqueued := hle.trans (sendable_le hwf)
  have hkeeps : (s.ctxs x).sc.txResetPending = true →
      (s.ctxs x).sc.txBuf.head + toSend ≤ (s.ctxs x).sc.txReliableSize := by
    intro hpend
    rw [sendable_eq hwf, if_pos hpend] at hle
    have := hlocal.below hpend
    omega
  have hfin : (s.ctxs x).sc.txResetPending = true →
      ((s.ctxs x).sc.txBuf.finPending && !(s.ctxs x).sc.txResetPending &&
        toSend == (StreamBuf.used.exec (s.ctxs x).sc.txBuf).1) = false := by
    intro hpend
    rw [hpend]
    simp
  have htook := StreamBuf.exec_pop hwf toSend
  revert htook hfin
  generalize ((s.ctxs x).sc.txBuf.finPending && !(s.ctxs x).sc.txResetPending &&
    toSend == (StreamBuf.used.exec (s.ctxs x).sc.txBuf).1) = fin
  generalize (StreamBuf.pop toSend).exec (s.ctxs x).sc.txBuf = popped
  intro hfin htook
  split
  · split
    · refine h.take hx hasks htook ?_ (fun hpend => ⟨hkeeps hpend, hfin hpend⟩) hquiet
      rw [htook.length]
      exact min_eq_left hqueued
    · exact h
  · refine h.hand hasks rfl fun hf => ⟨hquiet, ?_⟩
    by_contra hne
    exact absurd (hf.symm.trans (hfin (by simpa using hne))) (by simp)

/-! ## Resets -/

theorem Inv.sends (h : Inv s) (hmoves : Moves s t) {calls : List (ResetCall × ResetRc)}
    (hs : Sends x calls s t)
    (hcalls : calls ≠ []) (hpend : (s.ctxs x).sc.txResetPending = false) : Inv t := by
  obtain ⟨honly, sc, hctx, hp, -, hhead, -⟩ := hs
  refine h.only honly hmoves ?_ ?_
  · rw [hctx]
    exact ⟨rfl, rfl⟩
  · rw [hctx]
    exact (h.ctxs x).tell hpend hcalls (hp.trans hpend) hhead

theorem Inv.deferReset (h : Inv s) (hx : x ∈ s.live) (hpend : (s.ctxs x).sc.txResetPending = false)
    {reliable : ℕ} (hlt : (s.ctxs x).sc.txBuf.head < reliable) (preamble : ℕ) :
    Inv (s.deferReset x reliable preamble) := by
  have hctx : (s.deferReset x reliable preamble).ctxs x =
      { s.ctxs x with
        refcount := (s.ctxs x).refcount + 1
        sc := { (s.ctxs x).sc with txResetPending := true, txReliableSize := reliable }
        held := (s.ctxs x).held ++ [⟨reliable, (s.ctxs x).frames.length⟩] } := by
    have hself : (s.ref x).ctxs x = { s.ctxs x with refcount := (s.ctxs x).refcount + 1 } :=
      modifyCtx_self
    rw [TxPool.deferReset]
    dsimp only
    rw [modifyCtx_self, hself]
  have hne : ∀ y ≠ x, (s.deferReset x reliable preamble).ctxs y = s.ctxs y := by
    intro y hy
    have hother : (s.ref x).ctxs y = s.ctxs y := modifyCtx_of_ne hy
    rw [TxPool.deferReset]
    dsimp only
    rw [modifyCtx_of_ne hy, hother]
  have hsame : ∀ y, ((s.deferReset x reliable preamble).ctxs y).cnx = (s.ctxs y).cnx ∧
      ((s.deferReset x reliable preamble).ctxs y).isWt = (s.ctxs y).isWt := by
    intro y
    by_cases hy : y = x
    · rw [hy, hctx]
      exact ⟨rfl, rfl⟩
    · rw [hne y hy]
      exact ⟨rfl, rfl⟩
  have hended : ∀ y, (s.deferReset x reliable preamble).ended y = s.ended y := by
    intro y
    rw [ended, ended, (hsame y).1]
    rfl
  refine ⟨h.acct.deferReset hx reliable preamble, fun y => ?_, fun d hd => ?_⟩
  · have hcount : (s.deferReset x reliable preamble).deferrals y = s.deferrals y + if x = y then 1
      else 0 := by
      show List.count y (x :: s.deferred.map (·.sc)) = _
      rw [List.count_cons]
      simp [deferrals]
    rw [hcount, hended]
    by_cases hy : y = x
    · subst hy
      rw [hctx, if_pos rfl]
      exact ((h.ctxs y).defer hpend hlt).same ⟨⟨rfl, rfl, rfl⟩, ⟨rfl, rfl, rfl⟩, rfl, rfl, rfl, rfl⟩
    · rw [hne y hy, if_neg (fun heq => hy heq.symm)]
      exact h.ctxs y
  · rw [(hsame d.sc).1, (hsame d.sc).2]
    rcases List.mem_cons.1 hd with rfl | hd
    · exact ⟨rfl, rfl⟩
    · exact h.entries d hd

theorem Inv.streamReset (h : Inv s) (hx : x ∈ s.live) (requested : ℕ) (v : ResetView) :
    Inv (s.streamReset x requested v) := by
  rw [TxPool.streamReset]
  split
  · exact h
  rename_i hpend
  have hpend : (s.ctxs x).sc.txResetPending = false := by simpa using hpend
  split
  · exact h
  · split
    · rename_i hdef
      exact h.deferReset hx hpend hdef.2.1 0
    · exact h.sends (moves_sendReset hx v _) sends_sendReset (resetStreamReliable_ne_nil v _) hpend

theorem Inv.wtResetStream (h : Inv s) (hx : x ∈ s.live ∨ (s.ctxs x).linked = false) (requested : ℕ)
    (v : ResetView) : Inv (s.wtResetStream x requested v) := by
  rw [TxPool.wtResetStream]
  generalize (if (s.ctxs x).linked = true then resetReliableSize v (s.ctxs x).sc requested else 0) =
    reliable
  split
  · exact h
  rename_i hopen
  have hlinked : (s.ctxs x).linked = true := by
    rw [(h.ctxs x).tracked]
    by_contra hne
    exact hopen (.inr (.inl (by simpa using hne)))
  have hx : x ∈ s.live := hx.resolve_right (by simp [hlinked])
  split
  · exact h
  rename_i hpend
  have hpend : (s.ctxs x).sc.txResetPending = false := by
    by_contra hne
    exact hpend ⟨hlinked, by simpa using hne⟩
  split
  · exact h.sends (moves_wtSendReset (fun _ => hx) _) (sends_wtSendReset (wtReset_ne_nil v))
      (wtReset_ne_nil v) hpend
  · split
    · rename_i hdef
      exact h.deferReset hx hpend hdef.1 v.preamble
    · exact h.sends (moves_wtSendReset (fun _ => hx) _)
        (sends_wtSendReset (resetStreamReliable_ne_nil v _))
        (resetStreamReliable_ne_nil v _) hpend

/-! ## The list -/

/-- An entry leaves the list. -/
theorem Inv.removed {d : Deferred} (h : Inv s) (hd : d ∈ s.deferred) (hacct : t.Acct)
    (honly : Only d.sc s t)
    (hdef : t.deferred = s.deferred.erase d)
    (hstream : (t.ctxs d.sc).cnx = (s.ctxs d.sc).cnx ∧ (t.ctxs d.sc).isWt = (s.ctxs d.sc).isWt)
    (hx : ∀ n, Local (s.ctxs d.sc) (n + 1) (s.ended d.sc) → Local (t.ctxs d.sc) n (s.ended d.sc)) :
    Inv t := by
  have hsame : ∀ y, (t.ctxs y).cnx = (s.ctxs y).cnx ∧ (t.ctxs y).isWt = (s.ctxs y).isWt := by
    intro y
    by_cases hy : y = d.sc
    · rw [hy]
      exact hstream
    · rw [honly.ctxs y hy]
      exact ⟨rfl, rfl⟩
  refine ⟨hacct, fun y => ?_, fun e he => ?_⟩
  · have hcount := deferrals_erase hd y
    have hlocal := h.ctxs y
    rw [deferrals, hdef, ended, honly.closing, honly.deleted, (hsame y).1]
    rw [← hcount] at hlocal
    by_cases hy : y = d.sc
    · subst hy
      rw [if_pos rfl] at hlocal
      exact hx _ hlocal
    · rw [if_neg (fun heq => hy heq.symm)] at hlocal
      rw [honly.ctxs y hy]
      exact hlocal
  · rw [hdef] at he
    rw [(hsame e.sc).1, (hsame e.sc).2]
    exact h.entries e (List.mem_of_mem_erase he)

theorem deferredResetFree_ctx (t : TxPool) (d : Deferred) : (t.deferredResetFree d).ctxs d.sc =
    { t.ctxs d.sc with
      sc := { (t.ctxs d.sc).sc with txResetPending := false }
      refcount := (t.ctxs d.sc).refcount - 1 } := by
  rw [deferredResetFree, destroy_ctx, modifySc, modifyCtx_self]

theorem only_deferredResetFree (t : TxPool) (d : Deferred) :
    Only d.sc t (t.deferredResetFree d) := by
  have hflag : Only d.sc t (t.modifySc d.sc fun sc => { sc with txResetPending := false }) :=
    only_modifyCtx
  exact hflag.trans only_destroy

/-- What taking an entry off the list does to its context, up to the fall of the flag. -/
structure Taken (d : Deferred) (s t : TxPool) (calls : List (ResetCall × ResetRc)) : Prop where
  only : Only d.sc s t
  ctx : ∃ sc, t.ctxs d.sc = { s.ctxs d.sc with sc := sc, told := (s.ctxs d.sc).told ++ calls } ∧
    sc.txReliableSize = (s.ctxs d.sc).sc.txReliableSize ∧
    (s.ctxs d.sc).sc.txBuf.head ≤ sc.txBuf.head ∧
      (calls = [] → sc.txBuf.head = (s.ctxs d.sc).sc.txBuf.head)
  quiet : (calls ≠ [] ∧ s.deleted d.cnx = false ∧ s.closing d.cnx = false) ∨ calls = [] ∧
    (s.closing d.cnx = true ∨ s.deleted d.cnx = true ∨ d.isWt = true ∧
      (s.ctxs d.sc).tracked = false)
  queued : (∃ a ∈ calls, a.2 = .ok) → (t.ctxs d.sc).sc.txQueued = 0
  asked : calls = [] ∨ ∃ v header,
    calls = (resetStreamReliable v (header + (s.ctxs d.sc).sc.txReliableSize)).1

theorem taken_sendDeferred {d : Deferred} (hcnx : d.cnx = (s.ctxs d.sc).cnx) (v : ResetView) :
    ∃ calls, Taken d s (s.sendDeferred d v) calls := by
  rw [sendDeferred]
  split
  · rename_i hopen
    have hflag : (s.modifySc d.sc fun sc => { sc with txResetPending := false }).ctxs d.sc =
      { s.ctxs d.sc with sc := { (s.ctxs d.sc).sc with txResetPending := false } } := modifyCtx_self
    have honly : Only d.sc s (s.modifySc d.sc fun sc => { sc with txResetPending := false }) :=
      only_modifyCtx
    have hsent : ∀ {calls u},
      Sends d.sc calls (s.modifySc d.sc fun sc => { sc with txResetPending := false }) u →
        calls ≠ [] → ((∃ a ∈ calls, a.2 = .ok) → (u.ctxs d.sc).sc.txQueued = 0) →
        (∃ v header, calls = (resetStreamReliable v (header + (s.ctxs d.sc).sc.txReliableSize)).1) →
        Taken d s u calls := by
      rintro calls u ⟨ho, sc, hctx, -, hs, hh, hnil⟩ hne hq hasked
      rw [hflag] at hctx hs hh hnil
      exact ⟨honly.trans ho, ⟨sc, hctx, hs, hh, hnil⟩, .inl ⟨hne, hopen⟩, hq, .inr hasked⟩
    dsimp only
    split
    · rename_i hwt
      rw [wtDeferredReset]
      split
      · rename_i htracked
        rw [hflag] at htracked
        refine ⟨[], honly,
          ⟨{ (s.ctxs d.sc).sc with txResetPending := false }, hflag.trans ?_, rfl, le_rfl,
          fun _ => rfl⟩, .inr ⟨rfl, .inr (.inr ⟨hwt, htracked⟩)⟩, ?_, .inl rfl⟩
        · rw [List.append_nil]
        · rintro ⟨_, ha, _⟩
          exact absurd ha List.not_mem_nil
      · rw [hflag]
        refine ⟨_, hsent (sends_wtSendReset (resetStreamReliable_ne_nil v _))
          (resetStreamReliable_ne_nil v _)
          (fun hok => ?_) ⟨v, d.preamble, rfl⟩⟩
        rw [wtSendReset, if_pos ⟨resetStreamReliable_ok hok, rfl⟩]
        exact abandon_queued
    · rw [hflag]
      refine ⟨_, hsent sends_sendReset (resetStreamReliable_ne_nil v _) (fun hok => ?_)
        ⟨v, 0, by rw [Nat.zero_add]⟩⟩
      have hrc := resetStreamReliable_ok hok
      have hreattach : (s.modifySc d.sc fun sc => { sc with txResetPending := false }).Reattaches
        d.sc
          (resetStreamReliable v (s.ctxs d.sc).sc.txReliableSize).2 := by
        refine ⟨by rw [hrc]; exact ResetRc.noConfusion, ?_⟩
        rw [hflag]
        show s.closing (s.ctxs d.sc).cnx = false
        rw [← hcnx]
        exact hopen.2
      rw [sendReset, if_pos hreattach]
      exact abandon_queued
  · rename_i hclosed
    refine ⟨[], .refl _ _, ⟨(s.ctxs d.sc).sc, ?_, rfl, le_rfl, fun _ => rfl⟩, .inr ⟨rfl, ?_⟩,
      ?_, .inl rfl⟩
    · rw [List.append_nil]
    · rw [not_and_or] at hclosed
      rcases hclosed with hc | hc
      · exact .inr (.inl (by simpa using hc))
      · exact .inl (by simpa using hc)
    · rintro ⟨_, ha, _⟩
      exact absurd ha List.not_mem_nil

theorem Inv.runDeferred {d : Deferred} (h : Inv s) (hd : d ∈ s.deferred) (sweep : Bool)
    (v : ResetView) :
    Inv (s.runDeferred sweep d v) := by
  have hacct := h.acct.runDeferred hd sweep v
  revert hacct
  rw [TxPool.runDeferred]
  split
  · exact fun _ => h
  split
  · exact fun _ => h
  rename_i hgone
  dsimp only
  obtain ⟨hcnx, hwt⟩ := h.entries d hd
  obtain ⟨calls, honly, ⟨sc, hctx, hsize, hhead, hnil⟩, hquiet, hqueued, hasked⟩ :=
    taken_sendDeferred (s := { s with deferred := s.deferred.erase d }) hcnx v
  have hmoves : Moves { s with deferred := s.deferred.erase d }
      (({ s with deferred := s.deferred.erase d } : TxPool).sendDeferred d v) :=
    moves_sendDeferred (s := { s with deferred := s.deferred.erase d }) (h.acct.listed d hd) v
  have hdef := hmoves.refs.deferred
  revert hctx
  revert honly hqueued hdef
  generalize (({ s with deferred := s.deferred.erase d } : TxPool).sendDeferred d v) = t
  intro honly hqueued hdef hctx hacct
  have hends : (calls ≠ [] ∧ s.closing d.cnx = false) ∨ calls = [] ∧
    Quiet (s.ctxs d.sc) (s.ended d.sc) := by
    refine hquiet.imp (And.imp_right And.right) (And.imp_right ?_)
    rintro (hc | hc | ⟨hw, ht⟩)
    · have hc : s.closing d.cnx = true := hc
      rw [hcnx] at hc
      exact .inr (.inl (by rw [ended, hc, Bool.true_or]))
    · have hc : s.deleted d.cnx = true := hc
      rw [hcnx] at hc
      exact .inr (.inl (by rw [ended, hc, Bool.or_true]))
    · exact .inr (.inr ⟨hwt.symm.trans hw, (h.ctxs d.sc).tracked.trans ht⟩)
  have honly : Only d.sc s t := ⟨honly.ctxs, honly.closing, honly.deleted⟩
  split at hacct
  · rename_i hready
    rw [if_pos hready]
    have hrecord : (s.record t d).ctxs d.sc =
        { s.ctxs d.sc with
          sc := sc
          told := (s.ctxs d.sc).told ++ calls
          done := (s.ctxs d.sc).done ++ [⟨(s.ctxs d.sc).sc.txReliableSize, (s.ctxs d.sc).handed,
            (s.ctxs d.sc).cleaned, s.closing d.cnx, calls, sc.txQueued⟩] } := by
      rw [record]
      refine modifyCtx_self.trans ?_
      rw [hctx]
      dsimp only
      rw [List.drop_left]
    have honly' : Only d.sc t (s.record t d) := by
      rw [record]
      exact only_modifyCtx
    rw [hctx] at hqueued
    refine h.removed hd hacct (honly.trans (honly'.trans (only_deferredResetFree _ d))) ?_ ?_
      fun n hlocal => ?_
    · rw [deferredResetFree, destroy_deferred]
      exact (moves_record s t d).refs.deferred.trans hdef
    · rw [deferredResetFree_ctx, hrecord]
      exact ⟨rfl, rfl⟩
    · rw [deferredResetFree_ctx, hrecord]
      have hfinish := hlocal.finish hready
        (rfl : StreamCtx.txResetPending { sc with txResetPending := false } = _)
        hhead hnil (r := ⟨(s.ctxs d.sc).sc.txReliableSize, (s.ctxs d.sc).handed,
          (s.ctxs d.sc).cleaned,
          s.closing d.cnx, calls, sc.txQueued⟩) rfl rfl rfl hends hqueued hasked
      exact hfinish.same ⟨⟨rfl, rfl, rfl⟩, ⟨rfl, rfl, rfl⟩, rfl, rfl, rfl, rfl⟩
  · rename_i hready
    rw [if_neg hready]
    -- only a connection that is gone loses an entry that waits
    have hdeleted : s.deleted d.cnx = true := by
      by_contra hne
      exact hgone ⟨by simpa using hne, hready⟩
    have hcalls : calls = [] :=
      hquiet.elim (fun hq => absurd (hq.2.1.symm.trans hdeleted) (by simp)) And.left
    subst hcalls
    have hended : s.ended d.sc = true := by
      rw [ended, ← hcnx, hdeleted, Bool.or_true]
    refine h.removed hd hacct (honly.trans (only_deferredResetFree _ d)) ?_ ?_ fun n hlocal => ?_
    · rw [deferredResetFree, destroy_deferred]
      exact hdef
    · rw [deferredResetFree_ctx, hctx]
      exact ⟨rfl, rfl⟩
    · rw [deferredResetFree_ctx, hctx]
      refine (hlocal.drop (.inr (.inl hended))).same
        ⟨⟨rfl, hsize, hnil rfl⟩, ⟨rfl, rfl, rfl⟩, rfl, rfl, ?_, rfl⟩
      exact List.append_nil _

/-- The close of a connection drops its entries. -/
theorem Inv.dropCnx {cnx : ℕ} {l : List Deferred} : Inv s → l.Subperm s.deferred →
    s.closing cnx = true →
    Inv (l.foldl (dropDeferred cnx) s) := by
  induction l generalizing s with
  | nil => exact fun h _ _ => h
  | cons d l ih =>
    intro h hl hclosing
    have hd : d ∈ s.deferred := hl.subset List.mem_cons_self
    have hacct := Acct.dropCnx (l := [d]) cnx h.acct (List.singleton_subperm_iff.2 hd)
    rw [List.foldl_cons]
    rw [List.foldl_cons, List.foldl_nil] at hacct
    revert hacct
    rw [dropDeferred]
    split
    · rename_i hcnx
      intro hacct
      have hctx := deferredResetFree_ctx { s with deferred := s.deferred.erase d } d
      have honly : Only d.sc s { s with deferred := s.deferred.erase d } :=
        ⟨fun _ _ => rfl, rfl, rfl⟩
      have honly := honly.trans (only_deferredResetFree _ d)
      have hended : s.ended d.sc = true := by
        rw [ended, ← (h.entries d hd).1, hcnx, hclosing, Bool.true_or]
      have hdef : (({ s with deferred := s.deferred.erase d } : TxPool).deferredResetFree
        d).deferred =
          s.deferred.erase d := by
        rw [deferredResetFree, destroy_deferred]
        rfl
      refine ih (h.removed hd hacct honly hdef ?_ fun n hlocal => ?_) ?_ ?_
      · rw [hctx]
        exact ⟨rfl, rfl⟩
      · rw [hctx]
        exact (hlocal.drop (.inr (.inl hended))).same
          ⟨⟨rfl, rfl, rfl⟩, ⟨rfl, rfl, rfl⟩, rfl, rfl, rfl, rfl⟩
      · rw [hdef]
        have herase := hl.erase d
        rwa [List.erase_cons_head] at herase
      · rw [honly.closing]
        exact hclosing
    · exact fun _ => ih h ((List.sublist_cons_self d l).subperm.trans hl) hclosing

end TxPool

end Aiopquic
