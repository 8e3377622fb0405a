import Aiopquic.TxPool
import Mathlib.Algebra.BigOperators.Group.List.Lemmas

/-!
# The process-wide byte counters

`queued = pushed - pulled - discarded` gates every producer of the process. Bytes are discarded at
two places, when a reset abandons a queue and when the last reference goes, and each credits what is
in the ring at that moment.
-/

namespace Aiopquic

open Interleave Interleave.Prog Circular

/-! ## Ring operations in one piece -/

namespace StreamBuf

variable {b : StreamBuf}

theorem exec_used (h : b.Wf) : (used.exec b).1 = b.tail - b.head := diff32_eq h.head_le h.diff_lt

theorem Wf.skip (h : b.Wf) : b.skip.Wf := by
  have hadv := h.window.advance (n := b.tail - b.head) (by have := h.head_le; omega)
  rw [Nat.add_sub_cancel' h.head_le] at hadv
  exact ⟨hadv, h.length⟩

theorem skip_queued : b.skip.tail - b.skip.head = 0 := Nat.sub_self _

/-- A pop takes what it asks for, or all there is. -/
structure TookOut (b : StreamBuf) (n : ℕ) (out : List UInt8) (b' : StreamBuf) : Prop where
  wf : b'.Wf
  length : out.length = min n (b.tail - b.head)
  head : b'.head = b.head + out.length
  tail : b'.tail = b.tail
  fin : b'.finPending = b.finPending

theorem exec_pop (h : b.Wf) (n : ℕ) : TookOut b n ((pop n).exec b).1 ((pop n).exec b).2 := by
  have hspec := pop_spec (n := n) h
  obtain ⟨hpop, hwf⟩ := wp_exec hspec h fun _ => trivial
  have hmoves := wp_exec_rel hspec h (fun _ => trivial) ConsumerMoves.refl .trans fun hstep =>
    ConsumerStep.moves hstep
  obtain ⟨t, hle, hge, hlen⟩ := hpop.length
  refine ⟨hwf, ?_, hpop.head, hmoves.tail, hmoves.fin⟩
  rw [hmoves.tail] at hge
  rw [hlen, le_antisymm hge hle]

end StreamBuf

namespace StreamCtx

variable {sc : StreamCtx}

theorem txQueued_of_tx {b : StreamBuf} (h : sc.tx = some b) : sc.txQueued = b.tail - b.head := by
  rw [txQueued, txBuf, h, Option.getD_some]

/-- What a write leaves alone, and what it adds. -/
structure Wrote (sc sc' : StreamCtx) : Prop where
  head : sc'.txBuf.head = sc.txBuf.head
  tail_le : sc.txBuf.tail ≤ sc'.txBuf.tail
  pending : sc'.txResetPending = sc.txResetPending
  size : sc'.txReliableSize = sc.txReliableSize

theorem Wrote.refl (sc : StreamCtx) : Wrote sc sc := ⟨rfl, le_rfl, rfl, rfl⟩

theorem Wrote.trans {a b c : StreamCtx} (h : Wrote a b) (h' : Wrote b c) : Wrote a c :=
  ⟨h'.head.trans h.head, h.tail_le.trans h'.tail_le, h'.pending.trans h.pending,
    h'.size.trans h.size⟩

theorem SendStep.wrote {P : StreamBuf → List UInt8 → Prop} {F : StreamBuf → Prop} {sc' : StreamCtx}
    (h : SendStep P F sc sc') : Wrote sc sc' := by
  cases h with
  | stay => exact .refl sc
  | create capacity hash h =>
    have hbuf : sc.txBuf = noBuf := by rw [txBuf, h]; rfl
    exact ⟨by rw [hbuf]; rfl, by rw [hbuf]; exact le_rfl, rfl, rfl⟩
  | push b h hs =>
    refine ⟨hs.moves.head, ?_, rfl, rfl⟩
    show sc.txBuf.tail ≤ b.tail
    cases hs with
    | stay | copy _ _ | hash _ => exact le_rfl
    | publish data h => exact Nat.le_add_right _ _
  | fin h hF => exact ⟨rfl, le_rfl, rfl, rfl⟩
  | arm => exact ⟨rfl, le_rfl, rfl, rfl⟩

/-- A write adds its bytes if it returns `1`, and none otherwise. -/
theorem exec_sendData (h : sc.TxWf) (data : List UInt8) (capacity : UInt32) (setFin hash : Bool) :
    let r := (sendData data capacity setFin hash).exec sc
    r.2.TxWf ∧ Wrote sc r.2 ∧ r.2.txQueued = sc.txQueued + if r.1 = 1 then data.length else 0 := by
  intro r
  have hspec : wp (sender (fun _ _ => True) fun _ => True) (sendData data capacity setFin hash)
      (Sent sc.txWrites sc.txBuf.finPending data setFin) sc :=
    sendData_spec (fun _ _ _ => trivial) fun _ _ _ _ => trivial
  obtain ⟨hsent, hwf⟩ := wp_exec hspec h fun _ => trivial
  have hwrote := wp_exec_rel hspec h (fun _ => trivial) Wrote.refl .trans fun hstep =>
    SendStep.wrote hstep
  have htail : ∀ {l : List (List UInt8)}, r.2.txWrites = l → r.2.txBuf.tail = l.flatten.length := by
    rintro l rfl
    exact (StreamBuf.Wf.length hwf).symm
  have htail₀ : sc.txBuf.tail = sc.txWrites.flatten.length := (StreamBuf.Wf.length h).symm
  have hle := StreamBuf.Wf.head_le h
  refine ⟨hwf, hwrote, ?_⟩
  rw [txQueued, txQueued, hwrote.head]
  by_cases hrc : r.1 = 1
  · have hchunk : (sc.txWrites ++ chunk data).flatten.length = sc.txBuf.tail + data.length := by
      rw [List.flatten_append, List.length_append, ← htail₀, chunk]
      split
      · rename_i hnil
        simp [hnil]
      · simp
    rw [if_pos hrc, htail (hsent.accepted hrc).writes, hchunk]
    omega
  · rw [if_neg hrc, htail (hsent.refused hrc).writes, ← htail₀]
    omega

end StreamCtx

namespace TxPool

variable {s t : TxPool} {x : ℕ} {f : TxCtx → TxCtx}

theorem sendable_eq {sc : StreamCtx} (h : sc.TxWf) : sendable sc =
    if sc.txResetPending then min (sc.txReliableSize - sc.txBuf.head) sc.txQueued
    else sc.txQueued := by
  have hused := StreamBuf.exec_used h
  rw [sendable, hused]
  cases hp : sc.txResetPending <;>
    simp [StreamCtx.txSendable, load, rmw, exec, hp, StreamCtx.txQueued]

/-! ## The invariant -/

/-- The bytes in the rings of the live contexts. -/
def queued (s : TxPool) : ℕ := (s.live.map fun x => (s.ctxs x).sc.txQueued).sum

/-- The counters agree with the rings, and what the deferred resets refer to is live. -/
structure Acct (s : TxPool) : Prop where
  nodup : s.live.Nodup
  made : ∀ x ∈ s.live, x < s.made
  wf : ∀ x ∈ s.live, (s.ctxs x).sc.TxWf
  listed : ∀ d ∈ s.deferred, d.sc ∈ s.live
  refs : ∀ x ∈ s.live, s.deferrals x ≤ (s.ctxs x).refcount
  bytes : s.pushed = s.pulled + s.discarded + s.queued

theorem queued_modifyCtx (hnodup : s.live.Nodup) (hx : x ∈ s.live) :
    (s.modifyCtx x f).queued + (s.ctxs x).sc.txQueued = s.queued + (f (s.ctxs x)).sc.txQueued := by
  have hrest : (s.live.erase x).map (fun y => ((s.modifyCtx x f).ctxs y).sc.txQueued) =
      (s.live.erase x).map fun y => (s.ctxs y).sc.txQueued := by
    apply List.map_congr_left
    intro y hy
    rw [modifyCtx_of_ne ((List.Nodup.mem_erase_iff hnodup).1 hy).1]
  have hnew := List.sum_map_erase (fun y => ((s.modifyCtx x f).ctxs y).sc.txQueued) hx
  have hold := List.sum_map_erase (fun y => (s.ctxs y).sc.txQueued) hx
  rw [hrest] at hnew
  have hlive : (s.modifyCtx x f).queued =
    (s.live.map fun y => ((s.modifyCtx x f).ctxs y).sc.txQueued).sum := rfl
  rw [hlive, ← hnew, modifyCtx_self, queued, ← hold]
  omega

/-- Nothing of the references changes. -/
structure SameRefs (s t : TxPool) : Prop where
  live : t.live = s.live
  made : t.made = s.made
  deferred : t.deferred = s.deferred
  refcount : ∀ y, (t.ctxs y).refcount = (s.ctxs y).refcount

theorem SameRefs.refl (s : TxPool) : SameRefs s s := ⟨rfl, rfl, rfl, fun _ => rfl⟩

theorem SameRefs.trans {u : TxPool} (h : SameRefs s t) (h' : SameRefs t u) : SameRefs s u :=
  ⟨h'.live.trans h.live, h'.made.trans h.made, h'.deferred.trans h.deferred,
    fun y => (h'.refcount y).trans (h.refcount y)⟩

theorem sameRefs_modifyCtx (hf : ∀ c, (f c).refcount = c.refcount) :
    SameRefs s (s.modifyCtx x f) := by
  exact ⟨rfl, rfl, rfl, modifyCtx_keeps (g := TxCtx.refcount) (hf _)⟩

/-- The counters move with the rings. -/
theorem Acct.of_sameRefs (h : s.Acct) (hst : SameRefs s t) (hwf : ∀ y ∈ s.live, (t.ctxs y).sc.TxWf)
    (hbytes : t.pushed + s.pulled + s.discarded + s.queued = s.pushed + t.pulled + t.discarded +
    t.queued) :
    t.Acct := by
  have hsum := h.bytes
  refine ⟨hst.live ▸ h.nodup, ?_, ?_, ?_, ?_, by omega⟩
  · rw [hst.live, hst.made]
    exact h.made
  · rw [hst.live]
    exact hwf
  · rw [hst.live, hst.deferred]
    exact h.listed
  · intro y hy
    rw [hst.live] at hy
    rw [deferrals, hst.deferred, hst.refcount]
    exact h.refs y hy

/-- An operation on contexts that keeps the counters and the references right. -/
structure Moves (s t : TxPool) : Prop where
  refs : SameRefs s t
  acct : s.Acct → t.Acct

theorem Moves.refl (s : TxPool) : Moves s s := ⟨.refl s, id⟩

theorem Moves.trans {u : TxPool} (h : Moves s t) (h' : Moves t u) : Moves s u :=
  ⟨h.refs.trans h'.refs, h'.acct ∘ h.acct⟩

/-- A change to flags and histories. -/
theorem moves_modifyCtx (href : ∀ c, (f c).refcount = c.refcount)
    (htx : ∀ c, (f c).sc.tx = c.sc.tx) :
    Moves s (s.modifyCtx x f) := by
  have hbuf : ∀ y, ((s.modifyCtx x f).ctxs y).sc.txBuf = (s.ctxs y).sc.txBuf :=
    modifyCtx_keeps (g := fun c => c.sc.txBuf) (congrArg (·.getD StreamCtx.noBuf) (htx _))
  refine ⟨sameRefs_modifyCtx href, fun h => h.of_sameRefs (sameRefs_modifyCtx href) ?_ ?_⟩
  · intro y hy
    rw [StreamCtx.TxWf, hbuf]
    exact h.wf y hy
  · have hq : (s.modifyCtx x f).queued = s.queued := by
      apply congrArg List.sum
      apply List.map_congr_left
      intro y _
      rw [StreamCtx.txQueued, hbuf]
      rfl
    rw [hq]
    rfl

/-- A change to one ring, with what it adds to the counters. -/
theorem moves_ring {sc : StreamCtx} {p q d : ℕ} (hx : x ∈ s.live)
    (h : (s.ctxs x).sc.TxWf → sc.TxWf ∧ p + (s.ctxs x).sc.txQueued = q + d + sc.txQueued) :
    Moves s { s.modifySc x fun _ => sc with
      pushed := s.pushed + p, pulled := s.pulled + q, discarded := s.discarded + d } := by
  have hst : SameRefs s (s.modifySc x fun _ => sc) := sameRefs_modifyCtx fun _ => rfl
  refine ⟨⟨rfl, rfl, rfl, hst.refcount⟩, fun hs => hs.of_sameRefs ⟨rfl, rfl, rfl, hst.refcount⟩ ?_
    ?_⟩
  · intro y hy
    by_cases hyx : y = x
    · have hnew : ((s.modifySc x fun _ => sc).ctxs x).sc = sc := congrArg TxCtx.sc modifyCtx_self
      rw [hyx, hnew]
      exact (h (hs.wf x hx)).1
    · have hold : (s.modifySc x fun _ => sc).ctxs y = s.ctxs y := modifyCtx_of_ne hyx
      rw [hold]
      exact hs.wf y hy
  · have hq : (s.modifyCtx x fun c => { c with sc := sc }).queued + (s.ctxs x).sc.txQueued =
      s.queued + sc.txQueued := queued_modifyCtx hs.nodup hx
    have hb := (h (hs.wf x hx)).2
    show s.pushed + p + s.pulled + s.discarded + s.queued =
      s.pushed + (s.pulled + q) + (s.discarded + d) +
        (s.modifyCtx x fun c => { c with sc := sc }).queued
    omega

/-- The same for a new ring state. -/
theorem moves_tx {b : StreamBuf} {p q d : ℕ} (hx : x ∈ s.live)
    (h : (s.ctxs x).sc.TxWf → b.Wf ∧ p + (s.ctxs x).sc.txQueued = q + d + (b.tail - b.head)) :
    Moves s { s.modifySc x fun sc => { sc with tx := some b } with
      pushed := s.pushed + p, pulled := s.pulled + q, discarded := s.discarded + d } := by
  have hsc : StreamCtx.txQueued { (s.ctxs x).sc with tx := some b } = b.tail - b.head :=
    StreamCtx.txQueued_of_tx rfl
  refine moves_ring hx fun hwf => ⟨(h hwf).1, ?_⟩
  rw [hsc]
  exact (h hwf).2

theorem moves_tell (s : TxPool) (x : ℕ) (calls : List (ResetCall × ResetRc)) :
    Moves s (s.tell x calls) :=
  moves_modifyCtx (fun _ => rfl) fun _ => rfl

theorem moves_hand (s : TxPool) (x : ℕ) (frame : Frame) : Moves s (s.hand x frame) :=
  moves_modifyCtx (fun _ => rfl) fun _ => rfl

theorem moves_signalDrained (s : TxPool) (x : ℕ) (pushes : Bool) :
    Moves s (s.signalDrained x pushes) := by
  rw [signalDrained]
  dsimp only
  split
  · have hflag : Moves s (s.modifySc x fun sc => { sc with txDrainPending := false }) :=
      moves_modifyCtx (fun _ => rfl) fun _ => rfl
    exact ⟨⟨rfl, rfl, rfl, hflag.refs.refcount⟩, fun h =>
      have := hflag.acct h
      ⟨this.1, this.2, this.3, this.4, this.5, this.6⟩⟩
  · exact .refl s

/-! ## The operations -/

theorem moves_abandon (hx : x ∈ s.live) : Moves s (s.abandon x) := by
  rw [abandon]
  dsimp only
  split
  · refine moves_tx (p := 0) (q := 0) hx fun hwf => ⟨hwf.skip, ?_⟩
    rw [StreamBuf.skip_queued, StreamCtx.txQueued]
    omega
  · exact .refl s

theorem moves_send (hx : x ∈ s.live) (data : List UInt8) (capacity : UInt32) (setFin hash : Bool) :
    Moves s (s.send x data capacity setFin hash) := by
  rw [send]
  generalize data.take (data.length % 2 ^ 32) = data
  have hsend := fun hwf : (s.ctxs x).sc.TxWf => StreamCtx.exec_sendData hwf data capacity
    setFin hash
  revert hsend
  generalize (StreamCtx.sendData data capacity setFin hash).exec (s.ctxs x).sc = sent
  intro hsend
  split
  · rename_i hrc
    refine moves_ring (p := data.length) (q := 0) (d := 0) hx fun hwf => (?_ : sent.2.TxWf ∧ _)
    obtain ⟨hwf', -, hq⟩ := hsend hwf
    rw [if_pos hrc] at hq
    exact ⟨hwf', by omega⟩
  · rename_i hrc
    refine moves_ring (p := 0) (q := 0) (d := 0) hx fun hwf => (?_ : sent.2.TxWf ∧ _)
    obtain ⟨hwf', -, hq⟩ := hsend hwf
    rw [if_neg hrc] at hq
    exact ⟨hwf', by omega⟩

theorem sendable_le {sc : StreamCtx} (h : sc.TxWf) : sendable sc ≤ sc.txQueued := by
  rw [sendable_eq h]
  split
  · exact min_le_right _ _
  · exact le_rfl

theorem moves_pull (hx : x ∈ s.live) (length : ℕ) (buffer pushes : Bool) :
    Moves s (s.pull x length buffer pushes) := by
  rw [pull]
  dsimp only
  split
  · exact moves_hand s x _
  refine .trans ?_ (moves_signalDrained _ x pushes)
  have hle : (s.ctxs x).sc.TxWf →
      min (sendable (s.ctxs x).sc) (length % 2 ^ 32) ≤ (s.ctxs x).sc.txQueued :=
    fun hwf => (min_le_left _ _).trans (sendable_le hwf)
  have htook := fun hwf => StreamBuf.exec_pop (b := (s.ctxs x).sc.txBuf) hwf
    (min (sendable (s.ctxs x).sc) (length % 2 ^ 32))
  split
  · split
    · refine .trans (moves_tx (p := 0) (d := 0) hx fun hwf => ⟨(htook hwf).wf, ?_⟩)
        (moves_hand _ x _)
      have hlen := (htook hwf).length
      have hle := hle hwf
      rw [(htook hwf).tail, (htook hwf).head]
      unfold StreamCtx.txQueued at hle ⊢
      omega
    · exact .refl s
  · exact moves_hand s x _

theorem moves_sendReset (hx : x ∈ s.live) (v : ResetView) (reliable : ℕ) :
    Moves s (s.sendReset x v reliable) := by
  rw [sendReset]
  split
  · exact (moves_tell s x _).trans (moves_abandon hx)
  · exact moves_tell s x _

theorem moves_wtSendReset {own : Bool} (hx : own = true → x ∈ s.live)
    (result : List (ResetCall × ResetRc) × ResetRc) : Moves s (s.wtSendReset x own result) := by
  rw [wtSendReset]
  split
  · rename_i h
    exact (moves_tell s x _).trans (moves_abandon (hx h.2))
  · exact moves_tell s x _

theorem moves_sendDeferred {d : Deferred} (hd : d.sc ∈ s.live) (v : ResetView) :
    Moves s (s.sendDeferred d v) := by
  rw [sendDeferred]
  split
  · have hflag : Moves s (s.modifySc d.sc fun sc => { sc with txResetPending := false }) :=
      moves_modifyCtx (fun _ => rfl) fun _ => rfl
    dsimp only
    split
    · rw [wtDeferredReset]
      split
      · exact hflag
      · exact hflag.trans (moves_wtSendReset (s := s.modifySc d.sc _) (fun _ => hd) _)
    · exact hflag.trans (moves_sendReset (s := s.modifySc d.sc _) hd v _)
  · exact .refl s

theorem moves_record (s t : TxPool) (d : Deferred) : Moves t (s.record t d) := by
  rw [record]
  exact moves_modifyCtx (fun _ => rfl) fun _ => rfl

theorem moves_cleanupLink (hx : x ∈ s.live) (v : ℕ → ResetView) : Moves s (cleanupLink v s x) := by
  have hunlink : ∀ t : TxPool, x ∈ t.live →
      Moves t ((t.modifyCtx x fun c => { c with linked := false, cleaned := true }).abandon x) := by
    intro t ht
    have hflags : Moves t (t.modifyCtx x fun c => { c with linked := false, cleaned := true }) :=
      moves_modifyCtx (fun _ => rfl) fun _ => rfl
    exact hflags.trans (moves_abandon ht)
  rw [cleanupLink]
  split
  · exact (moves_tell s x _).trans (hunlink _ hx)
  · exact hunlink s hx

theorem moves_deregisterLink (hx : x ∈ s.live) : Moves s (s.deregisterLink x) := by
  have hflags : Moves s (s.modifyCtx x fun c => { c with linked := false }) :=
    moves_modifyCtx (fun _ => rfl) fun _ => rfl
  exact hflags.trans (moves_abandon hx)

/-- A walk over live contexts. -/
theorem moves_foldl {g : TxPool → ℕ → TxPool} (hg : ∀ s x, x ∈ s.live → Moves s (g s x))
    {l : List ℕ} :
    (∀ x ∈ l, x ∈ s.live) → Moves s (l.foldl g s) := by
  induction l generalizing s with
  | nil => exact fun _ => .refl s
  | cons x l ih =>
    intro hl
    have hx := hg s x (hl x List.mem_cons_self)
    refine hx.trans (ih fun y hy => ?_)
    rw [hx.refs.live]
    exact hl y (List.mem_cons_of_mem x hy)

theorem mem_live_of_mem_links {session : ℕ} : ∀ x ∈ s.links session, x ∈ s.live :=
  fun _ hx => (List.mem_filter.1 hx).1

/-! ## References -/

theorem Acct.made_not_mem (h : s.Acct) : s.made ∉ s.live := fun hm => (h.made _ hm).false

theorem Acct.ne_made (h : s.Acct) {d : Deferred} (hd : d ∈ s.deferred) : d.sc ≠ s.made :=
  fun heq => h.made_not_mem (heq ▸ h.listed d hd)

theorem Acct.deferrals_made (h : s.Acct) : s.deferrals s.made = 0 := by
  rw [deferrals, List.count_eq_zero]
  intro hm
  obtain ⟨d, hd, heq⟩ := List.mem_map.1 hm
  exact h.ne_made hd heq

theorem Acct.create (h : s.Acct) (cnx streamId : ℕ) (isWt : Bool) (session : ℕ) :
    (s.create cnx streamId isWt session).Acct := by
  have hfresh := h.made_not_mem
  have hne : ∀ y ∈ s.live, y ≠ s.made := fun y hy heq => hfresh (heq ▸ hy)
  have hctx : ∀ y ∈ s.live, (s.create cnx streamId isWt session).ctxs y = s.ctxs y :=
    fun y hy => Function.update_of_ne (hne y hy) _ _
  have hnew : (s.create cnx streamId isWt session).ctxs s.made =
    { cnx := cnx, streamId := streamId, isWt := isWt, session := session } :=
      Function.update_self _ _ _
  have hnone := h.deferrals_made
  refine ⟨List.nodup_cons.2 ⟨hfresh, h.nodup⟩, ?_, ?_, fun d hd => List.mem_cons_of_mem _
    (h.listed d hd), ?_, ?_⟩
  · intro y hy
    rcases List.mem_cons.1 hy with rfl | hy
    · exact Nat.lt_succ_self _
    · exact (h.made y hy).trans (Nat.lt_succ_self _)
  · intro y hy
    rcases List.mem_cons.1 hy with rfl | hy
    · rw [hnew]
      exact StreamBuf.create_wf 0 false
    · rw [hctx y hy]
      exact h.wf y hy
  · intro y hy
    rcases List.mem_cons.1 hy with rfl | hy
    · exact hnone.le.trans (Nat.zero_le _)
    · rw [hctx y hy]
      exact h.refs y hy
  · have hq : (s.create cnx streamId isWt session).queued = s.queued := by
      have hrest : s.live.map (fun y => ((s.create cnx streamId isWt session).ctxs y).sc.txQueued) =
          s.live.map fun y => (s.ctxs y).sc.txQueued :=
        List.map_congr_left fun y hy => by rw [hctx y hy]
      show (List.map _ (s.made :: s.live)).sum = _
      rw [List.map_cons, List.sum_cons, hrest, hnew]
      exact Nat.zero_add _
    rw [hq]
    exact h.bytes

/-- Only the count of references changes. -/
theorem Acct.setRefcount (h : s.Acct) {n : ℕ} (hn : s.deferrals x ≤ n) :
    (s.modifyCtx x fun c => { c with refcount := n }).Acct := by
  have hsc : ∀ y, ((s.modifyCtx x fun c => { c with refcount := n }).ctxs y).sc = (s.ctxs y).sc :=
    modifyCtx_keeps (g := TxCtx.sc) rfl
  refine ⟨h.nodup, h.made, ?_, h.listed, ?_, ?_⟩
  · intro y hy
    rw [hsc]
    exact h.wf y hy
  · intro y hy
    by_cases hyx : y = x
    · rw [hyx, modifyCtx_self]
      exact hn
    · rw [modifyCtx_of_ne hyx]
      exact h.refs y hy
  · have hq : (s.modifyCtx x fun c => { c with refcount := n }).queued = s.queued :=
      congrArg List.sum (List.map_congr_left fun y _ => by rw [hsc])
    rw [hq]
    exact h.bytes

theorem Acct.ref (h : s.Acct) (hx : x ∈ s.live) : (s.ref x).Acct :=
  h.setRefcount ((h.refs x hx).trans (Nat.le_succ _))

/-- A reference other than the deferred resets' goes. -/
theorem Acct.destroy (h : s.Acct) (hx : x ∈ s.live) (href : s.deferrals x < (s.ctxs x).refcount) :
    (s.destroy x).Acct := by
  have hset : (s.modifyCtx x fun c => { c with refcount := c.refcount - 1 }).Acct :=
    h.setRefcount (n := (s.ctxs x).refcount - 1) (by omega)
  rw [TxPool.destroy]
  split
  · rename_i hone
    have hnone : x ∉ s.deferred.map (·.sc) := by
      rw [← List.count_eq_zero]
      have : s.deferrals x = 0 := by omega
      exact this
    refine ⟨h.nodup.erase x, fun y hy => h.made y (List.mem_of_mem_erase hy),
      fun y hy => hset.wf y (List.mem_of_mem_erase hy), fun d hd => ?_,
      fun y hy => hset.refs y (List.mem_of_mem_erase hy), ?_⟩
    · exact (List.mem_erase_of_ne fun heq => hnone (List.mem_map.2 ⟨d, hd, heq⟩)).2 (h.listed d hd)
    · have hsum := List.sum_map_erase
        (fun y => ((s.modifyCtx x fun c => { c with refcount := c.refcount - 1 }).ctxs
          y).sc.txQueued) hx
      have hbytes := hset.bytes
      have hself : ((s.modifyCtx x fun c => { c with refcount := c.refcount - 1 }).ctxs x).sc =
          (s.ctxs x).sc := modifyCtx_keeps (g := TxCtx.sc) rfl x
      rw [TxPool.queued, show (s.modifyCtx x _).live = s.live from rfl, ← hsum, hself] at hbytes
      show s.pushed = s.pulled + (s.discarded + (s.ctxs x).sc.txQueued) + _
      rw [show s.pushed = (s.modifyCtx x fun c => { c with refcount := c.refcount - 1 }).pushed from
        rfl, hbytes]
      show s.pulled + s.discarded + _ = _
      rw [TxPool.queued]
      dsimp only
      omega
  · exact hset

/-! ## The deferred resets -/

theorem deferrals_erase {d : Deferred} (hd : d ∈ s.deferred) (y : ℕ) :
    (({ s with deferred := s.deferred.erase d } : TxPool).deferrals y) +
    (if d.sc = y then 1 else 0) =
      s.deferrals y := by
  have hperm : (s.deferred.map (·.sc)).Perm (d.sc :: (s.deferred.erase d).map (·.sc)) :=
    (List.perm_cons_erase hd).map _
  rw [deferrals, deferrals, hperm.count_eq, List.count_cons]
  simp

/-- An entry leaves the list and gives its reference back after some operation. -/
theorem Acct.free {d : Deferred} (h : s.Acct) (hd : d ∈ s.deferred)
    (hst : Moves { s with deferred := s.deferred.erase d } t) : (t.deferredResetFree d).Acct := by
  have hx := h.listed d hd
  have hcount := deferrals_erase hd d.sc
  rw [if_pos rfl] at hcount
  have herase : ({ s with deferred := s.deferred.erase d } : TxPool).Acct := by
    refine ⟨h.nodup, h.made, h.wf, fun e he => h.listed e (List.mem_of_mem_erase he), fun y hy =>
      ?_, h.bytes⟩
    have := deferrals_erase hd y
    have := h.refs y hy
    show _ ≤ (s.ctxs y).refcount
    omega
  have hflag : Moves t (t.modifySc d.sc fun sc => { sc with txResetPending := false }) :=
    moves_modifyCtx (fun _ => rfl) fun _ => rfl
  have hall := hst.trans hflag
  refine Acct.destroy (hall.acct herase) ?_ ?_
  · rw [hall.refs.live]
    exact hx
  · rw [deferrals, hall.refs.deferred, hall.refs.refcount]
    have := h.refs d.sc hx
    show (({ s with deferred := s.deferred.erase d } : TxPool).deferrals d.sc) <
      (s.ctxs d.sc).refcount
    omega

theorem Acct.deferReset (h : s.Acct) (hx : x ∈ s.live) (reliable preamble : ℕ) :
    (s.deferReset x reliable preamble).Acct := by
  have hflag : Moves (s.ref x) ((s.ref x).modifyCtx x fun c =>
      { c with
        sc := { c.sc with txResetPending := true, txReliableSize := reliable }
        held := c.held ++ [⟨reliable, c.frames.length⟩] }) :=
    moves_modifyCtx (fun _ => rfl) fun _ => rfl
  have h' := hflag.acct (h.ref hx)
  refine ⟨h'.nodup, h'.made, h'.wf, fun d hd => ?_, fun y hy => ?_, h'.bytes⟩
  · rcases List.mem_cons.1 hd with rfl | hd
    · exact hx
    · exact h.listed d hd
  · have href := hflag.refs.refcount y
    rw [deferrals]
    show List.count y (x :: s.deferred.map (·.sc)) ≤ _
    rw [show ((s.deferReset x reliable preamble).ctxs y).refcount =
      ((s.ref x).ctxs y).refcount from href,
      List.count_cons]
    have hs := h.refs y hy
    rw [deferrals] at hs
    by_cases hyx : y = x
    · subst hyx
      have hself : (s.ref y).ctxs y = { s.ctxs y with refcount := (s.ctxs y).refcount + 1 } :=
        modifyCtx_self
      rw [hself, beq_self_eq_true, if_pos rfl]
      exact Nat.succ_le_succ hs
    · have hne : (s.ref x).ctxs y = s.ctxs y := modifyCtx_of_ne hyx
      rw [hne, if_neg (by simpa using fun h => hyx h.symm)]
      exact hs

theorem Acct.runDeferred {d : Deferred} (h : s.Acct) (hd : d ∈ s.deferred) (sweep : Bool)
    (v : ResetView) :
    (s.runDeferred sweep d v).Acct := by
  have hsend : Moves { s with deferred := s.deferred.erase d }
      (({ s with deferred := s.deferred.erase d } : TxPool).sendDeferred d v) :=
    moves_sendDeferred (s := { s with deferred := s.deferred.erase d }) (h.listed d hd) v
  rw [TxPool.runDeferred]
  split
  · exact h
  · split
    · exact h
    · dsimp only
      split
      · exact h.free hd (hsend.trans (moves_record s _ d))
      · exact h.free hd hsend

theorem Acct.dropCnx (cnx : ℕ) : ∀ {l : List Deferred} {s : TxPool}, s.Acct → l.Subperm s.deferred →
    (l.foldl (dropDeferred cnx) s).Acct := by
  intro l
  induction l with
  | nil => exact fun h _ => h
  | cons d l ih =>
    intro s h hl
    have hd : d ∈ s.deferred := hl.subset List.mem_cons_self
    rw [List.foldl_cons, dropDeferred]
    split
    · refine ih (h.free hd (.refl _)) ?_
      have herase := hl.erase d
      rw [List.erase_cons_head] at herase
      rw [deferredResetFree, destroy_deferred]
      exact herase
    · exact ih h ((List.sublist_cons_self d l).subperm.trans hl)

/-! ## Every run -/

theorem acct_init : ({} : TxPool).Acct :=
  ⟨List.nodup_nil, fun _ h => absurd h List.not_mem_nil, fun _ h => absurd h List.not_mem_nil,
    fun _ h => absurd h List.not_mem_nil, fun _ h => absurd h List.not_mem_nil, rfl⟩

theorem Acct.streamReset (h : s.Acct) (hx : x ∈ s.live) (requested : ℕ) (v : ResetView) :
    (s.streamReset x requested v).Acct := by
  rw [TxPool.streamReset]
  split
  · exact h
  · split
    · exact h
    · split
      · exact h.deferReset hx _ _
      · exact (moves_sendReset hx v _).acct h

theorem Acct.wtResetStream (h : s.Acct) (hx : x ∈ s.live ∨ (s.ctxs x).linked = false)
    (requested : ℕ)
    (v : ResetView) : (s.wtResetStream x requested v).Acct := by
  have hown : (s.ctxs x).linked = true → x ∈ s.live :=
    fun hlinked => hx.resolve_right (by simp [hlinked])
  rw [TxPool.wtResetStream]
  generalize hreliable :
    (if (s.ctxs x).linked = true then resetReliableSize v (s.ctxs x).sc requested else 0) = reliable
  split
  · exact h
  · split
    · exact h
    · split
      · exact (moves_wtSendReset hown _).acct h
      · rename_i hpos
        have hlinked : (s.ctxs x).linked = true := by
          by_contra hne
          rw [if_neg hne] at hreliable
          exact hpos hreliable.symm
        split
        · exact h.deferReset (hown hlinked) _ _
        · exact (moves_wtSendReset hown _).acct h

theorem Acct.step {act : Act} (h : s.Acct) (hs : s.step act = some t) : t.Acct := by
  cases act with
  | create cnx streamId isWt session =>
    cases hs
    exact h.create cnx streamId isWt session
  | ref x =>
    simp only [TxPool.step, Option.ite_none_right_eq_some, Option.some.injEq] at hs
    obtain ⟨hx, rfl⟩ := hs
    exact h.ref hx
  | destroy x =>
    simp only [TxPool.step, Option.ite_none_right_eq_some, Option.some.injEq] at hs
    obtain ⟨⟨hx, href⟩, rfl⟩ := hs
    exact h.destroy hx href
  | send x data capacity setFin hash =>
    simp only [TxPool.step, Option.ite_none_right_eq_some, Option.some.injEq] at hs
    obtain ⟨hx, rfl⟩ := hs
    exact (moves_send hx data capacity setFin hash).acct h
  | arm x =>
    simp only [TxPool.step, Option.ite_none_right_eq_some, Option.some.injEq] at hs
    obtain ⟨-, rfl⟩ := hs
    have hflag : Moves s (s.modifySc x fun sc => { sc with txDrainPending := true }) :=
      moves_modifyCtx (fun _ => rfl) fun _ => rfl
    exact hflag.acct h
  | pull x length buffer pushes =>
    simp only [TxPool.step, Option.ite_none_right_eq_some, Option.some.injEq] at hs
    obtain ⟨hx, rfl⟩ := hs
    exact (moves_pull hx length buffer pushes).acct h
  | streamReset x requested v =>
    simp only [TxPool.step, Option.ite_none_right_eq_some, Option.some.injEq] at hs
    obtain ⟨⟨hx, -⟩, rfl⟩ := hs
    exact h.streamReset hx requested v
  | wtResetStream x requested v =>
    simp only [TxPool.step, Option.ite_none_right_eq_some, Option.some.injEq] at hs
    obtain ⟨⟨-, hx⟩, rfl⟩ := hs
    exact h.wtResetStream hx requested v
  | afterSend k sweep v =>
    simp only [TxPool.step, Option.map_eq_some_iff] at hs
    obtain ⟨d, hd, rfl⟩ := hs
    exact h.runDeferred (List.mem_of_getElem? hd) sweep v
  | sessionCleanup session v =>
    cases hs
    exact (moves_foldl (fun _ _ hx => moves_cleanupLink hx v) mem_live_of_mem_links).acct h
  | deregister session =>
    cases hs
    exact (moves_foldl (fun _ _ hx => moves_deregisterLink hx) mem_live_of_mem_links).acct h
  | free x =>
    cases hs
    have hflags : Moves s (s.modifyCtx x fun c => { c with linked := false, tracked := false }) :=
      moves_modifyCtx (fun _ => rfl) fun _ => rfl
    exact hflags.acct h
  | disconnect cnx | delete cnx =>
    cases hs
    exact ⟨h.1, h.2, h.3, h.4, h.5, h.6⟩
  | close cnx =>
    cases hs
    exact Acct.dropCnx cnx ⟨h.1, h.2, h.3, h.4, h.5, h.6⟩ (List.Subperm.refl s.deferred)

/-- The counters account for every byte that was written. -/
structure BytesBalance (s : TxPool) : Prop where
  balance : s.pushed = s.pulled + s.discarded + s.queued
  le_pushed : s.pulled + s.discarded ≤ s.pushed
  queuedBytes : s.queuedBytes = s.queued
  freed : s.live = [] → s.queuedBytes = 0

theorem Acct.bytesBalance (h : s.Acct) : s.BytesBalance := by
  have hb := h.bytes
  have hq : s.queuedBytes = s.queued := by
    rw [queuedBytes]
    split <;> omega
  refine ⟨hb, by omega, hq, fun hlive => ?_⟩
  rw [hq, queued, hlive]
  rfl

/-- In every run of any number of streams, what was written is pulled, discarded or still queued. -/
theorem tx_bytes_balance {acts : List Act} (hrun : Steps.run step {} acts = some s) :
    s.BytesBalance := by
  have hacct : s.Acct := Steps.preserved (fun _ _ _ h hs => h.step hs) acct_init hrun
  exact hacct.bytesBalance

/-- A raw stream is reset with bytes queued, written to again and freed; the bytes of a WebTransport
stream go with its session. -/
def mixedActs : List Act :=
  [.create 16 4 false 0, .create 32 8 true 7, .send 0 [1, 2, 3, 4, 5] 8 false false,
    .pull 0 3 true true,
    .streamReset 0 0 {}, .send 0 [6, 7] 8 true false, .send 1 [8, 9, 10] 4 false false,
      .pull 1 1 true true,
    .sessionCleanup 7 fun _ => {}, .destroy 0, .destroy 1]

theorem tx_bytes_balance_mixedActs : ∃ s, Steps.run step {} mixedActs = some s ∧
    (s.pushed, s.pulled, s.discarded, s.live) = (10, 4, 6, []) ∧ s.BytesBalance := by
  refine ⟨_, rfl, ?_, tx_bytes_balance (rfl : Steps.run step {} mixedActs = some _)⟩
  decide +kernel

end TxPool

end Aiopquic
