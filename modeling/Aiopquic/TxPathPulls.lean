import Aiopquic.TxPath

/-!
# Pulls from a stream's send ring

`prepare_to_send` under the proof outline, and what reaches picoquic in every interleaving.
-/

namespace Aiopquic

open Interleave Interleave.Prog Circular

namespace TxStream

/-! ## Pulls -/

/-- What has become of the writer's part of the ring since `r`. -/
structure Since (r s : TxStream) : Prop where
  writes : r.sc.txWrites <+: s.sc.txWrites
  fin_le : r.sc.txBuf.finPending = true → s.sc.txBuf.finPending = true
  fin : r.sc.txBuf.finPending = true → s.sc.txWrites = r.sc.txWrites

theorem Since.refl (s : TxStream) : Since s s := ⟨List.prefix_rfl, id, fun _ => rfl⟩

theorem Since.trans {r s t : TxStream} (h : Since r s) (h' : Since s t) : Since r t :=
  ⟨h.writes.trans h'.writes, fun hf => h'.fin_le (h.fin_le hf),
    fun hf => (h'.fin (h.fin_le hf)).trans (h.fin hf)⟩

theorem AsyncioMoves.since {s t : TxStream} (h : AsyncioMoves s t) : Since s t :=
  ⟨h.writes, h.fin_le, h.fin⟩

/-- If the writer has added nothing from `r` to `t`, it had added nothing at `s` in between. -/
theorem Since.squeeze {r s t : TxStream} (h : Since r s) (h' : Since s t)
    (hw : t.sc.txWrites = r.sc.txWrites) (hf : t.sc.txBuf.finPending = r.sc.txBuf.finPending) :
    s.sc.txWrites = r.sc.txWrites ∧ s.sc.txBuf.finPending = r.sc.txBuf.finPending := by
  refine ⟨?_, ?_⟩
  · have h₁ := h.writes.length_le
    have h₂ := h'.writes.length_le
    rw [hw] at h₂
    exact (h.writes.eq_of_length (by omega)).symm
  · cases hr : r.sc.txBuf.finPending with
    | true => exact h.fin_le hr
    | false =>
      cases hs : s.sc.txBuf.finPending with
      | false => rfl
      | true =>
        have := h'.fin_le hs
        rw [hf, hr] at this
        exact this.symm

/-- The TX ring under a pull that has handed `frames` and began after `r`. -/
theorem embeds_puller (frames : List Frame) (r : TxStream) :
    Embeds (outline.contract .worker) txLoc StreamBuf.consumer
      (fun s => s.sc.tx.isSome = true ∧ s.frames = frames ∧ Since r s) where
  inv := fun s hs => hs.wf
  rely := fun s t h hm _ =>
    ⟨hm.buf h.1, hm.isSome h.1, hm.frames.trans h.2.1, h.2.2.trans hm.since⟩
  step := by
    rintro s b hs ⟨hsome, hframes, hsince⟩ hg hb
    have hm : StreamBuf.ConsumerMoves s.sc.txBuf b := hg.moves
    have hbytes : (txLoc.set b s).sc.txBytes = s.sc.txBytes :=
      congrArg List.flatten hm.writes
    refine ⟨⟨⟨hsome.symm, hm⟩, rfl, rfl, rfl, List.prefix_rfl⟩,
      ⟨hb, hs.noReset, ?_, ?_, fun hf => ?_, hs.finLast, ?_, ?_⟩, rfl,
      hframes, ?_⟩
    · rw [hbytes]
      exact hs.handed
    · exact hs.handed_le.trans hm.head_le
    · rw [hbytes]
      obtain ⟨hfin, hall⟩ := hs.fin hf
      exact ⟨hm.fin.trans hfin, hall⟩
    · show b.writes = s.sent ∨ ∃ d, s.current = some d ∧ b.writes = s.sent ++ [d]
      rw [hm.writes]
      exact hs.calls
    · exact fun he => hm.fin.trans (hs.ended he)
    · refine ⟨?_, fun hf => hm.fin.trans (hsince.fin_le hf), fun hf => ?_⟩
      · show _ <+: b.writes
        rw [hm.writes]
        exact hsince.writes
      · show b.writes = _
        rw [hm.writes]
        exact hsince.fin hf

/-- Appending a frame after which no byte may come, or which carries none. -/
theorem finLast_append {frames : List Frame} {f : Frame} (h : FinLast frames)
    (hf : (∃ g ∈ frames, g.isFin = true) → f.bytes = []) : FinLast (frames ++ [f]) := by
  intro before g after heq hg
  rcases List.eq_nil_or_concat after with rfl | ⟨after', last, rfl⟩
  · rfl
  · have hsplit : frames ++ [f] = (before ++ g :: after') ++ [last] := by rw [heq]; simp
    obtain ⟨hfr, hlast⟩ := List.append_inj' hsplit rfl
    have hlast' : last = f := by simpa using hlast.symm
    have hnil := h before g after' hfr hg
    have hbytes : f.bytes = [] := hf ⟨g, by rw [hfr]; simp, hg⟩
    rw [handedBytes] at hnil
    rw [handedBytes, List.concat_eq_append, List.flatMap_append, hnil, hlast']
    simp [hbytes]

@[simp] theorem handed_hand (s : TxStream) (f : Frame) : (s.hand f).handed = s.handed ++
    f.bytes := by
  simp [TxStream.handed, hand, handedBytes]

/-- Handing a frame: its bytes are the next ones of the ring, and with `is_fin` they are the
last. -/
theorem Inv.hand {s : TxStream} (hs : Inv s) {f : Frame}
    (hbytes : s.handed ++ f.bytes <+: s.sc.txBytes)
    (hhead : (s.handed ++ f.bytes).length ≤ s.sc.txBuf.head)
    (hfin : f.isFin = true → s.sc.txBuf.finPending = true ∧ s.handed ++ f.bytes = s.sc.txBytes) :
    Inv (s.hand f) := by
  have hempty : s.FinHanded → f.bytes = [] := by
    intro hf
    have hall := (hs.fin hf).2
    have hlen := hbytes.length_le
    rw [← hall, List.length_append] at hlen
    exact List.length_eq_zero_iff.1 (by omega)
  refine ⟨hs.wf, hs.noReset, by rw [handed_hand]; exact hbytes, by rw [handed_hand]; exact hhead,
    fun hf => ?_, finLast_append hs.finLast hempty, hs.calls, hs.ended⟩
  rw [handed_hand]
  obtain ⟨g, hg, hgf⟩ := hf
  rcases List.mem_append.1 hg with hmem | hmem
  · obtain ⟨hfin', hall⟩ := hs.fin ⟨g, hmem, hgf⟩
    rw [hempty ⟨g, hmem, hgf⟩, List.append_nil]
    exact ⟨hfin', hall⟩
  · rw [List.mem_singleton] at hmem
    exact hfin (hmem ▸ hgf)

/-- What a pull that began at `r` and returned `still` knows: if it returned inactive and the writer
has added nothing since, nothing is left to send. -/
def Drained (r : TxStream) (still : Bool) (s : TxStream) : Prop :=
  still = false → s.sc.txWrites = r.sc.txWrites → s.sc.txBuf.finPending = r.sc.txBuf.finPending →
    s.sc.txBuf.head = s.sc.txBytes.length ∧ (s.sc.txBuf.finPending = true → s.FinHanded)

/-- The state after a frame is handed, to the end of the pull. -/
structure Pulled (r : TxStream) (still : Bool) (s : TxStream) : Prop where
  idle : WorkerIdle s
  since : Since r s
  drained : Drained r still s

theorem Pulled.stable {r s t : TxStream} {still : Bool} (h : Pulled r still s)
    (hm : AsyncioMoves s t) :
    Pulled r still t := by
  refine ⟨h.idle.stable hm, h.since.trans hm.since, fun hst hw hf => ?_⟩
  obtain ⟨hw', hf'⟩ := h.since.squeeze hm.since hw hf
  obtain ⟨hhead, hfin⟩ := h.drained hst hw' hf'
  refine ⟨?_, fun hft => ?_⟩
  · rw [hm.head, hhead]
    show s.sc.txWrites.flatten.length = t.sc.txWrites.flatten.length
    rw [hw, hw']
  · rw [FinHanded, hm.frames]
    exact hfin (by rw [hf', ← hf]; exact hft)

theorem scLoc_set_get (s : TxStream) : scLoc.set (scLoc.get s) s = s := rfl

/-- Nothing of the TX ring, the frames or the record changes. -/
structure SameTx (s t : TxStream) : Prop where
  tx : t.sc.tx = s.sc.tx
  reset : t.sc.txResetPending = s.sc.txResetPending
  frames : t.frames = s.frames
  sent : t.sent = s.sent
  ended : t.ended = s.ended
  current : t.current = s.current

theorem SameTx.buf {s t : TxStream} (h : SameTx s t) : t.sc.txBuf = s.sc.txBuf := by
  rw [StreamCtx.txBuf, StreamCtx.txBuf, h.tx]

theorem SameTx.moves {s t : TxStream} (h : SameTx s t) : WorkerMoves s t :=
  ⟨⟨by rw [h.tx], by rw [h.buf]; exact .refl _⟩, h.sent, h.ended, h.current,
    by rw [h.frames]⟩

theorem SameTx.inv {s t : TxStream} (h : SameTx s t) (hs : Inv s) : Inv t := by
  have hbuf := h.buf
  have hhanded : t.handed = s.handed := by rw [handed, handed, h.frames]
  have hbytes : t.sc.txBytes = s.sc.txBytes := by rw [StreamCtx.txBytes, StreamCtx.txBytes, hbuf]
  refine ⟨by rw [StreamCtx.TxWf, hbuf]; exact hs.wf, h.reset.trans hs.noReset, ?_, ?_, fun hf => ?_, ?_, ?_, ?_⟩
  · rw [hhanded, hbytes]
    exact hs.handed
  · rw [hhanded, hbuf]
    exact hs.handed_le
  · rw [hhanded, hbytes, hbuf]
    exact hs.fin (by rw [FinHanded, ← h.frames]; exact hf)
  · rw [h.frames]
    exact hs.finLast
  · rw [h.sent, h.current, StreamCtx.txWrites, hbuf]
    exact hs.calls
  · rw [h.ended, hbuf]
    exact hs.ended

theorem Pulled.sameTx {r s t : TxStream} {still : Bool} (h : Pulled r still s) (hm : SameTx s t) :
    Pulled r still t := by
  have hbuf := hm.buf
  have hwr : t.sc.txWrites = s.sc.txWrites := by rw [StreamCtx.txWrites, StreamCtx.txWrites, hbuf]
  have hby : t.sc.txBytes = s.sc.txBytes := by rw [StreamCtx.txBytes, StreamCtx.txBytes, hbuf]
  refine ⟨?_, ⟨?_, ?_, ?_⟩, ?_⟩
  · rw [WorkerIdle, handed, hm.frames, hbuf]
    exact h.idle
  · rw [hwr]
    exact h.since.writes
  · rw [hbuf]
    exact h.since.fin_le
  · rw [hwr]
    exact h.since.fin
  · rw [Drained, hwr, hby, hbuf, FinHanded, hm.frames]
    exact h.drained

/-- The drain signal of a pull leaves the TX ring alone. -/
theorem signalDrained_only (event : Entry) : Only SameTx (signalDrained event) := by
  unfold signalDrained
  refine only_bind ?_ fun rc => only_when (only_modify fun s => ⟨rfl, rfl, rfl, rfl, rfl, rfl⟩)
  exact only_mono (only_on _) fun s t ⟨b, hb⟩ => hb ▸ ⟨rfl, rfl, rfl, rfl, rfl, rfl⟩

/-- The end of a pull, after its frame is handed. -/
theorem pull_rest {event : Entry} {still : Bool} {r s : TxStream} (h : Pulled r still s) :
    wp (outline.contract .worker)
      (do let taken ← StreamCtx.txDrainTake.on scLoc
          when taken <| signalDrained event
          pure still) (Pulled r) s := by
  rw [StreamCtx.txDrainTake, on_rmw]
  refine wp_rmw_bind fun t hst ht => ?_
  have htake : SameTx t (scLoc.set { scLoc.get t with txDrainPending := false } t) :=
    ⟨rfl, rfl, rfl, rfl, rfl, rfl⟩
  have hp := (h.stable hst).sameTx htake
  refine ⟨htake.moves, htake.inv ht, wp_when_bind (fun _ => ?_) (fun _ => hp)⟩
  refine wp_seq (wp_only (signalDrained_only event) hp (fun _ _ hF hm _ => hF.stable hm)
    fun _ _ hi hF hm => ⟨hm.moves, hm.inv hi, hF.sameTx hm⟩) (htake.inv ht) fun _ u _ hu => hu

/-- A pull that has read the FIN flag at `t` and counted `avail` bytes, at a later `s`: nothing is
handed since `r`, and what was there at `t` is covered by the count. -/
structure Counted (r t : TxStream) (avail : ℕ) (s : TxStream) : Prop where
  isSome : s.sc.tx.isSome = true
  frames : s.frames = r.frames
  since : Since t s
  tail_le : t.sc.txBytes.length ≤ t.sc.txBuf.head + avail
  le_tail : t.sc.txBuf.head + avail ≤ s.sc.txBytes.length

theorem Since.bytes {s t : TxStream} (h : Since s t) : s.sc.txBytes <+: t.sc.txBytes := by
  obtain ⟨l, hl⟩ := h.writes
  show s.sc.txWrites.flatten <+: t.sc.txWrites.flatten
  rw [← hl, List.flatten_append]
  exact List.prefix_append _ _

theorem Counted.stable {r t s u : TxStream} {avail : ℕ} (h : Counted r t avail s)
    (hm : AsyncioMoves s u) : Counted r t avail u :=
  ⟨hm.isSome h.isSome, hm.frames.trans h.frames, h.since.trans hm.since, h.tail_le,
    h.le_tail.trans hm.since.bytes.length_le⟩

theorem Since.hand {r s : TxStream} (h : Since r s) (f : Frame) : Since r (s.hand f) :=
  ⟨h.writes, h.fin_le, h.fin⟩

/-- Once the writer is known to have added nothing after `t`, the count covers everything. -/
theorem Counted.all {r t s : TxStream} {avail : ℕ} (h : Counted r t avail s)
    (hw : s.sc.txWrites = t.sc.txWrites) : t.sc.txBuf.head + avail = s.sc.txBytes.length := by
  have hb : s.sc.txBytes = t.sc.txBytes := congrArg List.flatten hw
  have h₁ := h.tail_le
  have h₂ := h.le_tail
  rw [hb] at h₂ ⊢
  omega

/-- Handing the bytes a pull took. -/
theorem hand_pulled {r t s : TxStream} {avail toSend : ℕ} {fin : Bool} {out : List UInt8}
    (hs : Inv s) (hidle : r.handed.length = t.sc.txBuf.head) (hrt : Since r t)
    (hc : Counted r t avail s) (hfin : t.sc.txBuf.finPending = fin) (hle : toSend ≤ avail)
    (hlen : out.length = toSend) (hhead : s.sc.txBuf.head = t.sc.txBuf.head + toSend)
    (hout : out = (s.sc.txBytes.drop t.sc.txBuf.head).take toSend) :
    Inv (s.hand ⟨StreamBuf.fillBuffer toSend out, fin && !false && toSend == avail⟩) ∧
      Pulled r (decide (toSend < avail))
        (s.hand ⟨StreamBuf.fillBuffer toSend out, fin && !false && toSend == avail⟩) := by
  have hfill := StreamBuf.fillBuffer_eq hlen
  have hhanded : s.handed = r.handed := by rw [handed, handed, hc.frames]
  have htake : s.handed ++ out = s.sc.txBytes.take (t.sc.txBuf.head + toSend) := by
    rw [List.take_add, ← hout, ← hidle, ← hhanded]
    congr 1
    exact List.prefix_iff_eq_take.1 hs.handed
  have hsum : (s.handed ++ out).length = s.sc.txBuf.head := by
    rw [List.length_append, hhanded, hidle, hlen, hhead]
  have hfull : s.sc.txWrites = t.sc.txWrites → toSend = avail → s.handed ++ out = s.sc.txBytes := by
    intro hw heq
    rw [htake, heq, hc.all hw, List.take_length]
  rw [hfill]
  refine ⟨hs.hand ?_ hsum.le ?_, ?_, (hrt.trans hc.since).hand _, fun hstill hw hf => ?_⟩
  · rw [htake]
    exact List.take_prefix _ _
  · intro hisFin
    simp only [Bool.not_false, Bool.and_true, Bool.and_eq_true, beq_iff_eq] at hisFin
    have htf : t.sc.txBuf.finPending = true := hfin.trans hisFin.1
    exact ⟨hc.since.fin_le htf, hfull (hc.since.fin htf) hisFin.2⟩
  · rw [WorkerIdle, handed_hand]
    exact hsum
  · have heq : toSend = avail := by
      have := of_decide_eq_false hstill
      omega
    obtain ⟨hwt, hft⟩ := hrt.squeeze hc.since hw hf
    have hws : s.sc.txWrites = t.sc.txWrites := hw.trans hwt.symm
    refine ⟨?_, fun hsf => ?_⟩
    · show s.sc.txBuf.head = s.sc.txBytes.length
      rw [hhead, heq, hc.all hws]
    · refine ⟨_, List.mem_append_right _ (List.mem_singleton_self _), ?_⟩
      have htf : fin = true := by
        rw [← hfin, hft, ← hf]
        exact hsf
      simp [htf, heq]

/-- A pull keeps the outline, and says when it leaves nothing behind. -/
theorem pull_spec {event : Entry} {length : ℕ} {r : TxStream} (hidle : WorkerIdle r) :
    wp (outline.contract .worker) (pull event length) (Pulled r) r := by
  unfold pull
  refine wp_load_bind fun s hrs hs => ?_
  split
  · rename_i hnone
    have hbuf : s.sc.txBuf = StreamCtx.noBuf := by
      have : s.sc.tx = none := by simpa using hnone
      rw [StreamCtx.txBuf, this]
      rfl
    refine wp_modify_bind fun t hst ht => ?_
    have hidle' : WorkerIdle t := (hidle.stable hrs).stable hst
    have hrt := hrs.trans hst
    have hinv : Inv (t.hand ⟨[], false⟩) :=
      ht.hand (by simpa using ht.handed) (by simpa using ht.handed_le) (by simp)
    refine ⟨⟨.refl _, rfl, rfl, rfl, List.prefix_append _ _⟩, hinv, ?_, hrt.since.hand _,
      fun _ hw hf => ⟨?_, fun hft => ?_⟩⟩
    · rw [WorkerIdle, handed_hand, List.append_nil]
      exact hidle'
    · -- no ring at the start, so nothing had been written
      have hw₀ : r.sc.txWrites = [] := by
        have := hrs.writes
        rw [StreamCtx.txWrites, StreamCtx.txWrites, hbuf] at this
        exact List.prefix_nil.1 this
      have hb : t.sc.txBytes = [] := congrArg List.flatten (hw.trans hw₀)
      have hlen : t.sc.txBytes.length = t.sc.txBuf.tail := ht.wf.length
      have hle := ht.wf.head_le
      show t.sc.txBuf.head = t.sc.txBytes.length
      rw [hb, List.length_nil] at hlen ⊢
      omega
    · have hf₀ : r.sc.txBuf.finPending = false := by
        by_contra hne
        have := hrs.fin_le (by simpa using hne)
        rw [hbuf] at this
        exact absurd this (by decide)
      exact absurd (hft.symm.trans (hf.trans hf₀)) (by simp)
  rename_i hsome
  have hsome' : s.sc.tx.isSome = true := by
    rw [Option.isSome_iff_ne_none]
    simpa using hsome
  -- the FIN flag, then the tail: a FIN seen here is behind every byte
  refine wp_seq (wp_on (embeds_puller r.frames r) ⟨hsome', hrs.frames, hrs.since⟩
    StreamBuf.finPendingLoad_spec) hs fun fin t ht h => ?_
  obtain ⟨⟨hst, hfin⟩, htsome, htframes, hrt⟩ := h
  have hhead : t.sc.txBuf.head = r.sc.txBuf.head := hst.head.trans hrs.head
  refine wp_seq (wp_on (embeds_puller r.frames t) ⟨htsome, htframes, .refl t⟩
    (StreamBuf.used_consumer ht.wf)) ht fun avail u hu h => ?_
  obtain ⟨⟨htu, tail, hle₁, hle₂, havail⟩, husome, huframes, htu'⟩ := h
  have hc : Counted r t avail u := by
    have h₁ : t.sc.txBytes.length = t.sc.txBuf.tail := ht.wf.length
    have h₂ : u.sc.txBytes.length = u.sc.txBuf.tail := hu.wf.length
    have h₃ := ht.wf.head_le
    have hle₁' : t.sc.txBuf.tail ≤ tail := hle₁
    have hle₂' : tail ≤ u.sc.txBuf.tail := hle₂
    have havail' : avail = tail - t.sc.txBuf.head := havail
    exact ⟨husome, huframes, htu', by omega, by omega⟩
  rw [StreamCtx.txSendable, on_bind, on_load scLoc scLoc_set_get, bind_assoc]
  refine wp_load_bind fun v huv hv => ?_
  dsimp only
  rw [show (scLoc.get v).txResetPending = false from hv.noReset, if_pos rfl]
  refine wp_load_bind fun w hvw hw => ?_
  rw [hw.noReset]
  have hcw := (hc.stable huv).stable hvw
  have hwhead : w.sc.txBuf.head = t.sc.txBuf.head := by
    rw [hvw.head, huv.head]
    exact htu.head
  have hidle' : r.handed.length = t.sc.txBuf.head := hidle.trans hhead.symm
  have hmin : min avail (length % 2 ^ 32) ≤ avail := min_le_left _ _
  generalize min avail (length % 2 ^ 32) = toSend at hmin
  -- handing what was taken
  have hhand : ∀ x, Counted r t avail x → ∀ out : List UInt8, out.length = toSend →
      x.sc.txBuf.head = t.sc.txBuf.head + toSend →
      out = (x.sc.txBytes.drop t.sc.txBuf.head).take toSend →
      wp (outline.contract .worker)
        (do modify (·.hand ⟨StreamBuf.fillBuffer toSend out, fin && !false && toSend == avail⟩)
            let taken ← StreamCtx.txDrainTake.on scLoc
            when taken <| signalDrained event
            pure (decide (toSend < avail))) (Pulled r) x := by
    intro x hcx out hlen hxhead hout
    refine wp_modify_bind fun y hxy hy => ?_
    have hyout : out = (y.sc.txBytes.drop t.sc.txBuf.head).take toSend := by
      rw [take_drop_of_isPrefix hxy.since.bytes (by have := hcx.le_tail; omega)]
      exact hout
    obtain ⟨hinv, hpulled⟩ := hand_pulled hy hidle' hrt (hcx.stable hxy) hfin hmin hlen
      (hxy.head.trans hxhead) hyout
    exact ⟨⟨.refl _, rfl, rfl, rfl, List.prefix_append _ _⟩, hinv, pull_rest hpulled⟩
  split
  · refine wp_seq (wp_on (embeds_puller r.frames t)
      ⟨hcw.isSome, hcw.frames, hcw.since⟩ (StreamBuf.pop_spec hw.wf)) hw fun out x hx h => ?_
    obtain ⟨hpop, hxsome, hxframes, hxsince⟩ := h
    obtain ⟨tail', hge, -, hlen⟩ := hpop.length
    have hwlen : w.sc.txBytes.length = w.sc.txBuf.tail := hw.wf.length
    have hlt := hcw.le_tail
    have hge' : w.sc.txBuf.tail ≤ tail' := hge
    have hlen' : out.length = toSend := by
      have : out.length = min toSend (tail' - w.sc.txBuf.head) := hlen
      omega
    have hgrow : w.sc.txBytes <+: x.sc.txBytes := by
      obtain ⟨l, hl⟩ := hpop.writes
      show w.sc.txWrites.flatten <+: x.sc.txBuf.writes.flatten
      rw [show x.sc.txBuf.writes = w.sc.txBuf.writes ++ l from hl.symm, List.flatten_append]
      exact List.prefix_append _ _
    refine hhand x ⟨hxsome, hxframes, hxsince, hcw.tail_le, hlt.trans hgrow.length_le⟩ out
      hlen' ?_ ?_
    · rw [show x.sc.txBuf.head = w.sc.txBuf.head + out.length from hpop.head, hwhead, hlen']
    · rw [← hwhead, ← hlen']
      exact hpop.eq
  · rename_i hzero
    have hz : toSend = 0 := by omega
    refine hhand w hcw [] (by rw [hz]; rfl) (by rw [hwhead, hz]; rfl) (by rw [hz]; rfl)

/-! ## Every interleaving -/

/-- A pull callback keeps the worker idle. -/
theorem pullCall_spec {event : Entry} {length : ℕ} {s : TxStream} (hs : Inv s)
    (hidle : WorkerIdle s) :
    wp (outline.contract .worker) (do let _ ← pull event length; pure ()) (fun _ => WorkerIdle) s :=
  wp_seq (pull_spec hidle) hs fun _ _ _ h => h.idle

theorem outline_sound : outline.Sound := by
  rintro i s p hs hidle hp
  cases hp with
  | send _ data capacity setFin hash hlen hended =>
    exact wp_seq (sendData_spec hidle hended) hs fun _ _ _ h => h.idle
  | prepareToSend _ streamId cnx length => exact pullCall_spec hs hidle
  | provideData _ streamId cnx session length => exact pullCall_spec hs hidle

theorem init_inv (geo : Geometry) : Inv (init geo) :=
  ⟨StreamBuf.create_wf 0 false, rfl, List.prefix_rfl, le_rfl,
    fun ⟨_, hf, _⟩ => by simp [init] at hf,
    fun before f after h => by simp [init] at h, .inl rfl, fun h => by simp [init] at h⟩

theorem init_idle (geo : Geometry) (i : Thread) : outline.idle i (init geo) := by
  cases i with
  | worker => exact rfl
  | asyncio => exact ⟨rfl, rfl⟩

/-- What picoquic has been handed, against what was written. -/
structure Delivered (c : Config Thread TxStream) : Prop where
  /-- The ring has taken in the writes that returned `1`, and at most the one under way. -/
  accepted : c.mem.sc.txWrites = c.mem.sent ∨
    ∃ d, c.mem.current = some d ∧ c.mem.sc.txWrites = c.mem.sent ++ [d]
  all_accepted : c.Idle .asyncio → c.mem.sc.txWrites = c.mem.sent
  /-- The bytes handed are a prefix of the accepted ones. -/
  handed : c.mem.handed <+: c.mem.sc.txBytes
  /-- A frame with `is_fin` completes the accepted bytes, of a stream whose end was written. -/
  fin : ∀ before f after, c.mem.frames = before ++ f :: after → f.isFin = true →
    handedBytes (before ++ [f]) = c.mem.sc.txBytes ∧ c.mem.sc.txBuf.finPending = true
  /-- No byte is handed after it. -/
  finLast : ∀ before f after, c.mem.frames = before ++ f :: after → f.isFin = true →
    handedBytes after = []
  ended : c.Idle .asyncio → c.mem.sc.txBuf.finPending = c.mem.ended

/-- Under every interleaving of writes and pulls, the bytes come out in order and FIN comes last. -/
theorem tx_stream_delivered (geo : Geometry) {c : Config Thread TxStream}
    (hc : Reachable Menu (init geo) c) : Delivered c := by
  have h := outline.reachable outline_sound (init_inv geo) (init_idle geo) hc
  have hinv : Inv c.mem := h.1
  refine ⟨hinv.calls, fun hi => AsyncioIdle.sent (h.idle hi), hinv.handed,
    fun before f after heq hf => ?_,
    hinv.finLast, fun hi => AsyncioIdle.ended (h.idle hi)⟩
  obtain ⟨hfin, hall⟩ := hinv.fin ⟨f, by rw [heq]; simp, hf⟩
  refine ⟨?_, hfin⟩
  have hnil := hinv.finLast before f after heq hf
  have hsplit : handedBytes (before ++ f :: after) = handedBytes (before ++ [f]) ++ handedBytes
    after := by
    simp [handedBytes]
  rw [← hall, TxStream.handed, heq, hsplit, hnil, List.append_nil]

/-- On a ring of two bytes: a write is pulled, a second write wraps and ends the stream, a pull
reads the FIN flag before it is set and the tail after the bytes are in, and a last pull hands the
FIN. -/
def lateFinRun : Config Thread TxStream :=
  ((((((Config.start (init (.ofExp 1 Geometry.exp_one))).call .asyncio
    (sendCall [1] 2 false false)).drive
    (.replicate 11 .asyncio)).call .worker (prepareToSendCall 4 1 1000)).drive
      (.replicate 13 .worker)).call
    .asyncio (sendCall [2, 3] 2 true false)).call .worker (provideDataCall 4 1 7 1000)
    |>.drive (.replicate 2 .worker ++ .replicate 12 .asyncio ++ .replicate 13 .worker)
    |>.call .worker (provideDataCall 4 1 7 1000) |>.drive (.replicate 13 .worker)

theorem tx_stream_delivered_lateFinRun :
    lateFinRun.mem.frames = [⟨[1], false⟩, ⟨[2, 3], false⟩, ⟨[], true⟩] ∧ Delivered lateFinRun := by
  have h₀ : Reachable Menu (init (.ofExp 1 (by decide)))
    (Config.start (init (.ofExp 1 (by decide)))) :=
    .refl
  have h₁ := (h₀.call (i := .asyncio) rfl (.send _ [1] 2 false false (by decide) rfl)).drive
    (.replicate 11 .asyncio)
  have h₂ := (h₁.call (i := .worker) rfl (.prepareToSend _ 4 1 1000)).drive (.replicate 13 .worker)
  have h₃ := h₂.call (i := .asyncio) rfl (.send _ [2, 3] 2 true false (by decide) rfl)
  have h₄ := (h₃.call (i := .worker) rfl (.provideData _ 4 1 7 1000)).drive
    (.replicate 2 .worker ++ .replicate 12 .asyncio ++ .replicate 13 .worker)
  have h₅ := (h₄.call (i := .worker) rfl (.provideData _ 4 1 7 1000)).drive (.replicate 13 .worker)
  exact ⟨by decide, tx_stream_delivered _ h₅⟩

end TxStream

end Aiopquic
