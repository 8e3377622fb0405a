import Aiopquic.RxCredit

/-!
# Credit at a callback

The worker's side of the credit: what `stream_data` and `stream_fin` do to the ring and to the
grants.
-/

namespace Aiopquic

open Interleave Interleave.Prog Circular

namespace RxCredit

variable {r : CreditSite} {strict : Prop} {s s' : RxCredit} {e : Entry} {n : ℕ}

/-! ## The worker's steps -/

/-- The worker's contract. -/
def worker (r : CreditSite) (strict : Prop) : Contract RxCredit :=
  (outline r strict).contract .worker

/-- Bytes or the FIN are added to the RX ring. -/
theorem Inv.feed (hs : Inv r strict s) {b : StreamBuf} (hsome : s.sc.rx.isSome = true)
    (hm : StreamBuf.ProducerMoves s.sc.rxBuf b) (hb : b.Wf) (htail : b.tail ≤ s.received.length)
    (hfin : b.finPending = true → s.finished = true) : Inv r strict (rxLoc.set b s) := by
  refine ⟨hs.ring, hb, fun _ => ?_, htail, hs.received_le, hs.window_le, ?_, hs.mark_le, hfin,
    fun hw => ?_,
    hs.overflows, fun hst _ hf hg => ?_⟩
  · show b.geo.capacity = r.cap
    rw [hm.geo]
    exact hs.cap hsome
  · show s.sc.rxConsumed + s.sc.bytesPendingRelease ≤ b.head
    rw [hm.head]
    exact hs.counted
  · show s.limit ≤ b.head + r.cap
    rw [hm.head]
    exact hs.limit_le hw
  · refine hs.credited hst hsome ?_ hg
    by_contra hne
    have hb' : b.finPending = true := hm.fin (by simpa using hne)
    exact absurd (hb'.symm.trans hf) (by simp)

theorem WorkerMoves.feed {b : StreamBuf} (hm : StreamBuf.ProducerMoves s.sc.rxBuf b) :
    WorkerMoves s (rxLoc.set b s) :=
  ⟨⟨fun _ => rfl, fun _ => hm, hm.head, hm.writes, rfl, rfl⟩, rfl, .refl _, rfl⟩

/-- The limit is raised within what the ring can take. -/
theorem Inv.openFlowControl (hs : Inv r strict s) {grant : ℕ}
    (hle : r.window ≤ r.cap → s.received.length + grant ≤ s.sc.rxBuf.head + r.cap) :
    Inv r strict (s.openFlowControl grant) := by
  refine ⟨hs.ring, hs.rx, hs.cap, hs.tail_le, hs.received_le.trans (le_max_left _ _),
    hs.window_le.trans (le_max_left _ _), hs.counted, hs.mark_le, hs.fin,
    fun hw => max_le (hs.limit_le hw) (hle hw), hs.overflows, fun hst hsome hf hg => ?_⟩
  rcases hs.credited hst hsome hf hg with h | h
  · exact .inl (h.trans (le_max_left _ _))
  · exact .inr h

/-- What the worker finds free: the ring at the tail, with a head not later than now. -/
theorem bufFree_spec {note : RxCredit → RxCredit} {Q : ℕ → RxCredit → Prop}
    (hsome : s.sc.rx.isSome = true)
    (h : ∀ t, AsyncioMoves r strict s t → Inv r strict t →
      WorkerMoves t (note t) ∧ Inv r strict (note t) ∧
        Q (r.cap - (s.sc.rxBuf.tail - t.sc.rxBuf.head)) (note t)) :
    wp (worker r strict) (bufFree note) Q s := by
  unfold bufFree
  refine wp_load_bind fun t hst ht => ?_
  refine wp_rmw_bind fun u htu hu => ?_
  have hsu : AsyncioMoves r strict s u := AsyncioMoves.trans hst htu
  have htu' : AsyncioMoves r strict t u := htu
  obtain ⟨hg, hi, hq⟩ := h u hsu hu
  have hcap : u.sc.rxBuf.geo.capacity = r.cap := hu.cap (hsu.isSome.trans hsome)
  refine ⟨hg, hi, ?_⟩
  have hfree := hu.rx.sub32_diff32 (t := t.sc.rxBuf.tail) (h := u.sc.rxBuf.head)
    htu'.buf.tail.symm rfl
  rw [wp_pure, ← htu'.buf.geo, hfree, hcap, hsu.buf.tail]
  exact hq

/-! ### A callback -/

/-- A callback that has been given `data` and has not looked at the ring yet. -/
structure Receiving (r : CreditSite) (data : List UInt8) (s : RxCredit) : Prop where
  claimed : s.ring.claimed = false
  sampled : s.sampled = none
  granting : s.granting = false
  tail_le : s.sc.rxBuf.tail + data.length ≤ s.received.length
  fresh : s.sc.rx = none → s.limit = r.window ∧ s.received = data
  bytes : r.window ≤ r.cap → s.sc.rxBytes ++ data = s.received

/-- A callback that has made sure of the ring. `first` says that it created it. -/
structure Stocked (r : CreditSite) (first : Bool) (data : List UInt8) (s : RxCredit) : Prop where
  isSome : s.sc.rx.isSome = true
  claimed : s.ring.claimed = false
  sampled : s.sampled = none
  granting : s.granting = true ↔ first = true ∧ r.window < r.advertiseCap.toNat
  tail_le : s.sc.rxBuf.tail + data.length ≤ s.received.length
  fits : r.window ≤ r.cap ∨ s.granting = true →
    s.sc.rxBuf.tail + data.length ≤ s.sc.rxBuf.head + r.cap
  bytes : r.window ≤ r.cap → s.sc.rxBytes ++ data = s.received

theorem Receiving.stable {data : List UInt8} (h : Receiving r data s)
    (hm : AsyncioMoves r strict s s') :
    Receiving r data s' := by
  refine ⟨hm.ring.claimed.trans h.claimed, hm.kept.sampled.trans h.sampled,
    hm.kept.granting.trans h.granting, ?_, fun hn => ?_, fun hw => ?_⟩
  · rw [hm.buf.tail, hm.kept.received]
    exact h.tail_le
  · rw [hm.kept.limit, hm.kept.received]
    exact h.fresh (hm.rx_eq_none hn)
  · rw [hm.kept.received, ← h.bytes hw]
    exact congrArg (List.flatten · ++ data) hm.buf.writes

theorem Stocked.stable {first : Bool} {data : List UInt8} (h : Stocked r first data s)
    (hm : AsyncioMoves r strict s s') : Stocked r first data s' := by
  refine ⟨hm.isSome.trans h.isSome, hm.ring.claimed.trans h.claimed,
    hm.kept.sampled.trans h.sampled,
    ?_, ?_, fun hf => ?_, fun hw => ?_⟩
  · rw [hm.kept.granting]
    exact h.granting
  · rw [hm.buf.tail, hm.kept.received]
    exact h.tail_le
  · rw [hm.kept.granting] at hf
    have := h.fits hf
    have := hm.buf.head_le
    rw [hm.buf.tail]
    omega
  · rw [hm.kept.received, ← h.bytes hw]
    exact congrArg (List.flatten · ++ data) hm.buf.writes

/-- The RX ring while a callback that began at `s₀` pushes to it. -/
theorem embeds_push (s₀ : RxCredit) :
    Embeds (worker r strict) rxLoc
      (StreamBuf.producer fun b data => b.bytes.length + data.length ≤ s₀.received.length)
      (fun s => s.sc.rx.isSome = true ∧ s.ring.claimed = false ∧ Kept s₀ s) where
  inv := fun s hs => hs.rx
  rely := by
    rintro s t ⟨hsome, hcl, hk⟩ hm -
    exact ⟨hm.buf, hm.isSome.trans hsome, hm.ring.claimed.trans hcl, hk.trans hm.kept⟩
  step := by
    rintro s b hs ⟨hsome, hcl, hk⟩ hstep hb
    have hfin : b.finPending = s.sc.rxBuf.finPending := by cases hstep <;> rfl
    have htail : b.tail ≤ s.received.length := by
      cases hstep with
      | stay => exact hs.tail_le
      | copy m h => exact hs.tail_le
      | hash x => exact hs.tail_le
      | publish data h =>
        show s.sc.rxBuf.tail + data.length ≤ s.received.length
        rw [hk.received, ← hs.rx.length]
        exact h
    exact ⟨.feed hstep.moves, hs.feed hsome hstep.moves hb htail fun hf =>
      hs.fin (hfin.symm.trans hf),
      rfl, hcl, hk.limit, hk.overflows, hk.received, hk.finished, hk.granting, hk.sampled⟩

/-- The ring takes all of the data, if it is to fit, or the callback counts an overflow. -/
theorem push_spec {first : Bool} {data : List UInt8} (hs : Inv r strict s)
    (h : Stocked r first data s) :
    wp (worker r strict) (if data = [] then pure 0 else (StreamBuf.push data).on rxLoc)
      (fun pushed t => Kept s t ∧ t.sc.rx.isSome = true ∧ t.ring.claimed = false ∧
        (pushed = data.length → r.window ≤ r.cap → t.sc.rxBytes = t.received) ∧
        (r.window ≤ r.cap ∨ s.granting = true → pushed = data.length)) s := by
  split
  · rename_i hnil
    subst hnil
    refine ⟨.refl s, h.isSome, h.claimed, fun _ hw => ?_, fun _ => rfl⟩
    rw [← h.bytes hw, List.append_nil]
  rename_i hne
  have hlen : s.sc.rxBuf.bytes.length = s.sc.rxBuf.tail := hs.rx.length
  have hallow : ∀ hd, s.sc.rxBuf.head ≤ hd → StreamBuf.Allows
      (fun b d => b.bytes.length + d.length ≤ s.received.length) s.sc.rxBuf
      (data.take (min data.length (s.sc.rxBuf.geo.capacity - (s.sc.rxBuf.tail - hd)))) := by
    intro hd _ b' _ hw _
    have hb : b'.bytes.length = s.sc.rxBuf.bytes.length := by
      rw [StreamBuf.bytes, StreamBuf.bytes, hw]
    rw [hb, hlen, List.length_take]
    have := h.tail_le
    omega
  refine wp_mono (wp_on (embeds_push s) ⟨h.isSome, h.claimed, .refl s⟩
    (StreamBuf.push_spec hne hallow)) hs fun pushed t ht hpost => ?_
  obtain ⟨⟨hd, hle, -, hpushed, hres⟩, hsome, hcl, hk⟩ := hpost
  refine ⟨hk, hsome, hcl, fun hall hw => ?_, fun hf => ?_⟩
  · have hpos := List.length_pos_iff.2 hne
    rw [if_neg (by omega), hall, List.take_length] at hres
    rw [hk.received, ← h.bytes hw]
    show t.sc.rxBuf.writes.flatten = s.sc.rxBuf.writes.flatten ++ data
    rw [show t.sc.rxBuf.writes = s.sc.rxBuf.writes ++ [data] from hres.writes, List.flatten_append,
      List.flatten_singleton]
  · have hfits := h.fits hf
    have hcap : s.sc.rxBuf.geo.capacity = r.cap := hs.cap h.isSome
    have hle' : s.sc.rxBuf.head ≤ hd := hle
    have hhead := hs.rx.head_le
    have : pushed = min data.length (s.sc.rxBuf.geo.capacity - (s.sc.rxBuf.tail - hd)) := hpushed
    omega

/-- What is free from the tail on reaches a ring's length past the head. -/
theorem Inv.tail_add_free (hs : Inv r strict s) (hsome : s.sc.rx.isSome = true) {h : ℕ}
    (hle : s.sc.rxBuf.head ≤ h) (hle' : h ≤ s.sc.rxBuf.tail) :
    s.sc.rxBuf.tail + (r.cap - (s.sc.rxBuf.tail - h)) = h + r.cap := by
  have htail := hs.rx.tail_le
  rw [hs.cap hsome] at htail
  omega

/-- The worker's tail is ahead of every head. -/
theorem AsyncioMoves.head_le_tail (hm : AsyncioMoves r strict s s') (hs' : Inv r strict s') :
    s'.sc.rxBuf.head ≤ s.sc.rxBuf.tail := by
  rw [← hm.buf.tail]
  exact hs'.rx.head_le

/-- The first grant raises the limit to the ring. -/
theorem firstGrant_spec (hs : Inv r strict s) (hsome : s.sc.rx.isSome = true)
    (hcl : s.ring.claimed = false) (hsam : s.sampled = none)
    (hbytes : r.window ≤ r.cap → s.sc.rxBytes = s.received) :
    wp (worker r strict) firstGrant (fun _ => WorkerIdle r) s := by
  unfold firstGrant
  refine wp_seq (R := fun free t => AsyncioMoves r strict s t ∧ ∃ h, s.sc.rxBuf.head ≤ h ∧
    h ≤ t.sc.rxBuf.head ∧ free = r.cap - (s.sc.rxBuf.tail - h)) ?_ hs fun free t ht hfree => ?_
  · apply bufFree_spec hsome
    intro t hst ht
    exact ⟨.refl t, ht, hst, t.sc.rxBuf.head, hst.buf.head_le, le_rfl, rfl⟩
  obtain ⟨hst, h, hle, hle', rfl⟩ := hfree
  refine wp_modify fun u htu hu => ?_
  have hsu : AsyncioMoves r strict s u := hst.trans htu
  have hmono : t.sc.rxBuf.head ≤ u.sc.rxBuf.head := AsyncioMoves.buf htu |>.head_le
  have htail := hs.tail_add_free hsome hle (hle'.trans (hst.head_le_tail ht))
  -- picoquic's count of the delivered bytes is at least the ring's
  have hrec : s.sc.rxBuf.tail ≤ u.received.length := by
    rw [← hsu.buf.tail]
    exact hu.tail_le
  have hbytes' : r.window ≤ r.cap → u.sc.rxBytes = u.received := by
    intro hw
    rw [hsu.kept.received, ← hbytes hw]
    exact congrArg List.flatten hsu.buf.writes
  have hopen : Inv r strict (u.openFlowControl (r.cap - (s.sc.rxBuf.tail - h))) := by
    refine Inv.openFlowControl hu fun hw => ?_
    have hlen : u.sc.rxBytes.length = u.sc.rxBuf.tail := hu.rx.length
    rw [← hbytes' hw, hlen, hsu.buf.tail]
    omega
  have hinv : Inv r strict
    { u.openFlowControl (r.cap - (s.sc.rxBuf.tail - h)) with granting := false } := by
    refine { hopen with credited := fun hstr _ _ _ => ?_ }
    rcases hsu.news hstr with heq | hp | hd
    · have hcover : u.received.length + (r.cap - (s.sc.rxBuf.tail - h)) ≤
          max u.limit (u.received.length + (r.cap - (s.sc.rxBuf.tail - h))) := le_max_right _ _
      have := hs.mark_le
      have := hs.counted
      refine .inl ?_
      show u.sc.lastFcPushConsumed + r.cap ≤ max u.limit (u.received.length + _)
      omega
    · refine .inr (.inl (Pushed.of_le (n := s.ring.log.length) hp ?_))
      show u.ring.head ≤ s.ring.log.length
      rw [hsu.ring.head, hs.ring.length]
      exact hs.ring.head_le
    · exact .inr (.inr hd)
  refine ⟨⟨.refl _, rfl, .refl _, rfl⟩, hinv, ⟨hsu.kept.sampled.trans hsam,
    fun hg => absurd hg (by simp), fun hn => ?_, hbytes'⟩, hsu.ring.claimed.trans hcl⟩
  have : u.sc.rx.isSome = true := hsu.isSome.trans hsome
  rw [show u.sc.rx = none from hn] at this
  exact absurd this (by simp)

theorem rxBuf_of_none (h : s.sc.rx = none) : s.sc.rxBuf = StreamCtx.noBuf := by
  rw [StreamCtx.rxBuf, h]
  rfl

/-- The first callback creates the ring. -/
theorem createRx_step (hs : Inv r strict s) (hnone : s.sc.rx = none) {data : List UInt8}
    (h : Receiving r data s) :
    WorkerMoves s (createRx r s) ∧ Inv r strict (createRx r s) ∧
    Stocked r true data (createRx r s) := by
  have hbuf := rxBuf_of_none hnone
  have hcounted := hs.counted
  have hlimit := hs.limit_le
  have htail := h.tail_le
  have hbytes := h.bytes
  rw [StreamCtx.rxBytes, hbuf] at hbytes
  rw [hbuf] at hcounted hlimit htail
  obtain ⟨hlim, hrec⟩ := h.fresh hnone
  have hle := hs.received_le
  rw [hrec, hlim] at hle
  have hcap := r.cap_eq
  refine ⟨⟨⟨fun _ => rfl, ?_, ?_, ?_, rfl, rfl⟩, rfl, .refl _, rfl⟩, ?_, ?_⟩
  · intro hsome
    rw [hnone] at hsome
    exact absurd hsome (by simp)
  · rw [hbuf]
    rfl
  · rw [StreamCtx.rxWrites, hbuf]
    exact List.nil_prefix
  · refine ⟨hs.ring, StreamBuf.create_wf _ _, fun _ => rfl, Nat.zero_le _, hs.received_le,
      hs.window_le,
      hcounted, hs.mark_le, fun hf => absurd hf Bool.false_ne_true, hlimit, hs.overflows,
      fun _ _ _ hg => .inl ?_⟩
    -- without a first grant the handshake window is at least the ring
    have hge : ¬ r.window < r.advertiseCap.toNat := of_decide_eq_false hg
    have hmark := hs.mark_le
    have hwin := hs.window_le
    have hzero : StreamCtx.noBuf.head = 0 := rfl
    show s.sc.lastFcPushConsumed + r.cap ≤ s.limit
    omega
  · refine ⟨rfl, h.claimed, h.sampled, ?_, htail, fun hf => ?_, hbytes⟩
    · show decide (r.window < r.advertiseCap.toNat) = true ↔ _
      simp
    · show 0 + data.length ≤ 0 + r.cap
      rcases hf with hw | hg
      · omega
      · have hlt : r.window < r.advertiseCap.toNat := of_decide_eq_true hg
        omega

/-- Without a ring to create, the data fits if the window was within the ring. -/
theorem Receiving.stocked (hs : Inv r strict s) {data : List UInt8} (h : Receiving r data s)
    (hsome : s.sc.rx.isSome = true) : Stocked r false data s := by
  refine ⟨hsome, h.claimed, h.sampled, ?_, h.tail_le, fun hf => ?_, h.bytes⟩
  · rw [h.granting]
    simp
  · rcases hf with hw | hg
    · have := hs.limit_le hw
      have := hs.received_le
      have := h.tail_le
      omega
    · rw [h.granting] at hg
      exact absurd hg Bool.false_ne_true

/-- The bytes are in, or did not fit. -/
theorem receive_rest {first fin : Bool} {data : List UInt8} (hs : Inv r strict s)
    (h : Stocked r first data s) (hfin : fin = true → s.finished = true) :
    wp (worker r strict)
      (do let pushed ← (if data = [] then pure 0 else (StreamBuf.push data).on rxLoc)
          if pushed ≠ data.length then modify fun s => { s with overflows := s.overflows + 1 }
          else do
            when fin <| StreamBuf.setFin.on rxLoc
            when (first = true ∧ fin = false ∧ r.window < r.advertiseCap.toNat) firstGrant)
      (fun _ => WorkerIdle r) s := by
  refine wp_seq (push_spec hs h) hs fun pushed t ht hpost => ?_
  obtain ⟨hk, hsome, hcl, hbytes, hall⟩ := hpost
  have hsam : t.sampled = none := hk.sampled.trans h.sampled
  have hnotNone : ∀ {u : RxCredit}, u.sc.rx.isSome = true → u.sc.rx = none →
      u.limit = r.window ∧ u.received = [] := by
    intro u hu hn
    rw [hn] at hu
    exact absurd hu Bool.false_ne_true
  split
  · -- an overflow, which neither a first callback nor a small window can have
    rename_i hne
    have hw : ¬ r.window ≤ r.cap := fun hw => hne (hall (.inl hw))
    have hg : t.granting = false := by
      by_contra hg
      exact hne (hall (.inr (hk.granting.symm.trans (by simpa using hg))))
    refine wp_modify fun u htu hu => ?_
    have htu' : AsyncioMoves r strict t u := htu
    have hinv : Inv r strict { u with overflows := u.overflows + 1 } :=
      { (show Inv r strict u from hu) with overflows := fun hw' => absurd hw' hw }
    refine ⟨⟨.refl _, rfl, .refl _, rfl⟩, hinv, ⟨htu'.kept.sampled.trans hsam, fun hg' => ?_,
      hnotNone (u := u) (htu'.isSome.trans hsome), fun hw' => absurd hw' hw⟩,
        htu'.ring.claimed.trans hcl⟩
    rw [show u.granting = false from htu'.kept.granting.trans hg] at hg'
    exact absurd hg' Bool.false_ne_true
  rename_i heq
  have hbytes' : r.window ≤ r.cap → t.sc.rxBytes = t.received := hbytes (not_not.1 heq)
  cases fin with
  | true =>
    refine wp_modify_bind fun u htu hu => ?_
    have htu' : AsyncioMoves r strict t u := htu
    have hu' : Inv r strict u := hu
    have husome : u.sc.rx.isSome = true := htu'.isSome.trans hsome
    have hm : StreamBuf.ProducerMoves u.sc.rxBuf { u.sc.rxBuf with finPending := true } :=
      ⟨rfl, rfl, rfl, List.prefix_rfl, fun _ => rfl⟩
    have hdone : u.finished = true := htu'.kept.finished.trans (hk.finished.trans (hfin rfl))
    refine ⟨.feed hm, hu'.feed husome hm ⟨hu'.rx.window, hu'.rx.length⟩ hu'.tail_le fun _ => hdone,
      ?_⟩
    show wp _ (when (first = true ∧ true = false ∧ r.window < r.advertiseCap.toNat) firstGrant) _ _
    unfold when
    split
    · rename_i hc
      exact absurd hc.2.1 (by simp)
    · refine ⟨⟨htu'.kept.sampled.trans hsam, fun _ => rfl,
        fun hn => absurd hn (by simp [rxLoc, Loc.comp, scLoc, StreamCtx.rxLoc]), fun hw => ?_⟩,
        htu'.ring.claimed.trans hcl⟩
      show u.sc.rxBytes = u.received
      rw [htu'.kept.received, ← hbytes' hw]
      exact congrArg List.flatten htu'.buf.writes
  | false =>
    show wp _ (when (first = true ∧ false = false ∧ r.window < r.advertiseCap.toNat) firstGrant) _ _
    unfold when
    split
    · exact firstGrant_spec ht hsome hcl hsam hbytes'
    · rename_i hno
      refine ⟨⟨hsam, fun hg => ?_, hnotNone hsome, hbytes'⟩, hcl⟩
      rw [hk.granting, h.granting] at hg
      exact absurd ⟨hg.1, rfl, hg.2⟩ hno

theorem receive_spec {fin : Bool} {data : List UInt8} (h : Receiving r data s)
    (hfin : fin = true → s.finished = true) :
    wp (worker r strict) (receive r data fin) (fun _ => WorkerIdle r) s := by
  unfold receive
  refine wp_load_bind fun t hst ht => ?_
  have hst' : AsyncioMoves r strict s t := hst
  have hr := h.stable hst'
  have hfin' : fin = true → t.finished = true := fun hf => hst'.kept.finished.trans (hfin hf)
  refine wp_when_bind (fun hnone => ?_) (fun hsome => ?_)
  · refine wp_modify_bind fun u htu hu => ?_
    have htu' : AsyncioMoves r strict t u := htu
    have hun : u.sc.rx = none := by
      have := htu'.isSome
      rw [show t.sc.rx = none by simpa using hnone] at this
      simpa using this
    obtain ⟨hg, hi, hstock⟩ := createRx_step hu hun (hr.stable htu')
    refine ⟨hg, hi, ?_⟩
    rw [show t.sc.rx.isNone = true from hnone]
    exact receive_rest hi hstock fun hf => htu'.kept.finished.trans (hfin' hf)
  · have hsome' : t.sc.rx.isSome = true := by
      rw [Option.isSome_iff_ne_none]
      simpa using hsome
    rw [show t.sc.rx.isNone = false by simpa using hsome']
    exact receive_rest ht (hr.stocked ht hsome') hfin'

/-- picoquic delivers within the limit. -/
theorem deliver_step {data : List UInt8} (fin : Bool) (hs : Inv r strict s) (hidle : WorkerIdle r s)
    (hlimit : s.received.length + data.length ≤ s.limit) (hfin : s.finished = false) :
    WorkerMoves s (deliver data fin s) ∧ Inv r strict (deliver data fin s) ∧
      Receiving r data (deliver data fin s) ∧
      (fin = true → (deliver data fin s).finished = true) := by
  have hnotFin : s.sc.rxBuf.finPending = false := by
    by_contra hf
    have := hs.fin (by simpa using hf)
    rw [hfin] at this
    exact absurd this Bool.false_ne_true
  have hlen : (deliver data fin s).received.length = s.received.length + data.length :=
    List.length_append
  have htail := hs.tail_le
  refine ⟨⟨.refl _, rfl, .refl _, rfl⟩, ?_, ?_, fun hf => ?_⟩
  · refine ⟨hs.ring, hs.rx, hs.cap, ?_, ?_, hs.window_le, hs.counted, hs.mark_le, fun hf => ?_,
      hs.limit_le,
      hs.overflows, hs.credited⟩
    · rw [hlen]
      exact htail.trans (Nat.le_add_right _ _)
    · rw [hlen]
      exact hlimit
    · rw [show s.sc.rxBuf.finPending = true from hf] at hnotFin
      exact absurd hnotFin (by simp)
  · refine ⟨hidle.claimed, hidle.sampled, ?_, ?_, fun hn => ?_, fun hw => ?_⟩
    · show s.granting = false
      by_contra hg
      have := hidle.granting (by simpa using hg)
      rw [hnotFin] at this
      exact absurd this Bool.false_ne_true
    · rw [hlen]
      exact Nat.add_le_add_right htail _
    · obtain ⟨hlim, hnil⟩ := hidle.fresh hn
      refine ⟨hlim, ?_⟩
      show s.received ++ data = data
      rw [hnil, List.nil_append]
    · show s.sc.rxBytes ++ data = s.received ++ data
      rw [hidle.bytes hw]
  · show (s.finished || fin) = true
    rw [hf, Bool.or_true]

/-- A callback within the limit. -/
theorem deliver_spec {data : List UInt8} (fin : Bool) {p : Prog RxCredit Unit}
    (hidle : WorkerIdle r s)
    (hlimit : s.received.length + data.length ≤ s.limit) (hfin : s.finished = false)
    (hp : ∀ t, Inv r strict t → Receiving r data t → (fin = true → t.finished = true) →
      wp (worker r strict) p (fun _ => WorkerIdle r) t) :
    wp (worker r strict) (do modify (deliver data fin); p) (fun _ => WorkerIdle r) s := by
  refine wp_modify_bind fun t hst ht => ?_
  have hst' : AsyncioMoves r strict s t := hst
  have hlimit' : t.received.length + data.length ≤ t.limit := by
    rw [hst'.kept.received, hst'.kept.limit]
    exact hlimit
  obtain ⟨hg, hi, hr, hf⟩ :=
    deliver_step fin ht (hidle.stable hst') hlimit' (hst'.kept.finished.trans hfin)
  exact ⟨hg, hi, hp _ hi hr hf⟩

theorem streamCb_spec {data : List UInt8} {fin : Bool} (hidle : WorkerIdle r s)
    (hlimit : s.received.length + data.length ≤ s.limit) (hfin : s.finished = false) :
    wp (worker r strict) (streamCb r data fin) (fun _ => WorkerIdle r) s := by
  refine deliver_spec fin hidle hlimit hfin fun t ht hr hf => ?_
  split
  · rename_i hnil
    refine ⟨⟨hr.sampled, fun hg => ?_, fun hn => ?_, fun hw => ?_⟩, hr.claimed⟩
    · rw [hr.granting] at hg
      exact absurd hg Bool.false_ne_true
    · rw [← hnil]
      exact hr.fresh hn
    · rw [← hr.bytes hw, hnil, List.append_nil]
  · exact receive_spec hr hf

end RxCredit

end Aiopquic
