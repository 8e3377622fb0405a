import Aiopquic.RxDeliveryInv

/-!
# The callbacks of a receiving stream

The proof outline of a receiving stream, and the worker's `stream_data` and `stream_fin` under it.
-/

namespace Aiopquic

open Interleave Interleave.Prog Circular RxQueue

namespace RxStream

variable {r : RxSite} {A : List Entry} {h : ℕ} {s t : RxStream} {e : Entry}

/-! ## The proof outline -/

/-- A step of the worker. -/
structure WorkerMoves (r : RxSite) (s t : RxStream) : Prop where
  queue : ProducerMoves s.rx.q t.rx.q
  sc : StreamCtx.RxFeeds s.sc t.sc
  fin : HasFin r s.accepted → t.sc.rxWrites = s.sc.rxWrites
  events : t.events = s.events
  seen : t.seen = s.seen
  recorded : t.recorded = s.recorded
  covered : t.covered = s.covered

/-- A step of the asyncio thread. -/
structure AsyncioMoves (s t : RxStream) : Prop where
  queue : ConsumerMoves s.rx.q t.rx.q
  isSome : t.sc.rx.isSome = s.sc.rx.isSome
  buf : StreamBuf.ConsumerMoves s.sc.rxBuf t.sc.rxBuf
  attached : t.attached = s.attached
  started : t.started = s.started
  finStarted : t.finStarted = s.finStarted
  emptyData : t.emptyData = s.emptyData
  arming : t.arming = s.arming
  owes : t.owes = s.owes

theorem HasFin.mono {B : List Entry} (hf : HasFin r A) (hp : A <+: B) : HasFin r B := by
  obtain ⟨f, hmem, hff⟩ := hf
  exact ⟨f, hp.subset hmem, hff⟩

theorem WorkerMoves.refl (s : RxStream) : WorkerMoves r s s :=
  ⟨.refl _, .refl _, fun _ => rfl, rfl, rfl, rfl, rfl⟩

theorem WorkerMoves.trans {s t u : RxStream} (h : WorkerMoves r s t) (h' : WorkerMoves r t u) :
    WorkerMoves r s u :=
  ⟨h.queue.trans h'.queue, h.sc.trans h'.sc,
    fun hf => (h'.fin (hf.mono h.queue.accepted)).trans (h.fin hf), h'.events.trans h.events,
    h'.seen.trans h.seen, h'.recorded.trans h.recorded, h'.covered.trans h.covered⟩

theorem AsyncioMoves.refl (s : RxStream) : AsyncioMoves s s :=
  ⟨.refl _, rfl, .refl _, rfl, rfl, rfl, rfl, rfl, rfl⟩

theorem AsyncioMoves.trans {s t u : RxStream} (h : AsyncioMoves s t) (h' : AsyncioMoves t u) :
    AsyncioMoves s u :=
  ⟨h.queue.trans h'.queue, h'.isSome.trans h.isSome, h.buf.trans h'.buf,
    h'.attached.trans h.attached,
    h'.started.trans h.started, h'.finStarted.trans h.finStarted, h'.emptyData.trans h.emptyData,
    h'.arming.trans h.arming, h'.owes.trans h.owes⟩

theorem AsyncioMoves.accepted (h : AsyncioMoves s t) : t.accepted = s.accepted := h.queue.accepted

theorem AsyncioMoves.writes (h : AsyncioMoves s t) : t.sc.rxWrites = s.sc.rxWrites := h.buf.writes

/-- The worker outside a callback. -/
structure WorkerIdle (r : RxSite) (s : RxStream) : Prop where
  insertOwed : s.rx.q.insertOwed = false
  writing : s.rx.q.ring.writing = false
  arming : s.arming = none
  owes : s.owes = false
  writes : s.sc.rxWrites = s.started
  fin : s.finStarted = true → HasFin r s.accepted

/-- The asyncio thread between two entries of a drain, or outside one. -/
structure AsyncioIdle (s : RxStream) : Prop where
  settled : Settled s.rx.q
  claimed : s.rx.q.ring.claimed = false
  seen : s.seen ≤ s.head
  recorded : s.recorded ≤ s.head
  delivered : (deliveredBytes s.events).length = s.sc.rxBuf.head
  covered : s.covered ≤ s.sc.rxBuf.head

theorem WorkerIdle.stable (h : WorkerIdle r s) (hm : AsyncioMoves s t) : WorkerIdle r t :=
  ⟨hm.queue.insertOwed.trans h.insertOwed, hm.queue.writing.trans h.writing,
    hm.arming.trans h.arming,
    hm.owes.trans h.owes, by rw [hm.writes, hm.started]; exact h.writes,
    fun hf => by rw [hm.accepted]; exact h.fin (hm.finStarted.symm.trans hf)⟩

theorem AsyncioIdle.stable (h : AsyncioIdle s) (hm : WorkerMoves r s t) : AsyncioIdle t := by
  have hhead : t.head = s.head := hm.queue.head
  refine ⟨h.settled.stable hm.queue, hm.queue.claimed.trans h.claimed, ?_, ?_, ?_, ?_⟩
  · rw [hm.seen, hhead]
    exact h.seen
  · rw [hm.recorded, hhead]
    exact h.recorded
  · rw [hm.events, hm.sc.head]
    exact h.delivered
  · rw [hm.covered, hm.sc.head]
    exact h.covered

/-- The rely–guarantee outline. -/
def outline (r : RxSite) : Outline (Menu r) :=
  duo (Inv r) (WorkerMoves r) AsyncioMoves (WorkerIdle r) AsyncioIdle .refl .trans .refl .trans
    (fun h hm _ => h.stable hm) (fun h hm _ => h.stable hm)

/-! ## The worker's operations -/

/-- The queue while the worker, which knows `G`, pushes an entry with `P` behind the entries `A`. -/
theorem embeds_push {P : Entry → Prop} {G : RxStream → Prop}
    (hG : ∀ s t, G s → AsyncioMoves s t → G t) (hrx : ∀ s rx, G s → G { s with rx := rx })
    (haccept : ∀ s e, Inv r s → G s → P e → s.accepted = A → Core r (A ++ [e]) s.head s) :
    Embeds ((outline r).contract .worker) qLoc (producer A.length P)
      (fun s => G s ∧ A <+: s.accepted) where
  inv := fun s hs => hs.queue
  rely := fun s t h hm _ => ⟨hm.queue, hG s t h.1 hm, by rw [hm.accepted]; exact h.2⟩
  step := by
    rintro s q hs ⟨hGs, hA⟩ hg hqi
    refine ⟨⟨hg.moves, .refl _, fun _ => rfl, rfl, rfl, rfl, rfl⟩, ⟨hqi, ?_⟩, hrx s _ hGs,
      hA.trans hg.moves.accepted⟩
    have hhead : q.ring.head = s.head := hg.moves.head
    show Core r q.accepted q.ring.head _
    rcases hg.accepted with hacc | ⟨hlen, e, he, hacc⟩
    · rw [hacc, hhead]
      exact hs.core.queue _
    · have hsA : s.accepted = A := (hA.eq_of_length hlen.symm).symm
      rw [hacc, hhead, show (qLoc.get s).accepted = A from hsA]
      exact (haccept s e hs hGs he hsA).queue _

/-- The notification of the wake fd is none of the stream's business. -/
theorem notifyRx_only : Only (fun s t => ∃ rx : WakeCtx, rx.q = s.rx.q ∧ t = { s with rx := rx })
    (WakeCtx.notifyRx.on rxLoc) := by
  rw [WakeCtx.notifyRx, on_bind, on_rmw]
  refine only_bind (only_rmw fun s => ⟨s.rx.setPending, rfl, rfl⟩) fun was => ?_
  cases was with
  | true => trivial
  | false =>
    show Only _ ((modify WakeCtx.workerWrite).on rxLoc)
    rw [on_modify]
    exact only_modify fun s => ⟨s.rx.workerWrite, rfl, rfl⟩

/-- Pushing an entry with `P`: it goes into the queue while the worker keeps `G`. -/
theorem rxPush_spec {P : Entry → Prop} {G : RxStream → Prop} {e : Entry} {data : List UInt8}
    (hs : Inv r s) (hi : s.rx.q.insertOwed = false) (hw : s.rx.q.ring.writing = false) (hGs : G s)
    (hslot : P (slot e data)) (hnode : P (node e data))
    (hG : ∀ s t, G s → AsyncioMoves s t → G t) (hrx : ∀ s rx, G s → G { s with rx := rx })
    (haccept : ∀ t f, Inv r t → G t → P f → t.accepted = s.accepted →
      Core r (s.accepted ++ [f]) t.head t) :
    wp ((outline r).contract .worker) ((WakeCtx.rxPush e data).on rxLoc)
      (fun _ t => G t ∧ t.rx.q.insertOwed = false ∧ t.rx.q.ring.writing = false ∧
        ∃ f, P f ∧ t.accepted = s.accepted ++ [f]) s := by
  rw [WakeCtx.rxPush, on_bind, on_on]
  refine wp_seq (wp_on (embeds_push hG hrx haccept) ⟨hGs, List.prefix_rfl⟩
    (pushOrOverflow_spec P e data hslot hnode hs.queue hi hw)) hs fun rc t ht h => ?_
  obtain ⟨⟨hrc, hpushed⟩, hGt, -⟩ := h
  rw [if_neg (by omega), on_bind]
  have hpost : G t ∧ t.rx.q.insertOwed = false ∧ t.rx.q.ring.writing = false ∧
      ∃ f, P f ∧ t.accepted = s.accepted ++ [f] :=
    ⟨hGt, hpushed.insertOwed, hpushed.writing, hpushed.accepted⟩
  refine wp_seq (wp_only notifyRx_only hpost ?_ ?_) ht fun _ u _ hu => hu
  · rintro u v ⟨hGu, hi, hw, f, hf, hacc⟩ hm -
    exact ⟨hG u v hGu hm, hm.queue.insertOwed.trans hi, hm.queue.writing.trans hw, f, hf,
      hm.accepted.trans hacc⟩
  · rintro u v hu ⟨hGu, hi, hw, f, hf, hacc⟩ ⟨rx, hrxq, rfl⟩
    have hq : ProducerMoves u.rx.q rx.q := by rw [hrxq]; exact .refl _
    refine ⟨⟨hq, .refl _, fun _ => rfl, rfl, rfl, rfl, rfl⟩, ⟨?_, ?_⟩, hrx u rx hGu, ?_,
      ?_, f, hf, ?_⟩
    · show rx.q.Inv
      rw [hrxq]
      exact hu.queue
    · show Core r rx.q.accepted rx.q.ring.head _
      rw [hrxq]
      exact hu.core.queue rx
    · show rx.q.insertOwed = false
      rw [hrxq]
      exact hi
    · show rx.q.ring.writing = false
      rw [hrxq]
      exact hw
    · show rx.q.accepted = _
      rw [hrxq]
      exact hacc

/-- `t` agrees with `s` on what only the worker changes, the queue aside. -/
structure SameCall (s t : RxStream) : Prop where
  arming : t.arming = s.arming
  owes : t.owes = s.owes
  writes : t.sc.rxWrites = s.sc.rxWrites
  started : t.started = s.started
  finStarted : t.finStarted = s.finStarted
  emptyData : t.emptyData = s.emptyData

theorem SameCall.stable {u : RxStream} (h : SameCall s t) (hm : AsyncioMoves t u) : SameCall s u :=
  ⟨hm.arming.trans h.arming, hm.owes.trans h.owes, hm.writes.trans h.writes,
    hm.started.trans h.started,
    hm.finStarted.trans h.finStarted, hm.emptyData.trans h.emptyData⟩

theorem SameCall.refl (s : RxStream) : SameCall s s := ⟨rfl, rfl, rfl, rfl, rfl, rfl⟩

/-- An event of another stream or kind. -/
theorem otherCb_spec {data : List UInt8} (hs : Inv r s) (hidle : WorkerIdle r s)
    (he : Foreign r e) :
    wp ((outline r).contract .worker) (otherCb e data) (fun _ => WorkerIdle r) s := by
  have hslot : Foreign r (slot e data) := by
    unfold slot
    split <;> exact he
  have hnode : Foreign r (node e data) := by
    unfold node
    split <;> exact he
  refine wp_seq (rxPush_spec (P := Foreign r) (G := SameCall s) hs hidle.insertOwed
    hidle.writing (.refl s)
    hslot hnode (fun _ _ h hm => h.stable hm) (fun _ _ h => ⟨h.1, h.2, h.3, h.4, h.5, h.6⟩) ?_) hs
    fun _ t _ h => ?_
  · intro t f ht hG hf hacc
    rw [← hacc]
    refine ht.core.accept (.inl hf) (fun _ hd => absurd (isData_ours hd) hf.1)
      (fun hd => absurd (isFin_ours hd) hf.1) (fun ho => absurd ho hf.1)
      (fun hd => absurd (isFin_ours hd) hf.1) (fun hd => absurd (isFin_ours hd) hf.1) fun ha => ?_
    rw [Armed, hG.arming, hidle.arming] at ha
    exact absurd ha (by simp)
  · obtain ⟨hG, hi, hw, f, -, hacc⟩ := h
    refine ⟨hi, hw, hG.arming.trans hidle.arming, hG.owes.trans hidle.owes, ?_, fun hf => ?_⟩
    · rw [hG.writes, hG.started]
      exact hidle.writes
    · rw [hacc]
      exact (hidle.fin (hG.finStarted.symm.trans hf)).mono (List.prefix_append _ _)

theorem own_entryOf (r : RxSite) (fin attached : Bool) : Own r (entryOf r fin attached) := by
  refine ⟨⟨?_, rfl, rfl⟩, ?_, fun hf => hf.1 rfl⟩
  · cases fin
    · exact .inl rfl
    · exact .inr rfl
  · cases attached
    · exact .inr rfl
    · exact .inl rfl

theorem isData_entryOf (r : RxSite) (fin attached : Bool) :
    isData r (entryOf r fin attached) = !fin := by
  cases fin <;> simp [isData, entryOf]

theorem isFin_entryOf (r : RxSite) (fin attached : Bool) :
    isFin r (entryOf r fin attached) = fin := by
  cases fin <;> simp [isFin, entryOf]

/-- The notification of a callback goes into the queue, and with it the callback ends. -/
theorem notify_spec {fin attached : Bool} (hs : Inv r s) (hi : s.rx.q.insertOwed = false)
    (hw : s.rx.q.ring.writing = false) (howes : s.owes = false)
    (hwrites : s.sc.rxWrites = s.started)
    (hfin : s.finStarted = fin) (hno : ¬ HasFin r s.accepted)
    (hdata : s.emptyData = 0 → fin = false → s.arming = some s.accepted.length)
    (hatt : s.arming ≠ none → attached = true) (horphan : attached = false → s.sc.rxWrites = []) :
    wp ((outline r).contract .worker) (notify (entryOf r fin attached)) (fun _ => WorkerIdle r)
    s := by
  unfold notify
  refine wp_seq (rxPush_spec (P := (· = entryOf r fin attached)) (G := SameCall s) hs hi
    hw (.refl s)
    rfl rfl (fun _ _ h hm => h.stable hm) (fun _ _ h => ⟨h.1, h.2, h.3, h.4, h.5, h.6⟩) ?_) hs
    fun _ t ht h => ?_
  · rintro t _ ht hG rfl hacc
    rw [← hacc]
    refine ht.core.accept (.inr (own_entryOf r fin attached)) (fun h0 hd => ?_) (fun hf => ?_)
      (fun _ => by rw [hacc]; exact hno) (fun _ hctx => ?_)
      (fun _ => by rw [hG.writes, hG.started]; exact hwrites) fun ha => ?_
    · rw [isData_entryOf] at hd
      have hff : fin = false := by simpa using hd
      have harm := hdata (hG.emptyData.symm.trans h0) hff
      refine ⟨?_, ?_, ?_⟩
      · rw [hatt (by rw [harm]; simp)]
        rfl
      · rw [Armed, hG.arming, harm, hacc]
      · rw [hG.finStarted, hfin, hff]
    · rw [isFin_entryOf] at hf
      rw [hG.finStarted, hfin, hf]
    · rw [hG.writes]
      refine horphan ?_
      cases attached with
      | true => exact absurd rfl hctx
      | false => rfl
    · refine ⟨(own_entryOf r fin attached).ours.1, ?_⟩
      have hne : s.arming ≠ none := by
        rw [← hG.arming, show t.arming = _ from ha]
        simp
      rw [hatt hne]
      rfl
  obtain ⟨hG, hi, hw, f, rfl, hacc⟩ := h
  refine wp_modify fun u htu hu => ?_
  have hG := hG.stable htu
  have hacc' : u.accepted = s.accepted ++ [entryOf r fin attached] := htu.accepted.trans hacc
  have hna : ¬ Armed u.accepted u := by
    intro ha
    have := hs.core.arming_le _ (hG.arming.symm.trans ha)
    rw [hacc'] at this
    simp at this
  refine ⟨⟨.refl _, .refl _, fun _ => rfl, rfl, rfl, rfl, rfl⟩, ⟨hu.queue, hu.core.disarm hna⟩, ?_⟩
  refine ⟨htu.queue.insertOwed.trans hi, htu.queue.writing.trans hw, rfl, hG.owes.trans howes, ?_,
    fun hf => ?_⟩
  · show u.sc.rxWrites = u.started
    rw [hG.writes, hG.started]
    exact hwrites
  · have hff : fin = true := by
      rw [← hfin, ← hG.finStarted]
      exact hf
    show HasFin r u.accepted
    rw [hacc']
    exact ⟨entryOf r fin attached, by simp, by rw [isFin_entryOf, hff]⟩

/-- A callback with the bytes `data` that come after the writes `W`: it has yet to notify, and its
FIN is not in the queue. -/
structure Calling (r : RxSite) (W : List (List UInt8)) (data : List UInt8) (fin : Bool)
    (s : RxStream) :
    Prop where
  insertOwed : s.rx.q.insertOwed = false
  writing : s.rx.q.ring.writing = false
  arming : s.arming = none
  owes : s.owes = true
  attached : s.attached = true
  started : s.started = W ++ [data]
  finStarted : s.finStarted = fin
  noFin : ¬ HasFin r s.accepted

theorem Calling.stable {W : List (List UInt8)} {data : List UInt8} {fin : Bool}
    (h : Calling r W data fin s) (hm : AsyncioMoves s t) : Calling r W data fin t :=
  ⟨hm.queue.insertOwed.trans h.insertOwed, hm.queue.writing.trans h.writing,
    hm.arming.trans h.arming,
    hm.owes.trans h.owes, hm.attached.trans h.attached, hm.started.trans h.started,
    hm.finStarted.trans h.finStarted, by rw [hm.accepted]; exact h.noFin⟩

/-- The byte ring while the worker pushes `data` into it. -/
theorem embeds_producer {W : List (List UInt8)} {data : List UInt8} {fin : Bool} :
    Embeds ((outline r).contract .worker) ringLoc
      (StreamBuf.producer fun b d => b.writes = W ∧ d = data)
      (fun s => Calling r W data fin s ∧ s.sc.rx.isSome = true) where
  inv := fun s hs => hs.core.ring
  rely := fun s t h hm _ => ⟨hm.buf, h.1.stable hm, hm.isSome.trans h.2⟩
  step := by
    rintro s b hs ⟨hcall, hsome⟩ hstep hb
    have hm := hstep.moves
    have hfeeds : StreamCtx.RxFeeds s.sc { s.sc with rx := some b } :=
      ⟨fun _ => rfl, fun _ => hm, hm.head, hm.writes, rfl, rfl⟩
    have hst : b.writes <+: s.started := by
      cases hstep with
      | stay => exact hs.core.started
      | copy m h => exact hs.core.started
      | hash x => exact hs.core.started
      | publish d h =>
        obtain ⟨hw, rfl⟩ := h
        show s.sc.rxBuf.writes ++ [d] <+: s.started
        rw [hcall.started, show s.sc.rxBuf.writes = W from hw]
    have hcore := hs.core.feed hfeeds hb rfl hst (.inl hcall.owes) (fun hf => absurd hf hcall.noFin)
      (.inl hcall.attached)
    exact ⟨⟨.refl _, hfeeds, fun hf => absurd hf hcall.noFin, rfl, rfl, rfl, rfl⟩,
      ⟨hs.queue, hcore⟩,
      ⟨hcall.1, hcall.2, hcall.3, hcall.4, hcall.5, hcall.6, hcall.7, hcall.8⟩, rfl⟩

/-- A callback whose bytes are in the ring notifies. -/
theorem announce_spec {W : List (List UInt8)} {data : List UInt8} {fin : Bool}
    (hcall : Calling r W data fin s) (hwrites : s.sc.rxWrites = W ++ [data]) :
    wp ((outline r).contract .worker) (announce r fin) (fun _ => WorkerIdle r) s := by
  unfold announce
  cases fin with
  | true =>
    rw [if_pos rfl, StreamBuf.setFin, on_modify]
    refine wp_modify_bind fun t hst ht => ?_
    have hcall := hcall.stable hst
    have hfeeds :
      StreamCtx.RxFeeds t.sc (scLoc.get (ringLoc.set { t.sc.rxBuf with finPending := true } t)) :=
      ⟨fun _ => rfl, fun _ => ⟨rfl, rfl, rfl, List.prefix_rfl, fun _ => rfl⟩, rfl,
        List.prefix_rfl, rfl, rfl⟩
    have hcore := ht.core.feed hfeeds ⟨ht.core.ring.window, ht.core.ring.length⟩ rfl ht.core.started
      (.inl hcall.owes) (fun _ => rfl) (.inl hcall.attached)
    refine ⟨⟨.refl _, hfeeds, fun _ => rfl, rfl, rfl, rfl, rfl⟩, ⟨ht.queue, hcore⟩, ?_⟩
    refine wp_modify_bind fun u htu hu => ?_
    have hset : Calling r W data true (ringLoc.set { t.sc.rxBuf with finPending := true } t) :=
      ⟨hcall.1, hcall.2, hcall.3, hcall.4, hcall.5, hcall.6, hcall.7, hcall.8⟩
    have hcall := hset.stable htu
    have huw : u.sc.rxWrites = u.started := by
      rw [htu.writes, hcall.started, ← hwrites, ← hst.writes]
      rfl
    have hinv : Inv r u.armFin := ⟨hu.queue, hu.core.armFin hcall.arming hcall.finStarted⟩
    refine ⟨⟨.refl _, .refl _, fun _ => rfl, rfl, rfl, rfl, rfl⟩, hinv, ?_⟩
    exact notify_spec hinv hcall.insertOwed hcall.writing rfl huw hcall.finStarted hcall.noFin
      (fun _ h => by simp at h) (fun _ => rfl) fun h => by simp at h
  | false =>
    rw [if_neg (by simp)]
    refine wp_rmw_bind fun t hst ht => ?_
    have hcall := hcall.stable hst
    have htw : t.sc.rxWrites = t.started := by
      rw [hst.writes, hwrites, hcall.started]
    have hinv : Inv r t.armEvent := ⟨ht.queue, ht.core.armEvent hcall.arming⟩
    refine ⟨⟨.refl _, ⟨id, fun _ => .refl _, rfl, List.prefix_rfl, rfl, rfl⟩, fun _ => rfl, rfl,
      rfl, rfl, rfl⟩,
      hinv, ?_⟩
    cases hp : t.sc.rxEventPending with
    | true =>
      exact ⟨hcall.insertOwed, hcall.writing, by simp [armEvent, hp], rfl, htw,
        fun hf => absurd (hcall.finStarted.symm.trans hf) (by simp)⟩
    | false =>
      have harm : t.armEvent.arming = some t.accepted.length := by simp [armEvent, hp]
      exact notify_spec hinv hcall.insertOwed hcall.writing rfl htw hcall.finStarted hcall.noFin
        (fun _ _ => harm) (fun _ => rfl) fun h => by simp at h

/-- The bytes of a callback go into the ring, and the worker notifies. -/
theorem pushBytes_spec {W : List (List UInt8)} {data : List UInt8} {fin : Bool} (hs : Inv r s)
    (hcall : Calling r W data fin s) (hwrites : s.sc.rxWrites = W) (hsome : s.sc.rx.isSome = true)
    (hdata : data ≠ [])
    (hroom : s.sc.rxBuf.tail + data.length ≤ s.sc.rxBuf.head + s.sc.rxBuf.geo.capacity) :
    wp ((outline r).contract .worker)
      (do let pushed ← (StreamBuf.push data).on ringLoc
          if pushed ≠ data.length then modify fun s => { s with overflows := s.overflows + 1 }
          else announce r fin) (fun _ => WorkerIdle r) s := by
  have hallow : StreamBuf.Allows (fun b d => b.writes = W ∧ d = data) s.sc.rxBuf data :=
    fun b _ hb _ => ⟨hb.trans hwrites, rfl⟩
  refine wp_seq (wp_on embeds_producer ⟨hcall, hsome⟩
    (StreamBuf.push_fits hs.core.ring hdata hallow hroom)) hs fun pushed t ht h => ?_
  obtain ⟨⟨hlen, hcommit⟩, hcall, -⟩ := h
  rw [if_neg (by simpa using hlen)]
  refine announce_spec hcall ?_
  rw [← hwrites]
  exact hcommit.writes

theorem room_le (h : s.sc.rx.isSome = true) (hw : s.sc.rxBuf.Wf) {n : ℕ} (hn : n ≤ room r s) :
    s.sc.rxBuf.tail + n ≤ s.sc.rxBuf.head + s.sc.rxBuf.geo.capacity := by
  rw [room, if_pos h] at hn
  have := hw.head_le
  have := hw.tail_le
  omega

/-- The asyncio thread only makes room. -/
theorem room_stable (hm : AsyncioMoves s t) {n : ℕ} (hn : n ≤ room r s) : n ≤ room r t := by
  unfold room at hn ⊢
  rw [hm.isSome, hm.buf.geo, hm.buf.tail]
  have := hm.buf.head_le
  split at hn
  · rename_i h
    rw [if_pos h]
    omega
  · rename_i h
    rw [if_neg h]
    exact hn

/-- The ring is there, or is created, and the bytes go in. -/
theorem receive_spec {W : List (List UInt8)} {data : List UInt8} {fin : Bool}
    (hcall : Calling r W data fin s) (hwrites : s.sc.rxWrites = W) (hdata : data ≠ [])
    (hroom : data.length ≤ room r s) :
    wp ((outline r).contract .worker)
      (do let rx ← load (·.sc.rx)
          when (rx.isNone) <|
            modify fun s => { s with sc := { s.sc with rx := some (.create r.ringCap r.hash) } }
          let pushed ← (StreamBuf.push data).on ringLoc
          if pushed ≠ data.length then modify fun s => { s with overflows := s.overflows + 1 }
          else announce r fin) (fun _ => WorkerIdle r) s := by
  refine wp_load_bind fun t hst ht => wp_when_bind (fun hnone => ?_) (fun hsome => ?_)
  · refine wp_modify_bind fun u htu hu => ?_
    have hcall := (hcall.stable hst).stable htu
    have hroom := room_stable htu (room_stable hst hroom)
    have hun : u.sc.rx.isSome = false := htu.isSome.trans (by simpa using hnone)
    have hbuf : u.sc.rxBuf = StreamCtx.noBuf := by
      have : u.sc.rx = none := by simpa using hun
      rw [StreamCtx.rxBuf, this]
      rfl
    have huw : u.sc.rxWrites = [] := by rw [StreamCtx.rxWrites, hbuf]; rfl
    have hfeeds : StreamCtx.RxFeeds u.sc { u.sc with rx := some (.create r.ringCap r.hash) } :=
      ⟨fun _ => rfl, fun h => absurd (hun.symm.trans h) (by simp), by rw [hbuf]; rfl,
        by rw [huw]; exact List.nil_prefix, rfl, rfl⟩
    have hwf := StreamBuf.create_wf r.ringCap r.hash
    have hcore := hu.core.feed hfeeds hwf rfl List.nil_prefix (.inl hcall.owes)
      (fun hf => absurd hf hcall.noFin) (.inl hcall.attached)
    have hinv : Inv r { u with sc := { u.sc with rx := some (.create r.ringCap r.hash) } } :=
      ⟨hu.queue, hcore⟩
    have hW : W = [] := by rw [← hwrites, ← hst.writes, ← htu.writes]; exact huw
    refine ⟨⟨.refl _, hfeeds, fun hf => absurd hf hcall.noFin, rfl, rfl, rfl, rfl⟩, hinv, ?_⟩
    refine pushBytes_spec hinv
      ⟨hcall.1, hcall.2, hcall.3, hcall.4, hcall.5, hcall.6, hcall.7, hcall.8⟩ hW.symm rfl
      hdata ?_
    rw [room, if_neg (by simp [hun])] at hroom
    show 0 + data.length ≤ 0 + ceilPow2U32 r.ringCap
    omega
  · have hts : t.sc.rx.isSome = true := by
      rw [Option.isSome_iff_ne_none]
      simpa using hsome
    exact pushBytes_spec ht (hcall.stable hst) (hst.writes.trans hwrites) hts hdata
      (room_le hts ht.core.ring (room_stable hst hroom))

/-- A callback keeps the outline. -/
theorem streamCb_spec {data : List UInt8} {fin : Bool} (hidle : WorkerIdle r s)
    (hroom : data.length ≤ room r s) (hfin : s.finStarted = false) :
    wp ((outline r).contract .worker) (streamCb r data fin) (fun _ => WorkerIdle r) s := by
  unfold streamCb
  refine wp_modify_bind fun t hst ht => ?_
  have hidle := hidle.stable hst
  have hfin : t.finStarted = false := hst.finStarted.trans hfin
  have hno : ¬ HasFin r t.accepted := fun hf => by
    have := ht.core.finStarted hf
    rw [hfin] at this
    exact absurd this (by simp)
  have hinv : Inv r (t.start data fin) :=
    ⟨ht.queue, ht.core.start hidle.arming hidle.owes hno data fin⟩
  refine ⟨⟨.refl _, .refl _, fun _ => rfl, rfl, rfl, rfl, rfl⟩, hinv, ?_⟩
  refine wp_load_bind fun u htu hu => ?_
  have hstart : u.finStarted = fin := by
    rw [htu.finStarted]
    show (t.finStarted || fin) = fin
    rw [hfin, Bool.false_or]
  have hnou : ¬ HasFin r u.accepted := by rw [htu.accepted]; exact hno
  have huW : u.sc.rxWrites = t.sc.rxWrites := htu.writes
  split
  · rename_i hnil
    have hust : u.started = t.started := by
      rw [htu.started]
      simp [start, StreamCtx.chunk, hnil]
    refine notify_spec hu (htu.queue.insertOwed.trans hidle.insertOwed)
      (htu.queue.writing.trans hidle.writing) ?_ ?_ hstart hnou ?_ ?_ hu.core.attached
    · rw [htu.owes]
      simp [start, hnil]
    · rw [huW, hust]
      exact hidle.writes
    · intro h0 hff
      rw [htu.emptyData] at h0
      simp [start, hnil, hff] at h0
    · rw [show u.arming = none from htu.arming.trans hidle.arming]
      exact fun h => absurd rfl h
  rename_i hdata
  have hroom' : data.length ≤ room r u := room_stable htu (room_stable hst hroom)
  have hcall : Calling r t.sc.rxWrites data fin { u with attached := true } := by
    refine ⟨htu.queue.insertOwed.trans hidle.insertOwed, htu.queue.writing.trans hidle.writing,
      htu.arming.trans hidle.arming, ?_, rfl, ?_, hstart, hnou⟩
    · rw [htu.owes]
      simp [start, hdata]
    · rw [htu.started]
      simp [start, StreamCtx.chunk, hdata, hidle.writes]
  refine wp_when_bind (fun _ => ?_) (fun hatt => ?_)
  · refine wp_modify_bind fun v huv hv => ?_
    have hm : AsyncioMoves { u with attached := true } { v with attached := true } :=
      { huv with attached := rfl }
    have hinv : Inv r { v with attached := true } :=
      ⟨hv.queue, { hv.core with attached := fun h => by simp at h }⟩
    exact ⟨⟨.refl _, .refl _, fun _ => rfl, rfl, rfl, rfl, rfl⟩, hinv,
      receive_spec (hcall.stable hm) (huv.writes.trans huW) hdata (room_stable huv hroom')⟩
  · have hatt' : u.attached = true := by simpa using hatt
    exact receive_spec ⟨hcall.1, hcall.2, hcall.3, hcall.4, hatt', hcall.6, hcall.7, hcall.8⟩ huW
      hdata hroom'

end RxStream

end Aiopquic
