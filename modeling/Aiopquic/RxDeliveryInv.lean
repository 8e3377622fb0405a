import Aiopquic.RxDelivery

/-!
# The invariant of a receiving stream

What holds of the notifications, the ring and the events at every point of a run: which entries of
the queue are the stream's, what the flag says of them, and which bytes the events have. Each change
that an operation makes to the state keeps it.
-/

namespace Aiopquic

open Interleave Interleave.Prog Circular RxQueue

namespace RxStream

/-! ## The invariant -/

/-- A `STREAM_DATA` entry of the stream. -/
def isData (r : RxSite) (e : Entry) : Bool :=
  decide (e.eventType = .streamData ∧ e.cnx = r.cnx ∧ e.streamId = r.streamId)

/-- A `STREAM_FIN` entry of the stream. -/
def isFin (r : RxSite) (e : Entry) : Bool :=
  decide (e.eventType = .streamFin ∧ e.cnx = r.cnx ∧ e.streamId = r.streamId)

/-- What the callbacks of the stream push. -/
structure Own (r : RxSite) (e : Entry) : Prop where
  ours : Ours r e
  ctx : e.streamCtx = r.ptr ∨ e.streamCtx = 0
  frees : ¬ e.Frees

/-- The FIN notification is in the queue, or was. -/
def HasFin (r : RxSite) (A : List Entry) : Prop := ∃ f ∈ A, isFin r f = true

/-- The entry that the worker owes the queue is not in it yet. -/
def Armed (A : List Entry) (s : RxStream) : Prop := s.arming = some A.length

/-- The queue holds an entry with which the drain will take the bytes. -/
def Signal (r : RxSite) (A : List Entry) (s : RxStream) : Prop :=
  ∃ i e, s.seen ≤ i ∧ A[i]? = some e ∧ Notes r e

/-- A `STREAM_DATA` notification is owed. -/
def owedData (A : List Entry) (s : RxStream) : ℕ :=
  (decide (s.arming = some A.length) && !s.finStarted).toNat

/-- What holds between any two steps, of a queue that has taken in the entries `A` and popped `h` of
them. -/
structure Core (r : RxSite) (A : List Entry) (h : ℕ) (s : RxStream) : Prop where
  ring : s.sc.rxBuf.Wf
  started : s.sc.rxWrites <+: s.started
  attached : s.attached = false → s.sc.rxWrites = []
  head_le : h ≤ A.length
  entries : ∀ e ∈ A, Foreign r e ∨ Own r e
  data : s.emptyData = 0 → ∀ e ∈ A, isData r e = true → e.streamCtx = r.ptr
  seen_le : s.seen ≤ A.length ∧ s.seen ≤ h + 1
  recorded_le : s.recorded ≤ A.length ∧ s.recorded ≤ h + 1
  arming_le : ∀ n, s.arming = some n → n ≤ A.length
  /-- A popped entry of the stream has been dealt with. -/
  passed : ∀ i e, i < h → A[i]? = some e →
    (Notes r e → i < s.seen) ∧ (isFin r e = true → i < s.recorded)
  /-- A set flag has its notification on the way. -/
  flag : s.sc.rxEventPending = true → Armed A s ∨ Signal r A s
  coalesced : s.emptyData = 0 →
    (A.drop s.seen).countP (isData r) + owedData A s ≤ s.sc.rxEventPending.toNat
  covered_le : s.covered ≤ s.sc.rxBuf.tail
  /-- Bytes past the last clear have somebody who sees to them. -/
  covered : s.sc.rxBuf.tail ≤ s.covered ∨ s.owes = true ∨ Armed A s ∨ Signal r A s
  delivered : deliveredBytes s.events <+: s.sc.rxBytes
  delivered_le : (deliveredBytes s.events).length ≤ s.sc.rxBuf.head
  finStarted : HasFin r A → s.finStarted = true
  /-- A FIN without a context ends a stream without bytes. -/
  orphan : ∀ e ∈ A, isFin r e = true → e.streamCtx ≠ r.ptr → s.sc.rxWrites = []
  finBytes : HasFin r A → s.sc.rxWrites = s.started
  finOrder : ∀ (i j : ℕ) f e, i < j → A[i]? = some f → isFin r f = true → A[j]? =
    some e → ¬ Ours r e
  finEvents : s.events.countP (decide <| ·.eventType = .streamFin) =
    (A.take s.recorded).countP (isFin r)
  finLast : ∀ before f after, s.events = before ++ f :: after → f.eventType = .streamFin →
    deliveredBytes (before ++ [f]) = s.sc.rxBytes ∧ after = []

/-- The invariant of the stream and its queue. -/
structure Inv (r : RxSite) (s : RxStream) : Prop where
  queue : s.rx.q.Inv
  core : Core r s.accepted s.head s

variable {r : RxSite} {A : List Entry} {h : ℕ} {s t : RxStream} {e : Entry}

theorem isFin_ours (he : isFin r e = true) : Ours r e := by
  have he := of_decide_eq_true he
  exact ⟨.inr he.1, he.2⟩

theorem isData_ours (he : isData r e = true) : Ours r e := by
  have he := of_decide_eq_true he
  exact ⟨.inl he.1, he.2⟩

theorem Signal.append (hs : Signal r A s) (e : Entry) : Signal r (A ++ [e]) s := by
  obtain ⟨i, f, hi, hf, hn⟩ := hs
  refine ⟨i, f, hi, ?_, hn⟩
  rw [List.getElem?_append_left (List.getElem?_eq_some_iff.1 hf).1]
  exact hf

/-- A FIN event was returned for a FIN entry. -/
theorem Core.hasFin (hs : Core r A h s) {before after : List RxEvent} {f : RxEvent}
    (heq : s.events = before ++ f :: after) (hf : f.eventType = .streamFin) :
    ∃ i g, i < s.recorded ∧ A[i]? = some g ∧ isFin r g = true := by
  have hpos : 0 < s.events.countP (decide <| ·.eventType = .streamFin) :=
    List.countP_pos_iff.2 ⟨f, by rw [heq]; simp, by simp [hf]⟩
  rw [hs.finEvents, List.countP_pos_iff] at hpos
  obtain ⟨g, hg, hgf⟩ := hpos
  obtain ⟨i, hi, hgi⟩ := List.getElem_of_mem hg
  have hlt : i < s.recorded := by
    rw [List.length_take] at hi
    omega
  refine ⟨i, g, hlt, ?_, hgf⟩
  rw [← hgi, List.getElem_take, List.getElem?_eq_getElem]

/-- Nothing else of the queue matters. -/
theorem Core.queue (hs : Core r A h s) (rx : WakeCtx) : Core r A h { s with rx := rx } :=
  { hs with }

/-! ### The queue takes in an entry, or pops one -/

/-- The queue takes in an entry. One of the stream comes before its FIN; a `STREAM_DATA` is the owed
one, or a callback without bytes has been made. -/
theorem Core.accept (hs : Core r A h s) (he : Foreign r e ∨ Own r e)
    (hdata : s.emptyData = 0 → isData r e = true →
      e.streamCtx = r.ptr ∧ Armed A s ∧ s.finStarted = false)
    (hfin : isFin r e = true → s.finStarted = true) (hours : Ours r e → ¬ HasFin r A)
    (horphan : isFin r e = true → e.streamCtx ≠ r.ptr → s.sc.rxWrites = [])
    (hwrites : isFin r e = true → s.sc.rxWrites = s.started)
    (harmed : Armed A s → Notes r e) : Core r (A ++ [e]) h s := by
  have hold : ∀ {i f}, i < A.length → (A ++ [e])[i]? = some f → A[i]? = some f := by
    intro i f hi hf
    rwa [List.getElem?_append_left hi] at hf
  have hlast : (A ++ [e])[A.length]? = some e := by simp
  have hnot : s.arming ≠ some (A ++ [e]).length := by
    intro hn
    have := hs.arming_le _ hn
    simp at this
  refine { hs with
    head_le := by have := hs.head_le; simp; omega
    entries := ?_, data := ?_, seen_le := ?_, recorded_le := ?_, arming_le := ?_, passed := ?_,
      flag := ?_,
    coalesced := ?_, covered := ?_, finStarted := ?_, orphan := ?_, finBytes := ?_, finOrder := ?_,
    finEvents := ?_ }
  · intro f hf
    rcases List.mem_append.1 hf with hf | hf
    · exact hs.entries f hf
    · rw [List.mem_singleton.1 hf]
      exact he
  · intro h0 f hf hd
    rcases List.mem_append.1 hf with hf | hf
    · exact hs.data h0 f hf hd
    · rw [List.mem_singleton.1 hf] at hd ⊢
      exact (hdata h0 hd).1
  · have := hs.seen_le
    simp
    omega
  · have := hs.recorded_le
    simp
    omega
  · intro n hn
    have := hs.arming_le n hn
    simp
    omega
  · intro i f hi hf
    exact hs.passed i f hi (hold (hi.trans_le hs.head_le) hf)
  · intro hflag
    rcases hs.flag hflag with ha | hsig
    · exact .inr ⟨A.length, e, hs.seen_le.1, hlast, harmed ha⟩
    · exact .inr (hsig.append e)
  · intro h0
    have hc := hs.coalesced h0
    have howed : owedData (A ++ [e]) s = 0 := by
      rw [owedData, decide_eq_false hnot]
      rfl
    rw [List.drop_append_of_le_length hs.seen_le.1, List.countP_append, howed]
    cases hd : isData r e with
    | false =>
      simp [hd]
      omega
    | true =>
      obtain ⟨-, ha, hf⟩ := hdata h0 hd
      have : owedData A s = 1 := by
        rw [owedData, hf, decide_eq_true (show s.arming = some A.length from ha)]
        rfl
      simp [hd]
      omega
  · rcases hs.covered with hc | hc | hc | hc
    · exact .inl hc
    · exact .inr (.inl hc)
    · exact .inr (.inr (.inr ⟨A.length, e, hs.seen_le.1, hlast, harmed hc⟩))
    · exact .inr (.inr (.inr (hc.append e)))
  · rintro ⟨f, hf, hff⟩
    rcases List.mem_append.1 hf with hf | hf
    · exact hs.finStarted ⟨f, hf, hff⟩
    · rw [List.mem_singleton.1 hf] at hff
      exact hfin hff
  · intro f hf hff hctx
    rcases List.mem_append.1 hf with hf | hf
    · exact hs.orphan f hf hff hctx
    · rw [List.mem_singleton.1 hf] at hff hctx
      exact horphan hff hctx
  · rintro ⟨f, hf, hff⟩
    rcases List.mem_append.1 hf with hf | hf
    · exact hs.finBytes ⟨f, hf, hff⟩
    · rw [List.mem_singleton.1 hf] at hff
      exact hwrites hff
  · intro i j f g hij hf hff hg
    have hj : j ≤ A.length := by
      have := (List.getElem?_eq_some_iff.1 hg).1
      simp at this
      omega
    have hf' := hold (hij.trans_le hj) hf
    rcases hj.lt_or_eq with hj | rfl
    · exact hs.finOrder i j f g hij hf' hff (hold hj hg)
    · rw [hlast] at hg
      rw [← Option.some.inj hg]
      exact fun ho => hours ho ⟨f, List.mem_of_getElem? hf', hff⟩
  · rw [List.take_append_of_le_length hs.recorded_le.1]
    exact hs.finEvents

/-- The queue pops an entry that has been dealt with. -/
theorem Core.advance (hs : Core r A h s) (he : A[h]? = some e) (hseen : Notes r e → h < s.seen)
    (hrec : isFin r e = true → h < s.recorded) : Core r A (h + 1) s := by
  have hlt := (List.getElem?_eq_some_iff.1 he).1
  refine { hs with
    head_le := hlt
    seen_le := ⟨hs.seen_le.1, hs.seen_le.2.trans (Nat.le_succ _)⟩
    recorded_le := ⟨hs.recorded_le.1, hs.recorded_le.2.trans (Nat.le_succ _)⟩
    passed := ?_ }
  intro i f hi hf
  rcases (Nat.lt_succ_iff.1 hi).lt_or_eq with hi | rfl
  · exact hs.passed i f hi hf
  · rw [he] at hf
    rw [← Option.some.inj hf]
    exact ⟨hseen, hrec⟩

/-! ### The drain deals with an entry -/

/-- An entry with which the drain takes the bytes is one of the stream. -/
theorem Core.own (hs : Core r A h s) {i : ℕ} (he : A[i]? = some e) (hn : Ours r e ∨ Notes r e) :
    Own r e := by
  refine (hs.entries e (List.mem_of_getElem? he)).resolve_left fun hf => ?_
  rcases hn with hn | hn
  · exact hf.1 hn
  · exact hf.2 hn

/-- The drain clears the flag for the entry at the head. -/
theorem Core.clear (hs : Core r A s.head s) (he : A[s.head]? = some e) (hn : Notes r e)
    (hseen : s.seen ≤ s.head) : Core r A s.head s.clearEvent := by
  obtain ⟨hlt, heq⟩ := List.getElem?_eq_some_iff.1 he
  have hown := hs.own he (.inr hn)
  refine { hs with
    seen_le := ⟨hlt, le_rfl⟩
    passed := fun i f hi hf => ⟨fun _ => hi.trans (Nat.lt_succ_self _), (hs.passed i f hi hf).2⟩
    flag := fun hflag => absurd hflag (by simp [clearEvent])
    coalesced := fun h0 => ?_
    covered_le := le_rfl
    covered := .inl le_rfl }
  show (A.drop (s.head + 1)).countP (isData r) + owedData A s ≤ 0
  have hdrop : A.drop s.head = e :: A.drop (s.head + 1) := by
    rw [List.drop_eq_getElem_cons hlt, heq]
  rcases hown.ours.1 with hd | hf
  · -- the one notification that the flag stood for
    have hdata : isData r e = true := decide_eq_true ⟨hd, hown.ours.2⟩
    have hc := hs.coalesced h0
    have hle : (A.drop s.head).countP (isData r) ≤ (A.drop s.seen).countP (isData r) :=
      List.Sublist.countP_le (List.drop_sublist_drop_left A hseen)
    rw [hdrop, List.countP_cons_of_pos hdata] at hle
    have := Bool.toNat_le s.sc.rxEventPending
    omega
  · -- nothing of the stream comes after its FIN
    have hfin : isFin r e = true := decide_eq_true ⟨hf, hown.ours.2⟩
    have hnone : (A.drop (s.head + 1)).countP (isData r) = 0 := by
      rw [List.countP_eq_zero]
      intro g hg hgd
      obtain ⟨j, hj, hgj⟩ := List.getElem_of_mem hg
      have hgj' : A[s.head + 1 + j]? = some g := by
        rw [← List.getElem?_drop, List.getElem?_eq_getElem hj, hgj]
      exact hs.finOrder s.head (s.head + 1 + j) e g (by omega) he hfin hgj' (isData_ours hgd)
    have hst := hs.finStarted ⟨e, List.mem_of_getElem? he, hfin⟩
    simp [hnone, owedData, hst]

/-- The drain returns an event for the entry at the head: the next bytes, and with FIN the last. -/
theorem Core.record (hs : Core r A s.head s) (he : A[s.head]? = some e) (ho : Ours r e)
    (hrec : s.recorded ≤ s.head) {d : Option (List UInt8)}
    (hbytes : deliveredBytes s.events ++ d.getD [] <+: s.sc.rxBytes)
    (hle : (deliveredBytes s.events ++ d.getD []).length ≤ s.sc.rxBuf.head)
    (hfin : e.eventType = .streamFin → deliveredBytes s.events ++ d.getD [] = s.sc.rxBytes) :
    Core r A s.head (s.record ⟨e.eventType, d⟩) := by
  obtain ⟨hlt, heq⟩ := List.getElem?_eq_some_iff.1 he
  have hdel : deliveredBytes (s.events ++ [⟨e.eventType, d⟩]) = deliveredBytes s.events ++
    d.getD [] :=
    deliveredBytes_snoc s.events _
  -- no FIN entry has been returned: this one comes after it
  have hno : ∀ before f after, s.events = before ++ f :: after → f.eventType ≠ .streamFin := by
    intro before f after hev hf
    obtain ⟨i, g, hi, hg, hgf⟩ := hs.hasFin hev hf
    exact hs.finOrder i s.head g e (by omega) hg hgf he ho
  refine { hs with
    recorded_le := ⟨hlt, le_rfl⟩
    passed := fun i f hi hf => ⟨(hs.passed i f hi hf).1, fun _ => hi.trans (Nat.lt_succ_self _)⟩
    delivered := by rw [RxStream.record, hdel]; exact hbytes
    delivered_le := by rw [RxStream.record, hdel]; exact hle
    finEvents := ?_
    finLast := ?_ }
  · show (s.events ++ [(⟨e.eventType, d⟩ : RxEvent)]).countP _ =
      (A.take (s.head + 1)).countP (isFin r)
    have hsplit : A.take (s.head + 1) =
        A.take s.recorded ++ ((A.take s.head).drop s.recorded ++ [e]) := by
      rw [List.take_add_one, he, ← List.append_assoc, Option.toList_some]
      congr 1
      conv_lhs => rw [← List.take_append_drop s.recorded (A.take s.head)]
      rw [List.take_take, min_eq_left hrec]
    have hmid : ((A.take s.head).drop s.recorded).countP (isFin r) = 0 := by
      rw [List.countP_eq_zero]
      intro g hg hgf
      obtain ⟨j, hj, hgj⟩ := List.getElem_of_mem hg
      have hj' : s.recorded + j < s.head := by
        simp at hj
        omega
      have hgj' : A[s.recorded + j]? = some g := by
        have := List.getElem?_eq_getElem hj
        rw [List.getElem?_drop, List.getElem?_take_of_lt hj', hgj] at this
        exact this
      have := (hs.passed _ g hj' hgj').2 hgf
      omega
    rw [hsplit, List.countP_append, List.countP_append, List.countP_append, hmid, ← hs.finEvents]
    have hsame : decide (e.eventType = .streamFin) = isFin r e := by simp [isFin, ho.2]
    simp [List.countP_cons, hsame]
  · intro before f after hev hf
    rcases List.eq_nil_or_concat after with rfl | ⟨after', last, rfl⟩
    · obtain ⟨hb, hl⟩ :=
        List.append_inj' (show s.events ++ [⟨e.eventType, d⟩] = before ++ [f] from hev) rfl
      have hf' : f = ⟨e.eventType, d⟩ := by simpa using hl.symm
      refine ⟨?_, rfl⟩
      rw [← hb, hf', hdel]
      exact hfin (by rw [hf'] at hf; exact hf)
    · have hsplit : s.events ++ [⟨e.eventType, d⟩] = (before ++ f :: after') ++ [last] := by
        rw [show s.events ++ [_] = before ++ f :: after'.concat last from hev]
        simp
      exact absurd hf (hno before f after' (List.append_inj' hsplit rfl).1)

/-! ### Bytes go in and out -/

/-- The worker's part of the ring changes: bytes come in while the worker sees to them, and none
once the FIN is in the queue. -/
theorem Core.feed (hs : Core r A h s) {sc : StreamCtx} (hm : StreamCtx.RxFeeds s.sc sc)
    (hwf : sc.rxBuf.Wf) (hflag : sc.rxEventPending = s.sc.rxEventPending)
    (hst : sc.rxWrites <+: s.started) (howes : s.owes = true ∨ sc.rxWrites = s.sc.rxWrites)
    (hfin : HasFin r A → sc.rxWrites = s.sc.rxWrites)
    (hatt : s.attached = true ∨ sc.rxWrites = s.sc.rxWrites) : Core r A h { s with sc := sc } := by
  have htail := hm.tail_le hs.ring hwf
  refine { hs with
    ring := hwf
    started := hst
    attached := fun ha => ?_
    orphan := fun e he hf hctx => (hfin ⟨e, he, hf⟩).trans (hs.orphan e he hf hctx)
    finBytes := fun hf => (hfin hf).trans (hs.finBytes hf)
    flag := fun hf => hs.flag (hflag ▸ hf)
    coalesced := fun h0 => hflag ▸ hs.coalesced h0
    covered_le := hs.covered_le.trans htail
    covered := ?_
    delivered := hs.delivered.trans hm.bytes
    delivered_le := hs.delivered_le.trans hm.head.ge
    finLast := fun before f after heq hf => ?_ }
  · rcases hatt with hatt | hsame
    · exact absurd (hatt.symm.trans ha) (by simp)
    · exact hsame.trans (hs.attached ha)
  · rcases howes with howes | hsame
    · exact .inr (.inl howes)
    · have htl : sc.rxBuf.tail = s.sc.rxBuf.tail := by
        rw [← hwf.length, ← hs.ring.length]
        exact congrArg (fun w => w.flatten.length) hsame
      show sc.rxBuf.tail ≤ s.covered ∨ _
      rw [htl]
      exact hs.covered
  · obtain ⟨i, g, -, hg, hgf⟩ := hs.hasFin heq hf
    have hsame : sc.rxBytes = s.sc.rxBytes :=
      congrArg List.flatten (hfin ⟨g, List.mem_of_getElem? hg, hgf⟩)
    show deliveredBytes (before ++ [f]) = sc.rxBytes ∧ _
    rw [hsame]
    exact hs.finLast before f after heq hf

/-- The drain's part of the context changes. -/
theorem Core.take (hs : Core r A h s) {sc : StreamCtx}
    (hm : StreamBuf.ConsumerMoves s.sc.rxBuf sc.rxBuf)
    (hwf : sc.rxBuf.Wf) (hflag : sc.rxEventPending = s.sc.rxEventPending) :
    Core r A h { s with sc := sc } := by
  have hbytes : sc.rxBytes = s.sc.rxBytes := congrArg List.flatten hm.writes
  refine { hs with
    ring := hwf
    started := by rw [StreamCtx.rxWrites, hm.writes]; exact hs.started
    attached := fun ha => hm.writes.trans (hs.attached ha)
    orphan := fun e he hf hctx => hm.writes.trans (hs.orphan e he hf hctx)
    finBytes := fun hf => hm.writes.trans (hs.finBytes hf)
    flag := fun hf => hs.flag (hflag ▸ hf)
    coalesced := fun h0 => hflag ▸ hs.coalesced h0
    covered_le := hs.covered_le.trans hm.tail.ge
    covered := by rw [hm.tail]; exact hs.covered
    delivered := by rw [hbytes]; exact hs.delivered
    delivered_le := hs.delivered_le.trans hm.head_le
    finLast := by rw [hbytes]; exact hs.finLast }

/-! ### The worker turns to a callback, and to its notification -/

/-- A callback begins. -/
theorem Core.start (hs : Core r A h s) (harm : s.arming = none) (howes : s.owes = false)
    (hno : ¬ HasFin r A) (data : List UInt8) (fin : Bool) : Core r A h (s.start data fin) := by
  refine { hs with
    started := hs.started.trans (List.prefix_append _ _)
    data := fun h0 => hs.data (Nat.eq_zero_of_add_eq_zero_right h0)
    coalesced := fun h0 => ?_
    covered := ?_
    finStarted := fun hf => absurd hf hno
    finBytes := fun hf => absurd hf hno }
  · have := hs.coalesced (Nat.eq_zero_of_add_eq_zero_right h0)
    have howed : owedData A (s.start data fin) = 0 := by simp [owedData, RxStream.start, harm]
    rw [howed]
    exact (Nat.le_add_right _ _).trans this
  · rcases hs.covered with hc | hc | hc
    · exact .inl hc
    · exact absurd (howes.symm.trans hc) (by simp)
    · exact .inr (.inr hc)

/-- The worker sets the flag for the bytes it pushed. -/
theorem Core.armEvent (hs : Core r s.accepted h s) (harm : s.arming = none) :
    Core r s.accepted h s.armEvent := by
  have hna : ¬ Armed s.accepted s := by simp [Armed, harm]
  cases hp : s.sc.rxEventPending with
  | true =>
    have hsig : Signal r s.accepted s := (hs.flag hp).resolve_left hna
    refine { hs with
      arming_le := by simp [RxStream.armEvent, hp]
      flag := fun _ => .inr hsig
      coalesced := fun h0 => ?_
      covered := .inr (.inr (.inr hsig)) }
    have := hs.coalesced h0
    have howed : owedData s.accepted s.armEvent = 0 := by simp [owedData, RxStream.armEvent, hp]
    rw [howed]
    exact ((Nat.le_add_right _ _).trans this).trans (Bool.toNat_le _)
  | false =>
    have ha : Armed s.accepted s.armEvent := by simp [Armed, RxStream.armEvent, hp]
    refine { hs with
      arming_le := by simp [RxStream.armEvent, hp]
      flag := fun _ => .inl ha
      coalesced := fun h0 => ?_
      covered := .inr (.inr (.inl ha)) }
    have := hs.coalesced h0
    rw [hp] at this
    have hle : owedData s.accepted s.armEvent ≤ 1 := Bool.toNat_le _
    show _ + _ ≤ 1
    have hz : (s.accepted.drop s.seen).countP (isData r) = 0 := by
      simp only [Bool.toNat_false] at this
      omega
    rw [show s.armEvent.seen = s.seen from rfl, hz]
    omega

/-- The worker turns to the FIN notification. -/
theorem Core.armFin (hs : Core r s.accepted h s) (harm : s.arming = none)
    (hfin : s.finStarted = true) :
    Core r s.accepted h s.armFin := by
  have hna : ¬ Armed s.accepted s := by simp [Armed, harm]
  refine { hs with
    arming_le := by simp [RxStream.armFin]
    flag := fun hp => .inr ((hs.flag hp).resolve_left hna)
    coalesced := fun h0 => ?_
    covered := .inr (.inr (.inl rfl)) }
  have howed : owedData s.accepted s.armFin = 0 := by simp [owedData, RxStream.armFin, hfin]
  rw [howed]
  exact (Nat.le_add_right _ _).trans (hs.coalesced h0)

/-- The owed notification is in the queue. -/
theorem Core.disarm (hs : Core r A h s) (harm : ¬ Armed A s) :
    Core r A h { s with arming := none } := by
  refine { hs with
    arming_le := by simp
    flag := fun hp => .inr ((hs.flag hp).resolve_left harm)
    coalesced := fun h0 => ?_
    covered := ?_ }
  · exact (Nat.le_add_right _ _).trans (hs.coalesced h0)
  · rcases hs.covered with hc | hc | hc | hc
    · exact .inl hc
    · exact .inr (.inl hc)
    · exact absurd hc harm
    · exact .inr (.inr (.inr hc))

end RxStream

end Aiopquic
