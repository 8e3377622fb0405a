import Aiopquic.DrainsAgree
import Mathlib.Tactic.IntervalCases

/-!
# A drain touches nothing that is freed

`Entry.refOps` is what an entry by itself asks of the objects it names. Where these requests can be
met one entry after the other, a drain of any number of entries is defined: all else it does to
references, for chunks, for notes and for credit events, it gives before it takes.
-/

namespace Aiopquic

open Traced

/-! ## Surplus references -/

namespace RefTable

variable {S S' : List ℕ} {r r' c : RefTable} {p : ℕ}

/-- `c` has the links of `r`, and beside its references those listed in `S`. -/
structure Covers (S : List ℕ) (r c : RefTable) : Prop where
  links : c.links = r.links
  refs : ∀ p, r.refs p + S.count p ≤ c.refs p

theorem Covers.refl (r : RefTable) : Covers [] r r := ⟨rfl, fun _ => le_rfl⟩

theorem Covers.mono (h : Covers S r c) (hle : ∀ p, S'.count p ≤ S.count p) : Covers S' r c :=
  ⟨h.links, fun p => (Nat.add_le_add_left (hle p) _).trans (h.refs p)⟩

theorem Covers.pos (h : Covers S r c) (hp : 0 < r.refs p) : 0 < c.refs p := by
  have := h.refs p
  omega

theorem Covers.pos_of_mem (h : Covers S r c) (hp : p ∈ S) : 0 < c.refs p := by
  have := h.refs p
  have := List.count_pos_iff.2 hp
  omega

theorem Covers.destroy (h : Covers S r c) (hd : r.destroy p = some r') :
    ∃ c', c.destroy p = some c' ∧ Covers S r' c' := by
  rcases destroy_eq_some.1 hd with ⟨hp0, rfl⟩ | ⟨hp0, hpos, rfl⟩
  · exact ⟨c, destroy_eq_some.2 (.inl ⟨hp0, rfl⟩), h⟩
  refine ⟨c.lower p, destroy_eq_some.2 (.inr ⟨hp0, h.pos hpos, rfl⟩), h.links, fun q => ?_⟩
  have hq := h.refs q
  simp only [lower, Function.update_apply]
  split
  · subst q
    omega
  · exact hq

theorem Covers.unlink (h : Covers S r c) (link : ℕ) : Covers S (r.unlink link) (c.unlink link) :=
  ⟨by simp only [RefTable.unlink, h.links], h.refs⟩

/-- What `r` can do, `c` can. -/
theorem Covers.act {a : RefOp} (h : Covers S r c) (ha : r.act a = some r') :
    ∃ c', c.act a = some c' ∧ Covers S r' c' := by
  cases a with
  | use q =>
    obtain ⟨hpos, rfl⟩ := act_use.1 ha
    exact ⟨c, act_use.2 ⟨h.pos hpos, rfl⟩, h⟩
  | ref q =>
    obtain ⟨hpos, rfl⟩ := act_ref.1 ha
    refine ⟨c.raise q, act_ref.2 ⟨h.pos hpos, rfl⟩, h.links, fun p => ?_⟩
    have := h.refs p
    simp only [raise, Function.update_apply]
    split
    · subst p
      omega
    · exact this
  | destroy q => exact h.destroy ha
  | destroyLink link =>
    obtain ⟨sc, hsc, hd⟩ := destroyLink_eq_some.1 ha
    obtain ⟨c', hc', hcov⟩ := (h.unlink link).destroy hd
    exact ⟨c', destroyLink_eq_some.2 ⟨sc, by rw [h.links, hsc], hc'⟩, hcov⟩
  | hold b =>
    cases ha
    exact ⟨c, rfl, h⟩
  | wild => cases ha

/-- A reference is given. -/
theorem Covers.give (h : Covers S r c) (hp : 0 < c.refs p) :
    ∃ c', c.act (.ref p) = some c' ∧ Covers (p :: S) r c' := by
  refine ⟨c.raise p, act_ref.2 ⟨hp, rfl⟩, h.links, fun q => ?_⟩
  have hq := h.refs q
  simp only [raise, Function.update_apply, List.count_cons]
  grind

/-- A surplus reference is dropped. -/
theorem Covers.drop (h : Covers (p :: S) r c) :
    ∃ c', c.act (.destroy p) = some c' ∧ Covers S r c' := by
  by_cases hp0 : p = 0
  · exact ⟨c, destroy_eq_some.2 (.inl ⟨hp0, rfl⟩), h.mono fun q => List.count_le_count_cons⟩
  refine ⟨c.lower p, destroy_eq_some.2 (.inr ⟨hp0, h.pos_of_mem List.mem_cons_self, rfl⟩), h.links,
    fun q => ?_⟩
  have hq := h.refs q
  rw [List.count_cons] at hq
  simp only [lower, Function.update_apply]
  grind

end RefTable

/-! ## The RX queue of a drain -/

/-- The queue when the consumer is at an entry: what it still holds. -/
structure RxQueue.Holding (q : RxQueue) (l : List Entry) : Prop where
  inv : q.Inv
  settled : q.Settled
  queued : q.queued = l

namespace RxQueue

variable {q : RxQueue} {l : List Entry} {e : Entry}

/-- What a consumer's program that keeps the head leaves of the queue. -/
theorem Holding.exec {α : Type} {p : Interleave.Prog RxQueue α} {h : Option ℕ}
    {Q : α → RxQueue → Prop}
    (hq : q.Holding l) (hspec : Interleave.wp (consumer h) p Q q)
    (hsettled : ∀ a q', Q a q' → Settled q')
    (hhead : ∀ a q', Q a q' → q'.ring.head = q.ring.head) :
    (p.exec q).2.Holding l ∧ Q (p.exec q).1 (p.exec q).2 := by
  obtain ⟨hQ, hinv⟩ := Interleave.wp_exec hspec hq.inv fun _ => trivial
  have hmoves : ConsumerMoves q (p.exec q).2 :=
    Interleave.wp_exec_rel hspec hq.inv (fun _ => trivial) .refl .trans fun hstep => hstep.moves
  refine ⟨⟨hinv, hsettled _ _ hQ, ?_⟩, hQ⟩
  unfold RxQueue.queued
  rw [hmoves.accepted, hhead _ _ hQ]
  exact hq.queued

theorem Holding.refill (hq : q.Holding l) (hc : q.ring.claimed = false) :
    (RxQueue.refill.exec q).2.Holding l ∧ (RxQueue.refill.exec q).2.ring.claimed = false := by
  obtain ⟨h, hr⟩ := hq.exec (refill_spec hq.settled) (fun _ _ h => h.settled) fun _ _ h => h.head
  exact ⟨h, hr.claimed.trans hc⟩

theorem Holding.peek (hq : q.Holding l) (hc : q.ring.claimed = false) :
    (RxQueue.peek.exec q).2.Holding l ∧ (RxQueue.peek.exec q).2.ring.claimed = false ∧
      ∀ e, (RxQueue.peek.exec q).1 = some e →
        (∃ rest, l = e :: rest) ∧ (RxQueue.peek.exec q).2.ring.head <
        (RxQueue.peek.exec q).2.ring.tail := by
  obtain ⟨h, hr, ho⟩ := hq.exec (peek_spec (h := none) hq.inv hq.settled hc)
    (fun _ _ h => h.1.settled)
    fun _ _ h => h.1.head
  refine ⟨h, hr.claimed.trans hc, fun e he => ?_⟩
  rw [he] at ho
  rw [← hr.head] at ho
  have hacc := accepted_getElem? ho
  refine ⟨⟨(RxQueue.peek.exec q).2.accepted.drop ((RxQueue.peek.exec q).2.ring.head + 1), ?_⟩, ?_⟩
  · rw [← h.queued]
    exact List.drop_eq_getElem?_toList_append.trans (by rw [hacc]; rfl)
  · rw [← h.inv.ring.length]
    exact (List.getElem?_eq_some_iff.1 ho).1

theorem Holding.takeData (hq : q.Holding l) (hlt : q.ring.head < q.ring.tail) :
    ((RxQueue.takeData e).exec q).2.Holding l ∧
      ((RxQueue.takeData e).exec q).2.ring.head < ((RxQueue.takeData e).exec q).2.ring.tail := by
  obtain ⟨h, -, -, hlt', -⟩ := hq.exec (takeData_spec (h := none) hq.inv hq.settled hlt)
    (fun _ _ h => h.1)
    fun _ _ h => h.2.1
  exact ⟨h, hlt'⟩

theorem Holding.pop (hq : q.Holding (e :: l)) (hlt : q.ring.head < q.ring.tail) :
    (RxQueue.pop.exec q).2.Holding l ∧ (RxQueue.pop.exec q).2.ring.claimed = false := by
  have hspec := pop_spec hq.inv hq.settled hlt
  obtain ⟨hp, hinv⟩ := Interleave.wp_exec hspec hq.inv fun _ => trivial
  have hmoves : ConsumerMoves q (RxQueue.pop.exec q).2 :=
    Interleave.wp_exec_rel hspec hq.inv (fun _ => trivial) .refl .trans fun hstep => hstep.moves
  refine ⟨⟨hinv, hp.settled, ?_⟩, hp.claimed⟩
  have hqueued := hq.queued
  unfold RxQueue.queued at hqueued ⊢
  rw [hmoves.accepted, hp.head, ← List.drop_drop, hqueued]
  rfl

end RxQueue

/-! ## What an entry asks for -/

/-- The entry's own payload is taken. -/
def Entry.takeOps (e : Entry) : List RefOp :=
  if 0 < e.dataLength ∧ e.dataBuf ≠ .null then
    match e.dataBuf with
    | .borrowed _ => [.wild]
    | _ => []
  else []

/-- The context that an entry makes a drain read. -/
def Entry.readOps (e : Entry) : List RefOp :=
  if 0 < e.dataLength ∧ e.dataBuf ≠ .null then e.takeOps
  else if (e.eventType = .streamData ∨ e.eventType = .streamFin) ∧ e.streamCtx ≠ 0
    then [.use e.streamCtx]
  else
    match e.dataBuf with
    | .null => []
    | .owned _ => [.wild]
    | .borrowed sc =>
      if e.dataLength ≠ 0 then [] else if e.eventType = .wtStreamData ∨ e.eventType = .wtStreamFin
        then [.use sc] else []

/-- What an entry asks of the objects it names: that those a drain reads are there, and the
reference it gives up. -/
def Entry.refOps (e : Entry) : List RefOp :=
  if e.eventType = .wtStreamLinkRelease then
    match e.dataBuf with
    | .null => []
    | .owned _ => [.wild]
    | .borrowed link => [.destroyLink link]
  else if e.eventType = .wtStreamDestroy then []
  else if e.eventType = .streamDestroy then if e.streamCtx ≠ 0 then [.destroy e.streamCtx] else []
  else if e.eventType = .txEventRingDrained then []
  else if e.eventType = .cnxSnapshot then e.takeOps
  else e.readOps ++ if e.streamCtx ≠ 0 ∧ rxEventOwnsSc e.eventType then [.destroy e.streamCtx]
    else []

namespace DrainCtx

open RefTable (Covers act)
open Steps (run run_cons_eq_some run_append)

variable {s : DrainCtx} {e : Entry} {l : List Entry} {v : CallbackLoop}
    {keeps : List DrainedEvent → Bool}
  {r r₁ c : RefTable} {D : List ℕ}

/-- Between two entries, with `l` still queued. -/
structure Ready (l : List Entry) (s : DrainCtx) : Prop where
  holding : s.rx.q.Holding l
  claimed : s.rx.q.ring.claimed = false

/-- At the entry `e`, with `l` behind it. -/
structure AtHead (e : Entry) (l : List Entry) (s : DrainCtx) : Prop where
  holding : s.rx.q.Holding (e :: l)
  lt : s.rx.q.ring.head < s.rx.q.ring.tail

/-- The contexts that the notes of the cycle hold a reference to. -/
def noted (s : DrainCtx) : List ℕ := s.pendingFc.map (·.1)

theorem AtHead.of_rx {s' : DrainCtx} (h : AtHead e l s) (hrx : s'.rx = s.rx) : AtHead e l s' :=
  ⟨by rw [hrx]; exact h.holding, by rw [hrx]; exact h.lt⟩

theorem storeSnapshot_rx (cnx : ℕ) (buf : List UInt8) (length : ℕ) (s : DrainCtx) :
    (storeSnapshot cnx buf length s).rx = s.rx := by
  unfold storeSnapshot
  split <;> rfl

theorem storeSnapshot_noted (cnx : ℕ) (buf : List UInt8) (length : ℕ) (s : DrainCtx) :
    (storeSnapshot cnx buf length s).noted = s.noted := by
  unfold storeSnapshot
  split <;> rfl

theorem forgetSnapshot_rx (cnx : ℕ) (s : DrainCtx) : (forgetSnapshot cnx s).rx = s.rx := by
  unfold forgetSnapshot
  split <;> rfl

theorem forgetSnapshot_noted (cnx : ℕ) (s : DrainCtx) : (forgetSnapshot cnx s).noted = s.noted := by
  unfold forgetSnapshot
  split <;> rfl

/-- The entry is popped, and the loop goes on with `v`. -/
theorem pop_completes (h : AtHead e l s) (hc : Covers (s.noted ++ v.data.toList) r c) :
    Completes act (do onRx RxQueue.pop; pure v) s c fun v' s' c' =>
      Ready l s' ∧ Covers (s'.noted ++ v'.data.toList) r c' := by
  obtain ⟨hpop, hclaimed⟩ := h.holding.pop h.lt
  exact .bind (R := fun _ s' c' => Ready l s' ∧ Covers (s'.noted ++ v.data.toList) r c')
    (.compute ⟨⟨hpop, hclaimed⟩, hc⟩) fun _ _ _ h' => .pure h'

/-- One operation that the requirements of an entry include. -/
theorem emit_completes {w : RefOp} {Q : Unit → DrainCtx → RefTable → Prop}
    (hr : run act r [w] = some r₁)
    (hc : Covers D r c) (hQ : ∀ c', Covers D r₁ c' → Q () s c') : Completes act (emit w) s c Q := by
  obtain ⟨r₂, hact, hrest⟩ := run_cons_eq_some.1 hr
  cases hrest
  obtain ⟨c', hc', hcov⟩ := hc.act hact
  exact .emit hc' (hQ c' hcov)

theorem takeData_completes (h : AtHead e l s) (hpos : 0 < e.dataLength ∧ e.dataBuf ≠ .null)
    (hr : run act r e.takeOps = some r₁) (hc : Covers (s.noted ++ D) r c) :
    Completes act (takeData e) s c fun _ s' c' => AtHead e l s' ∧ Covers (s'.noted ++ D) r₁ c' := by
  unfold Entry.takeOps at hr
  rw [if_pos hpos] at hr
  unfold takeData
  cases hbuf : e.dataBuf with
  | borrowed ptr =>
    rw [hbuf] at hr
    obtain ⟨r₂, hact, -⟩ := run_cons_eq_some.1 hr
    cases hact
  | null => exact absurd hbuf hpos.2
  | owned bytes =>
    rw [hbuf] at hr
    cases hr
    refine .bind (R := fun _ s' c' => s' = s ∧ c' = c) (.pure ⟨rfl, rfl⟩) ?_
    rintro _ _ _ ⟨rfl, rfl⟩
    obtain ⟨htake, hlt⟩ := h.holding.takeData (e := e) h.lt
    exact .bind (R := fun _ s' c' => AtHead e l s' ∧ Covers (s'.noted ++ D) r c')
      (.compute ⟨⟨htake, hlt⟩, hc⟩)
      fun _ _ _ h => .pure h

theorem pendingFcAdd_completes {sc cnx streamId : ℕ} (hsc : 0 < c.refs sc)
    (hc : Covers (s.noted ++ D) r c) :
    Completes act (pendingFcAdd sc cnx streamId) s c fun _ s' c' =>
      s'.rx = s.rx ∧ Covers (s'.noted ++ D) r c' := by
  unfold pendingFcAdd
  refine .bind (R := fun a s' c' => a = s ∧ s' = s ∧ c' = c) (.get ⟨rfl, rfl, rfl⟩) ?_
  rintro _ _ _ ⟨rfl, rfl, rfl⟩
  refine .ite (fun _ => .pure ⟨rfl, hc⟩) fun _ => ?_
  obtain ⟨c', hc', hcov⟩ := hc.give hsc
  refine .bind (.emit (Q := fun _ s' c'' => s' = _ ∧ c'' = c') hc' ⟨rfl, rfl⟩) ?_
  rintro _ _ _ ⟨rfl, rfl⟩
  refine .modify ⟨rfl, hcov.mono fun p => ?_⟩
  simp only [noted, List.map_append, List.map_cons, List.map_nil, List.count_append,
    List.count_cons,
    List.count_nil]
  omega

theorem popChunk_completes {sc cnx streamId : ℕ} (hsc : 0 < r.refs sc)
    (hc : Covers (s.noted ++ D) r c) :
    Completes act (popChunk sc cnx streamId) s c fun d s' c' =>
      s'.rx = s.rx ∧ Covers (s'.noted ++ ((d.bind (·.sc)).toList ++ D)) r c' := by
  unfold popChunk
  refine .bind (.emit (Q := fun _ s' c' => s' = s ∧ c' = c) (RefTable.act_use.2 ⟨hc.pos hsc, rfl⟩)
    ⟨rfl, rfl⟩) ?_
  rintro _ s c ⟨rfl, rfl⟩
  -- nothing below but the note touches the queue or the notes
  let Same : DrainCtx → Prop := fun s' => s'.rx = s.rx ∧ s'.noted = s.noted
  refine .bind (R := fun _ s' c' => Same s' ∧ c' = c) (.modify ⟨⟨rfl, rfl⟩, rfl⟩) ?_
  rintro _ s₁ c ⟨hs₁, rfl⟩
  refine .bind (R := fun _ s' c' => Same s' ∧ c' = c) (.get ⟨hs₁, rfl⟩) ?_
  rintro t s₂ c ⟨hs₂, rfl⟩
  have hnone : ∀ s', Same s' → s'.rx = s.rx ∧ Covers (s'.noted ++ D) r c := fun s' h =>
    ⟨h.1, by rw [h.2]; exact hc⟩
  cases (t.scs sc).rx with
  | none => exact .pure (hnone s₂ hs₂)
  | some rx =>
    refine .ite (fun _ => .pure (hnone s₂ hs₂)) fun _ => ?_
    refine .bind (R := fun _ s' c' => Same s' ∧ c' = c) (.compute ⟨hs₂, rfl⟩) ?_
    rintro buf s₃ c ⟨hs₃, rfl⟩
    refine .ite (fun _ => .pure (hnone s₃ hs₃)) fun _ => ?_
    refine .bind (R := fun _ s' c' => Same s' ∧ c' = c) (.modify ⟨hs₃, rfl⟩) ?_
    rintro _ s₄ c ⟨hs₄, rfl⟩
    obtain ⟨c', hc', hcov⟩ := hc.give (hc.pos hsc)
    refine .bind (.emit (Q := fun _ s' c'' => Same s' ∧ c'' = c') hc' ⟨hs₄, rfl⟩) ?_
    rintro _ s₅ c' ⟨hs₅, rfl⟩
    refine .bind (R := fun _ s' c'' => Same s' ∧ c'' = c') (.modify ⟨hs₅, rfl⟩) ?_
    rintro _ s₆ c' ⟨hs₆, rfl⟩
    refine .bind (R := fun _ s' c'' => Same s' ∧ c'' = c') (.modify ⟨hs₆, rfl⟩) ?_
    rintro _ s₇ c' ⟨hs₇, rfl⟩
    refine .bind (R := fun _ s' c'' => Same s' ∧ c'' = c') (.modify ⟨hs₇, rfl⟩) ?_
    rintro _ s₈ c' ⟨hs₈, rfl⟩
    have hcov₈ : Covers (s₈.noted ++ (sc :: D)) r c' := by
      rw [hs₈.2]
      refine hcov.mono fun p => ?_
      simp only [List.count_append, List.count_cons]
      omega
    refine .bind (pendingFcAdd_completes (hcov.pos hsc) hcov₈) fun _ s₉ c₉ h =>
      .pure ⟨h.1.trans hs₈.1, h.2⟩

theorem drainRxData_completes (h : AtHead e l s) (hr : run act r e.readOps = some r₁)
    (hc : Covers (s.noted ++ D) r c) :
    Completes act (drainRxData e) s c fun d s' c' =>
      AtHead e l s' ∧ Covers (s'.noted ++ ((d.1.bind (·.sc)).toList ++ D)) r₁ c' := by
  unfold drainRxData
  unfold Entry.readOps at hr
  refine .ite (fun hpos => ?_) fun hpos => .ite (fun hstream => ?_) fun hstream => ?_
  · rw [if_pos hpos] at hr
    refine .bind (takeData_completes h hpos hr hc) fun buf s' c' h' => .ite (fun _ => ?_)
      fun _ => .pure h'
    exact .bind (R := fun _ s' c' => AtHead e l s' ∧ Covers (s'.noted ++ D) r₁ c')
      (.modify ⟨h'.1.of_rx (storeSnapshot_rx _ _ _ _), by rw [storeSnapshot_noted]; exact h'.2⟩)
        fun _ _ _ h'' => .pure h''
  · rw [if_neg hpos, if_pos hstream] at hr
    obtain ⟨r₂, hact, hrest⟩ := run_cons_eq_some.1 hr
    cases hrest
    obtain ⟨hsc, rfl⟩ := RefTable.act_use.1 hact
    exact .bind (popChunk_completes hsc hc) fun d s' c' h' => .pure ⟨h.of_rx h'.1, h'.2⟩
  · rw [if_neg hpos, if_neg hstream] at hr
    cases hbuf : e.dataBuf with
    | null =>
      rw [hbuf] at hr
      cases hr
      exact .pure ⟨h, hc⟩
    | owned bytes =>
      rw [hbuf] at hr
      obtain ⟨r₂, hact, -⟩ := run_cons_eq_some.1 hr
      cases hact
    | borrowed sc =>
      rw [hbuf] at hr
      dsimp only at hr
      refine .ite (fun hlen => ?_) fun hlen => .ite (fun hwt => ?_) fun hwt => ?_
      · rw [if_pos hlen] at hr
        cases hr
        exact .pure ⟨h, hc⟩
      · rw [if_neg hlen, if_pos hwt] at hr
        obtain ⟨r₂, hact, hrest⟩ := run_cons_eq_some.1 hr
        cases hrest
        obtain ⟨hsc, rfl⟩ := RefTable.act_use.1 hact
        exact .bind (popChunk_completes hsc hc) fun d s' c' h' => .pure ⟨h.of_rx h'.1, h'.2⟩
      · rw [if_neg hlen, if_neg hwt] at hr
        cases hr
        exact .pure ⟨h, hc⟩

theorem clearData_completes (hc : Covers (D ++ v.data.toList) r c) :
    Completes act v.clearData s c fun v' s' c' => v'.data = none ∧ s' = s ∧ Covers D r c' := by
  unfold CallbackLoop.clearData
  cases hv : v.data with
  | none =>
    rw [hv, Option.toList_none, List.append_nil] at hc
    exact .bind (R := fun _ s' c' => s' = s ∧ Covers D r c') (.pure ⟨rfl, hc⟩) fun _ _ _ h =>
      .pure ⟨rfl, h⟩
  | some sc =>
    rw [hv] at hc
    have hc' : Covers (sc :: D) r c := hc.mono fun p => by
      simp only [Option.toList_some, List.count_append, List.count_cons, List.count_nil]
      omega
    obtain ⟨c', hact, hcov⟩ := hc'.drop
    exact .bind (R := fun _ s' c' => s' = s ∧ Covers D r c') (.emit hact ⟨rfl, hcov⟩) fun _ _ _ h =>
      .pure ⟨rfl, h⟩

/-- The reference that an entry owns is released. -/
theorem rxEventRelease_completes {Q : Unit → DrainCtx → RefTable → Prop}
    (hr : run act r (if e.streamCtx ≠ 0 ∧ rxEventOwnsSc e.eventType then [.destroy e.streamCtx]
    else []) = some r₁)
    (hc : Covers D r c) (hQ : ∀ c', Covers D r₁ c' → Q () s c') :
    Completes act (rxEventRelease e) s c Q := by
  unfold rxEventRelease
  refine .ite (fun h => ?_) fun h => ?_
  · rw [if_pos h] at hr
    exact emit_completes hr hc hQ
  · rw [if_neg h] at hr
    cases hr
    exact .pure (hQ c hc)

/-- A call leaves no more to the variable `data` than the view that it passes. -/
theorem call_count (ev : DrainedEvent) (p : ℕ) :
    (v.call keeps ev).data.toList.count p ≤ (ev.data.bind (·.sc)).toList.count p := by
  unfold CallbackLoop.call
  by_cases hk : keeps (v.calls ++ [ev]) = true
  · simp [hk]
  · simp [hk]

/-- An entry whose requirements are met is handled without touching freed memory. -/
theorem entry_completes (h : AtHead e l s) (hr : run act r e.refOps = some r₁)
    (hc : Covers (s.noted ++ v.data.toList) r c) :
    Completes act (drainRxCallbackEntry keeps e v) s c fun v' s' c' =>
      Ready l s' ∧ Covers (s'.noted ++ v'.data.toList) r₁ c' := by
  unfold drainRxCallbackEntry
  unfold Entry.refOps at hr
  refine .ite (fun hlink => ?_) fun hlink => .ite (fun hwt => ?_) fun hwt =>
    .ite (fun hdestroy => ?_)
    fun hdestroy => .ite (fun htx => ?_) fun htx => .ite (fun hsnap => ?_) fun hsnap => ?_
  · -- a link release
    rw [if_pos hlink] at hr
    refine .bind (R := fun _ s' c' => s' = s ∧ Covers (s.noted ++ v.data.toList) r₁ c') ?_ ?_
    · cases hbuf : e.dataBuf with
      | null =>
        rw [hbuf] at hr
        cases hr
        exact .pure ⟨rfl, hc⟩
      | owned bytes =>
        rw [hbuf] at hr
        exact emit_completes hr hc fun c' h => ⟨rfl, h⟩
      | borrowed link =>
        rw [hbuf] at hr
        exact emit_completes hr hc fun c' h => ⟨rfl, h⟩
    · rintro _ s c ⟨rfl, hcov⟩
      exact pop_completes h hcov
  · -- the end of a WebTransport stream
    rw [if_neg hlink, if_pos hwt] at hr
    cases hr
    exact pop_completes h hc
  · -- the end of a raw stream
    rw [if_neg hlink, if_neg hwt, if_pos hdestroy] at hr
    refine .bind (R := fun _ s' c' => s' = s ∧ Covers (s.noted ++ v.data.toList) r₁ c') ?_ ?_
    · refine .ite (fun hne => ?_) fun hne => ?_
      · rw [if_pos hne] at hr
        exact emit_completes hr hc fun c' h => ⟨rfl, h⟩
      · rw [if_neg hne] at hr
        cases hr
        exact .pure ⟨rfl, hc⟩
    · rintro _ s c ⟨rfl, hcov⟩
      exact pop_completes h hcov
  · rw [if_neg hlink, if_neg hwt, if_neg hdestroy, if_pos htx] at hr
    cases hr
    refine .bind (R := fun _ s' c' => AtHead e l s' ∧ Covers (s'.noted ++ v.data.toList) r c')
      (.modify ⟨h.of_rx rfl, hc⟩) fun _ _ _ h' => pop_completes h'.1 h'.2
  · -- a snapshot
    rw [if_neg hlink, if_neg hwt, if_neg hdestroy, if_neg htx, if_pos hsnap] at hr
    refine .bind (R := fun _ s' c' => AtHead e l s' ∧ Covers (s'.noted ++ v.data.toList) r₁ c') ?_
      fun _ _ _ h' => pop_completes h'.1 h'.2
    refine .ite (fun hpos => ?_) fun hpos => ?_
    · refine .bind (takeData_completes h hpos hr hc) fun buf s' c' h' => .modify ?_
      exact ⟨h'.1.of_rx (storeSnapshot_rx _ _ _ _), by rw [storeSnapshot_noted]; exact h'.2⟩
    · unfold Entry.takeOps at hr
      rw [if_neg hpos] at hr
      cases hr
      exact .pure ⟨h, hc⟩
  · -- every other entry
    rw [if_neg hlink, if_neg hwt, if_neg hdestroy, if_neg htx, if_neg hsnap, run_append] at hr
    obtain ⟨r₂, hread, hrelease⟩ := Option.bind_eq_some_iff.1 hr
    refine .bind (clearData_completes hc) ?_
    rintro v₁ s c ⟨hdata, rfl, hc₁⟩
    refine .bind (drainRxData_completes (D := []) h hread (by rwa [List.append_nil])) ?_
    rintro ⟨data, scPtr⟩ s₂ c₂ ⟨h₂, hc₂⟩
    rw [List.append_nil] at hc₂
    refine .ite (fun hcoalesced => ?_) fun _ => ?_
    · refine .bind (rxEventRelease_completes (Q := fun _ s' c' => s' = s₂ ∧ Covers s₂.noted r₁ c')
        hrelease ?_
        fun c' h => ⟨rfl, h⟩) ?_
      · rw [hcoalesced.1] at hc₂
        exact hc₂.mono fun p => by simp
      · rintro _ s c ⟨rfl, hcov⟩
        exact pop_completes h₂ (by rwa [hdata, Option.toList_none, List.append_nil])
    · refine .bind (R := fun _ s' c' => AtHead e l s' ∧
        Covers (s'.noted ++ (v₁.call keeps (eventOf e data scPtr)).data.toList) r₂ c') ?_ ?_
      · have hcall : ∀ p, (s₂.noted ++ (v₁.call keeps (eventOf e data scPtr)).data.toList).count p ≤
            (s₂.noted ++ (data.bind (·.sc)).toList).count p := by
          intro p
          rw [List.count_append, List.count_append]
          exact Nat.add_le_add_left (call_count _ p) _
        refine .ite (fun _ => .modify ⟨h₂.of_rx (forgetSnapshot_rx _ _), ?_⟩) fun _ =>
          .pure ⟨h₂, hc₂.mono hcall⟩
        rw [forgetSnapshot_noted]
        exact hc₂.mono hcall
      · rintro _ s₃ c₃ ⟨h₃, hc₃⟩
        refine .bind (rxEventRelease_completes (Q := fun _ s' c' => s' = s₃ ∧ Covers _ r₁ c')
          hrelease hc₃
          fun c' h => ⟨rfl, h⟩) ?_
        rintro _ s c ⟨rfl, hcov⟩
        exact pop_completes h₃ hcov

/-- The loop, while the requirements of everything queued are met. -/
theorem loop_completes (n : ℕ) (h : Ready l s) (hr : (run act r (l.flatMap Entry.refOps)).isSome)
    (hc : Covers (s.noted ++ v.data.toList) r c) :
    Completes act (drainRxCallbackLoop keeps n v) s c fun v' s' c' =>
      ∃ r', Covers (s'.noted ++ v'.data.toList) r' c' := by
  induction n generalizing l s v r c with
  | zero => exact .pure ⟨r, hc⟩
  | succ n ih =>
    unfold drainRxCallbackLoop
    obtain ⟨hpeek, hclaimed, hsome⟩ := h.holding.peek h.claimed
    refine .bind (R := fun o s' c' => Ready l s' ∧
      (∀ e, o = some e → ∃ rest, l = e :: rest ∧ AtHead e rest s') ∧
      Covers (s'.noted ++ v.data.toList) r c') (.compute ⟨⟨hpeek, hclaimed⟩, fun e he => ?_, hc⟩) ?_
    · obtain ⟨⟨rest, rfl⟩, hlt⟩ := hsome e he
      exact ⟨rest, rfl, hpeek, hlt⟩
    rintro o s₁ c₁ ⟨h₁, hhead, hc₁⟩
    cases o with
    | none =>
      obtain ⟨hrefill, hclaimed₁⟩ := h₁.holding.refill h₁.claimed
      refine .bind (R := fun _ s' c' => Ready l s' ∧ Covers (s'.noted ++ v.data.toList) r c')
        (.compute ⟨⟨hrefill, hclaimed₁⟩, hc₁⟩) fun moved s₂ c₂ h₂ => ?_
      exact .ite (fun _ => .pure ⟨r, h₂.2⟩) fun _ => ih h₂.1 hr h₂.2
    | some e =>
      obtain ⟨rest, rfl, hat⟩ := hhead e rfl
      obtain ⟨r₂, hr₂⟩ := Option.isSome_iff_exists.1 hr
      rw [List.flatMap_cons, run_append] at hr₂
      obtain ⟨r₁, hr₁, hrest⟩ := Option.bind_eq_some_iff.1 hr₂
      refine .bind (entry_completes hat hr₁ hc₁) fun v' s' c' h' => ?_
      exact ih h'.1 (Option.isSome_iff_exists.2 ⟨r₂, hrest⟩) h'.2

/-! ## The credit -/

theorem wakeWorker_frame (s : DrainCtx) :
    s.wakeWorker.pendingFc = s.pendingFc ∧ s.wakeWorker.rx = s.rx := by
  unfold wakeWorker
  split <;> exact ⟨rfl, rfl⟩

theorem pushFcCreditEvent_completes {cnx streamId sc : ℕ} (hc : Covers (sc :: D) r c) :
    Completes act (pushFcCreditEvent cnx streamId sc) s c fun _ _ c' => Covers (sc :: D) r c' := by
  unfold pushFcCreditEvent
  refine .ite (fun _ => .pure hc) fun _ => ?_
  obtain ⟨c', hact, hcov⟩ := hc.give (hc.pos_of_mem List.mem_cons_self)
  refine .bind (R := fun _ _ c'' => c'' = c') (.emit hact rfl) ?_
  rintro _ s₁ c' rfl
  refine .bind (R := fun _ _ c'' => c'' = c') (.compute rfl) ?_
  rintro rc s₂ c' rfl
  refine .ite (fun _ => .modify (hcov.mono fun p => List.count_le_count_cons)) fun _ => ?_
  obtain ⟨c'', hdrop, hcov'⟩ := hcov.drop
  exact .emit hdrop hcov'

theorem pushFcCredit_completes {cnx streamId sc : ℕ} (hc : Covers (sc :: D) r c) :
    Completes act (pushFcCredit cnx streamId sc) s c fun _ _ c' => Covers (sc :: D) r c' := by
  unfold pushFcCredit
  refine .bind (R := fun _ _ c' => c' = c)
    (.emit (RefTable.act_use.2 ⟨hc.pos_of_mem List.mem_cons_self, rfl⟩) rfl) ?_
  rintro _ s₁ c rfl
  refine .bind (R := fun _ _ c' => c' = c) (.get rfl) ?_
  rintro t s₂ c rfl
  refine .ite (fun _ => .pure hc) fun _ => ?_
  refine .bind (R := fun _ _ c' => c' = c) (.modify rfl) ?_
  rintro _ s₃ c rfl
  exact pushFcCreditEvent_completes hc

theorem flushNotes_completes (notes : List (ℕ × ℕ × ℕ)) (hc : Covers (notes.map (·.1) ++ D) r c) :
    Completes act (flushNotes notes) s c fun _ _ c' => Covers D r c' := by
  induction notes generalizing s c with
  | nil => exact .pure hc
  | cons note notes ih =>
    obtain ⟨sc, cnx, streamId⟩ := note
    refine .bind (pushFcCredit_completes hc) fun _ s₁ c₁ hc₁ => ?_
    obtain ⟨c₂, hdrop, hcov⟩ := hc₁.drop
    refine .bind (R := fun _ _ c' => c' = c₂) (.emit hdrop rfl) ?_
    rintro _ s₂ c₂ rfl
    exact ih hcov

/-! ## The start of a cycle -/

/-- Nothing of the RX queue and of the notes is touched. -/
structure SameQueue (s s' : DrainCtx) : Prop where
  rx : s'.rx = s.rx
  pendingFc : s'.pendingFc = s.pendingFc

theorem SameQueue.trans {t u : DrainCtx} (h : SameQueue s t) (h' : SameQueue t u) : SameQueue s u :=
  ⟨h'.rx.trans h.rx, h'.pendingFc.trans h.pendingFc⟩

theorem dgramRingReleasePost_same (cnx db : ℕ) : SameQueue s (s.dgramRingReleasePost cnx db).2 := by
  unfold dgramRingReleasePost
  dsimp only
  split
  · exact ⟨(wakeWorker_frame _).2, (wakeWorker_frame _).1⟩
  · exact ⟨rfl, rfl⟩

theorem postReleases_same (owed : List (ℕ × ℕ)) : SameQueue s (s.postReleases owed).2 := by
  induction owed generalizing s with
  | nil => exact ⟨rfl, rfl⟩
  | cons db owed ih =>
    unfold postReleases
    dsimp only
    split
    · exact (dgramRingReleasePost_same _ _).trans ih
    · exact dgramRingReleasePost_same _ _

theorem flushReleases_same (fuel : ℕ) : SameQueue s (flushReleases fuel s) := by
  induction fuel generalizing s with
  | zero => exact ⟨rfl, rfl⟩
  | succ fuel ih =>
    have hpost : SameQueue s (s.postReleases s.dgramReleaseOwed).2 := postReleases_same _
    unfold flushReleases
    dsimp only
    split
    · exact ⟨hpost.rx, hpost.pendingFc⟩
    · split
      · exact ⟨hpost.rx, hpost.pendingFc⟩
      · have hrest := @ih { (s.postReleases s.dgramReleaseOwed).2 with
          dgramReleaseOwed := (s.postReleases s.dgramReleaseOwed).1, txEventRingDrainPending :=
            true }
        exact ⟨hrest.rx.trans hpost.rx, hrest.pendingFc.trans hpost.pendingFc⟩

theorem dropSnapshots_same (drops : List (ℕ × Snapshot)) :
    SameQueue s (drops.foldl dropSnapshot s) := by
  induction drops generalizing s with
  | nil => exact ⟨rfl, rfl⟩
  | cons drop drops ih =>
    refine SameQueue.trans ?_ ih
    unfold dropSnapshot
    split <;> exact ⟨rfl, rfl⟩

theorem dgramRingReleaseFlush_same : SameQueue s s.dgramRingReleaseFlush := by
  unfold dgramRingReleaseFlush
  split
  · exact flushReleases_same _
  · exact ⟨rfl, rfl⟩

theorem beginDrainCycle_same : SameQueue s s.beginDrainCycle := by
  have hflush : SameQueue s (if s.dgramReleaseOwed = [] then s else s.dgramRingReleaseFlush) := by
    split
    · exact ⟨rfl, rfl⟩
    · exact dgramRingReleaseFlush_same
  unfold beginDrainCycle
  generalize (if s.dgramReleaseOwed = [] then s else s.dgramRingReleaseFlush) = t at hflush
  have hdrops := @dropSnapshots_same { t with refreshPosted := [] } t.snapshotDrops
  exact ⟨hdrops.rx.trans hflush.rx, hdrops.pendingFc.trans hflush.pendingFc⟩

/-- A drain of a queue whose entries' requirements are met touches nothing that is freed. -/
theorem drain_completes (maxEvents : ℤ) (h : Ready l s)
    (hr : (run act r (l.flatMap Entry.refOps)).isSome) :
    Completes act (drainRxCallback keeps maxEvents) s r fun _ _ _ => True := by
  unfold drainRxCallback
  refine .bind (R := fun _ s' c' => Ready l s' ∧ s'.noted = [] ∧ c' = r)
    (.modify ⟨⟨h.holding, h.claimed⟩, rfl, rfl⟩) ?_
  rintro _ s₁ r ⟨h₁, hnotes₁, rfl⟩
  have hsame := beginDrainCycle_same (s := s₁)
  refine .bind (R := fun _ s' c' => Ready l s' ∧ s'.noted = [] ∧ c' = r)
    (.modify ⟨⟨?_, ?_⟩, ?_, rfl⟩) ?_
  · rw [hsame.rx]
    exact h₁.holding
  · rw [hsame.rx]
    exact h₁.claimed
  · rw [noted, hsame.pendingFc]
    exact hnotes₁
  rintro _ s₂ r ⟨h₂, hnotes₂, rfl⟩
  obtain ⟨hrefill, hclaimed⟩ := h₂.holding.refill h₂.claimed
  refine .bind (R := fun _ s' c' => Ready l s' ∧ s'.noted = [] ∧ c' = r)
    (.compute ⟨⟨hrefill, hclaimed⟩, hnotes₂, rfl⟩) ?_
  rintro _ s₃ r ⟨h₃, hnotes₃, rfl⟩
  refine .bind (loop_completes maxEvents.toNat h₃ hr ?_) ?_
  · rw [hnotes₃]
    exact .refl r
  rintro v s₄ c₄ ⟨r', hc₄⟩
  refine .bind (R := fun _ _ c' => Covers v.data.toList r' c') ?_ fun _ s₅ c₅ hc₅ => ?_
  · refine .bind (R := fun t s' c' => t = s₄ ∧ s' = s₄ ∧ c' = c₄) (.get ⟨rfl, rfl, rfl⟩) ?_
    rintro _ _ _ ⟨rfl, rfl, rfl⟩
    exact .bind (flushNotes_completes _ hc₄) fun _ _ _ h => .modify h
  refine .bind (R := fun _ _ c' => c' = c₅) (.modify rfl) ?_
  rintro _ s₆ c₅ rfl
  exact (clearData_completes (D := []) hc₅).mono fun _ _ _ _ => trivial

end DrainCtx

/-! ## The two drains -/

namespace DrainTransport

/-- Between two drains: the queue is whole, and what its entries ask of the objects they name can be
met, one entry after the other. -/
structure Sound (t : DrainTransport) : Prop where
  inv : t.ctx.rx.q.Inv
  settled : t.ctx.rx.q.Settled
  claimed : t.ctx.rx.q.ring.claimed = false
  backed : (Steps.run RefTable.act t.table (t.ctx.rx.q.queued.flatMap Entry.refOps)).isSome

theorem Sound.completes {t : DrainTransport} (h : t.Sound) (keeps : List DrainedEvent → Bool)
    (maxEvents : ℤ) :
    (t.drainRxCallback keeps maxEvents).isSome := by
  obtain ⟨table, hrun, -⟩ := @DrainCtx.drain_completes t.ctx _ keeps t.table maxEvents
    ⟨⟨h.inv, h.settled, rfl⟩, h.claimed⟩ h.backed
  rw [drainRxCallback, Option.isSome_map, perform, Option.isSome_map, Option.isSome_iff_exists]
  exact ⟨table, hrun⟩

/-- From a transport that has given up its last batch, whatever the queue, the stream contexts and
the caches are: where `drain_rx_callback` touches nothing that is freed, `drain_rx` does not either,
and it returns the arguments of the calls of the handler; once the views that the handler does not
keep and the batch are let go of, the transports are the same. A transport in order is such a
case. -/
theorem drains_agree (keeps : List DrainedEvent → Bool) (maxEvents : ℤ) {t₀ t : DrainTransport}
    (h₀ : t₀.releaseBatch = some t) :
    (∀ calls count t', t.drainRxCallback keeps maxEvents = some ((calls, count), t') →
      ∃ t₁ t₂, t₀.drainRx maxEvents = some (calls, t₁) ∧ t₁.dropViews keeps calls = some t₂ ∧
        t₂.releaseBatch = some t') ∧
    (t.Sound → (t.drainRxCallback keeps maxEvents).isSome) :=
  ⟨fun _ _ _ h => drainRx_of_callback maxEvents h₀ h, fun h => h.completes keeps maxEvents⟩

/-- A transport with a raw stream at `7` and a WebTransport stream at `9` whose link is `3`. Their
bytes are announced in the ring, and that both end is in the overflow. -/
def endingTransport : DrainTransport where
  ctx :=
    { rx :=
        { WakeCtx.create (.ofExp 1 Circular.Geometry.exp_one) with
          q :=
            { RxQueue.create (.ofExp 1 Circular.Geometry.exp_one) with
              ring :=
                { SpscRing.create (.ofExp 1 Circular.Geometry.exp_one) with
                  tail := 2
                  entries := fun i => if i = 0
                    then { eventType := .streamData, cnx := 1, streamCtx := 7 }
                    else { eventType := .wtStreamData, cnx := 1, streamCtx := 5, dataBuf := .borrowed 9 }
                  log := [{ eventType := .streamData, cnx := 1, streamCtx := 7 },
                    { eventType := .wtStreamData, cnx := 1, streamCtx := 5, dataBuf := .borrowed 9 }] }
              ovf := ⟨[{ eventType := .streamDestroy, cnx := 1, streamCtx := 7 },
                { eventType := .wtStreamLinkRelease, dataBuf := .borrowed 3 }], 2, 2, 2⟩ } }
      tx := .create (.ofExp 1 Circular.Geometry.exp_one)
      scs := fun _ => { rx := some { StreamBuf.create 4 false with tail := 1, writes := [[5]] } }
      threadCtx := true
      txWorkerIdle := true
      workerWakes := 0
      txEventRingDrainPending := false
      txEventRingLowWater := 1
      dgramReleaseOwed := [(1, 8)]
      rxDataRingCap := 4
      snapshotSize := 3
      cnxSnapshots := fun _ => none
      snapshotDrops := []
      refreshPosted := []
      txEventRingDrainEvent := none
      objects := 0
      mallocs := fun _ => true
      pendingFc := []
      hung := false }
  table := { refs := fun sc => if sc = 7 then 2 else if sc = 9 then 1 else 0, links := fun l => if l = 3 then some 9 else none }
  batchRefs := []

theorem endingTransport_sound : endingTransport.Sound where
  inv :=
    { ring :=
        { window :=
            { head_le := by decide
              tail_le := by decide
              tail_le_length := by decide
              slot := by
                intro i _ hi
                have hi : i < 2 := hi
                interval_cases i <;> rfl }
          length := rfl
          tail_le := by decide
          room := by decide }
      depth := rfl
      writing := by decide
      transit := by decide
      owed := by decide
      refilling := by decide
      fault := rfl }
  settled := ⟨rfl, rfl, rfl⟩
  claimed := rfl
  backed := by decide +kernel

theorem drains_agree_endingTransport : ∃ calls count t' t₁ t₂,
    endingTransport.drainRxCallback (fun calls => calls.length = 1) 9 = some ((calls, count), t') ∧
      endingTransport.drainRx 9 = some (calls, t₁) ∧ t₁.dropViews (fun calls => calls.length = 1)
      calls = some t₂ ∧
      t₂.releaseBatch = some t' := by
  obtain ⟨hagree, hsound⟩ :=
    drains_agree (fun calls => calls.length = 1) 9
      (rfl : endingTransport.releaseBatch = some endingTransport)
  obtain ⟨⟨⟨calls, count⟩, t'⟩, hcb⟩ := Option.isSome_iff_exists.1 (hsound endingTransport_sound)
  obtain ⟨t₁, t₂, h₁, h₂, h₃⟩ := hagree calls count t' hcb
  exact ⟨calls, count, t', t₁, t₂, hcb, h₁, h₂, h₃⟩

/-- The list has the two chunks and the end of the raw stream, the batch holds the raw stream's
reference, that of its first entry and the link, and the callback drain counts all four entries. -/
example : (endingTransport.drainRx 9).map (fun out => (out.1.map (·.eventType), out.2.batchRefs)) =
      some ([.streamData, .wtStreamData, .streamDestroy], [⟨7, false⟩, ⟨7, false⟩, ⟨3, true⟩]) ∧
    (endingTransport.drainRxCallback (fun _ => false) 9).map
      (fun out => (out.1.2, out.2.table.refs 9)) =
      some (4, 0) := by
  decide +kernel

end DrainTransport

end Aiopquic
