import Aiopquic.RaisingDrainBooks

/-!
# One entry of a drain whose handler raises

What a drain does entry by entry to the queue, to the books and to the calls of the handler. An
entry whose handler raised is still at the head, with what the call left of it in its slot.
-/

namespace Aiopquic

open Traced
open Steps (run run_cons_eq_some run_append)

namespace DrainCtx

open RefTable (Surplus act)

variable {s : DrainCtx} {e : Entry} {l : List Entry} {v : CallbackLoop}
  {keeps raises : List DrainedEvent → Bool} {r r₁ c : RefTable} {D : List ℕ}
  {sc cnx streamId : ℕ} {calls : List DrainedEvent}

/-! ## The credit -/

theorem wakeWorker_tx (s : DrainCtx) : s.wakeWorker.tx = s.tx := by
  unfold wakeWorker
  split <;> rfl

/-- Only the books and the queue are of interest. -/
def Kept (D : List ℕ) (rx : WakeCtx) (r : RefTable) (s : DrainCtx) (c : RefTable) : Prop :=
  s.rx = rx ∧ Books D s r c

theorem pushFcCreditEvent_books (hc : Books (sc :: D) s r c) :
    Completes act (pushFcCreditEvent cnx streamId sc) s c fun _ => Kept (sc :: D) s.rx r := by
  unfold pushFcCreditEvent
  refine .ite (fun _ => .pure ⟨rfl, hc⟩) fun hnull => ?_
  obtain ⟨c₁, hact, hc₁⟩ := hc.give hc.pos
  refine .bind (R := fun _ s' c' => s' = s ∧ c' = c₁) (.emit hact ⟨rfl, rfl⟩) ?_
  rintro _ s c₁ ⟨rfl, rfl⟩
  refine .bind (R := fun rc s' c' => s'.rx = s.rx ∧
    (rc = 0 → Books (sc :: D) s' r c') ∧ (rc ≠ 0 → Books (sc :: sc :: D) s' r c'))
    (.compute ⟨rfl, fun hrc => ?_, fun hrc => hc₁.txPush_full hrc⟩) ?_
  · -- the command takes over the new reference
    refine Books.txPush ?_ hrc
    have href : ∀ e : Entry, e.eventType = .txOpenFlowControl → e.streamCtx = sc →
        e.ref = some sc := by
      rintro e htype rfl
      exact if_pos ⟨fun h => hnull (.inr h), by rw [htype]; rfl⟩
    rw [href _ rfl rfl]
    exact hc₁
  rintro rc s₁ c₂ ⟨hrx, hpushed, hfull⟩
  refine .ite (fun hrc => .modify ?_) fun hrc => ?_
  · have htx : (if s₁.threadCtx then s₁.wakeWorker else s₁).tx = s₁.tx := by
      split
      · exact wakeWorker_tx s₁
      · rfl
    refine ⟨?_, (hpushed hrc).of_tx htx⟩
    split
    · exact (wakeWorker_frame s₁).2.trans hrx
    · exact hrx
  · obtain ⟨c₃, hdrop, hc₃⟩ := (hfull hrc).drop
    exact .emit hdrop ⟨hrx, hc₃⟩

theorem pushFcCredit_books (hc : Books (sc :: D) s r c) :
    Completes act (pushFcCredit cnx streamId sc) s c fun _ => Kept (sc :: D) s.rx r := by
  unfold pushFcCredit
  refine .bind (R := fun _ s' c' => s' = s ∧ c' = c)
    (.emit (RefTable.act_use.2 ⟨hc.pos, rfl⟩) ⟨rfl, rfl⟩) ?_
  rintro _ s c ⟨rfl, rfl⟩
  refine .bind (R := fun t s' c' => s' = s ∧ c' = c) (.get ⟨rfl, rfl⟩) ?_
  rintro t s c ⟨rfl, rfl⟩
  refine .ite (fun _ => .pure ⟨rfl, hc⟩) fun _ => ?_
  refine .bind (R := fun _ => Kept (sc :: D) s.rx r) (.modify ⟨rfl, hc.of_tx rfl⟩) ?_
  rintro _ s₁ c₁ ⟨hrx, hc₁⟩
  exact (pushFcCreditEvent_books hc₁).mono fun _ s₂ c₂ h => ⟨h.1.trans hrx, h.2⟩

/-- Each note is settled, and its reference dropped. -/
theorem flushNotes_books (notes : List (ℕ × ℕ × ℕ)) (hc : Books (notes.map (·.1) ++ D) s r c) :
    Completes act (flushNotes notes) s c fun _ => Kept D s.rx r := by
  induction notes generalizing s c with
  | nil => exact .pure ⟨rfl, hc⟩
  | cons note notes ih =>
    obtain ⟨sc, cnx, streamId⟩ := note
    refine .bind (pushFcCredit_books hc) ?_
    rintro _ s₁ c₁ ⟨hrx, hc₁⟩
    obtain ⟨c₂, hdrop, hc₂⟩ := hc₁.drop
    refine .bind (R := fun _ => Kept (notes.map (·.1) ++ D) s.rx r) (.emit hdrop ⟨hrx, hc₂⟩) ?_
    rintro _ s₂ c₃ ⟨hrx₂, hc₃⟩
    exact (ih hc₃).mono fun _ s₃ c₄ h => ⟨h.1.trans hrx₂, h.2⟩

theorem flushPendingFc_books (hc : Books (s.noted ++ D) s r c) :
    Completes act flushPendingFc s c fun _ s' c' => Kept D s.rx r s' c' ∧ s'.noted = [] := by
  unfold flushPendingFc
  refine .bind (R := fun t s' c' => t = s ∧ s' = s ∧ c' = c) (.get ⟨rfl, rfl, rfl⟩) ?_
  rintro _ s c ⟨rfl, rfl, rfl⟩
  refine .bind (flushNotes_books s.pendingFc hc) ?_
  rintro _ s₁ c₁ ⟨hrx, hc₁⟩
  exact .modify ⟨⟨hrx, hc₁.of_tx rfl⟩, rfl⟩

/-! ## The views that are kept -/

/-- The contexts of the views that the handler keeps, among the calls with `events` after `calls`.
-/
def viewsKept (keeps : List DrainedEvent → Bool) : List DrainedEvent → List DrainedEvent → List ℕ
  | _, [] => []
  | calls, ev :: events =>
    (if keeps (calls ++ [ev]) then (ev.data.bind (·.sc)).toList else []) ++
      viewsKept keeps (calls ++ [ev]) events

theorem viewsKept_concat (events : List DrainedEvent) (ev : DrainedEvent) :
    viewsKept keeps calls (events ++ [ev]) = viewsKept keeps calls events ++
      if keeps (calls ++ events ++ [ev]) then (ev.data.bind (·.sc)).toList else [] := by
  induction events generalizing calls with
  | nil => simp [viewsKept]
  | cons e' events ih => simp [viewsKept, ih]

/-- What a drain holds besides the commands: the notes, the chunk in the variable `data`, and the
chunks of the views that the handler has kept. -/
def inHand (keeps : List DrainedEvent → Bool) (v : CallbackLoop) : List ℕ :=
  v.data.toList ++ viewsKept keeps [] v.calls

/-- A call passes the chunk of its event on to the handler, or leaves it to the variable. -/
theorem count_inHand_call (keeps : List DrainedEvent → Bool) (hdata : v.data = none)
    (ev : DrainedEvent) (p : ℕ) :
    (inHand keeps (v.call keeps ev)).count p =
      (ev.data.bind (·.sc)).toList.count p + (inHand keeps v).count p := by
  unfold inHand CallbackLoop.call
  rw [viewsKept_concat, hdata]
  by_cases hk : keeps (v.calls ++ [ev]) = true
  · simp only [hk, List.nil_append, if_true, Option.toList_none, List.count_append]
    omega
  · simp only [hk, List.nil_append, Option.toList_none, List.count_append]
    simp

/-- A call without a view changes nothing of it. -/
theorem inHand_destroyed (keeps : List DrainedEvent → Bool) (v : CallbackLoop) (e : Entry) :
    inHand keeps { v with calls := v.calls ++ [destroyEventOf e] } = inHand keeps v := by
  unfold inHand
  rw [viewsKept_concat]
  split <;> simp [destroyEventOf]

theorem clearData_books {N : List ℕ} (hc : Books (N ++ inHand keeps v ++ D) s r c) :
    Completes act v.clearData s c fun v' s' c' => v'.data = none ∧ v'.calls = v.calls ∧ s' = s ∧
      Books (N ++ viewsKept keeps [] v.calls ++ D) s r c' := by
  unfold CallbackLoop.clearData
  unfold inHand at hc
  cases hv : v.data with
  | none =>
    rw [hv] at hc
    refine .bind (R := fun _ s' c' => s' = s ∧ c' = c) (.pure ⟨rfl, rfl⟩) ?_
    rintro _ _ _ ⟨rfl, rfl⟩
    exact .pure ⟨rfl, rfl, rfl, hc⟩
  | some sc =>
    rw [hv] at hc
    have hc' : Books (sc :: (N ++ viewsKept keeps [] v.calls ++ D)) s r c :=
      hc.perm fun p => by
        simp only [Option.toList_some, List.count_append, List.count_cons, List.count_nil]
        omega
    obtain ⟨c₁, hact, hc₁⟩ := hc'.drop
    refine .bind (R := fun _ s' c' => s' = s ∧ c' = c₁) (.emit hact ⟨rfl, rfl⟩) ?_
    rintro _ _ _ ⟨rfl, rfl⟩
    exact .pure ⟨rfl, rfl, rfl, hc₁⟩

/-! ## The slot at the head -/

/-- The slot at the head of the ring. -/
def headSlot (s : DrainCtx) : Entry :=
  s.rx.q.ring.entries (s.rx.q.ring.head &&& s.rx.q.ring.geo.mask)

/-- At the entry `e` with `l` behind it, with `shown` in its slot. -/
structure AtSlot (shown e : Entry) (l : List Entry) (s : DrainCtx) : Prop extends AtHead e l s where
  slot : s.headSlot = shown

theorem AtSlot.of_rx {shown : Entry} {s' : DrainCtx} (h : AtSlot shown e l s) (hrx : s'.rx = s.rx) :
    AtSlot shown e l s' :=
  ⟨h.toAtHead.of_rx hrx, by rw [headSlot, hrx]; exact h.slot⟩

/-- `aiopquic_clear_rx` leaves what a refill leaves of the queue. -/
theorem clearRx_q (w : WakeCtx) : (WakeCtx.clearRx.exec w).2.q = (RxQueue.refill.exec w.q).2 := by
  have hon : ∀ {α : Type} (p : Interleave.Prog RxQueue α) (w : WakeCtx),
      (p.on WakeCtx.qLoc).exec w = ((p.exec w.q).1, { w with q := (p.exec w.q).2 }) :=
    fun p w => Interleave.Prog.exec_on WakeCtx.qLoc (fun _ _ _ => rfl) (fun _ => rfl) p w
  have hcount : ∀ q, (RxQueue.count.exec q).2 = q := fun _ => rfl
  unfold WakeCtx.clearRx
  rw [Interleave.Prog.exec_bind, hon, Interleave.Prog.exec_bind, Interleave.Prog.exec_modify,
    Interleave.Prog.exec_bind, Interleave.Prog.exec_modify, Interleave.Prog.exec_bind, hon]
  dsimp only
  rw [hcount]
  split
  · rfl
  · rw [Interleave.Prog.exec_bind, Interleave.Prog.exec_load]
    dsimp only
    split
    · rfl
    · rfl

/-- The entry is popped, and the loop goes on with `v`. -/
theorem pop_books (h : AtHead e l s) (hc : Books D s r c) :
    Completes act (do onRx RxQueue.pop; pure (.ok v : Except HandlerRaised CallbackLoop)) s c
      fun out s' c' => out = .ok v ∧ Ready l s' ∧ s'.noted = s.noted ∧ Books D s' r c' := by
  obtain ⟨hpop, hclaimed⟩ := h.holding.pop h.lt
  refine .bind (R := fun _ s' c' => Ready l s' ∧ s'.noted = s.noted ∧ Books D s' r c')
    (.compute ⟨⟨hpop, hclaimed⟩, rfl, hc.of_tx rfl⟩) ?_
  exact fun _ _ _ h' => .pure ⟨rfl, h'⟩

/-! ## The data of an entry -/

/-- Reading an entry needs contexts, and changes no reference. -/
theorem readOps_run (hr : run act r e.readOps = some r₁) : r₁ = r := by
  have htake : run act r e.takeOps = some r₁ → r₁ = r := by
    unfold Entry.takeOps
    intro htake
    split at htake
    · cases hbuf : e.dataBuf with
      | borrowed ptr =>
        rw [hbuf] at htake
        obtain ⟨r₂, hact, -⟩ := run_cons_eq_some.1 htake
        cases hact
      | null =>
        rw [hbuf] at htake
        cases htake
        rfl
      | owned bytes =>
        rw [hbuf] at htake
        cases htake
        rfl
    · cases htake
      rfl
  have huse : ∀ p, run act r [.use p] = some r₁ → r₁ = r := by
    intro p huse
    obtain ⟨r₂, hact, hrest⟩ := run_cons_eq_some.1 huse
    cases hrest
    exact (RefTable.act_use.1 hact).2.symm
  unfold Entry.readOps at hr
  split at hr
  · exact htake hr
  split at hr
  · exact huse _ hr
  cases hbuf : e.dataBuf with
  | null =>
    rw [hbuf] at hr
    cases hr
    rfl
  | owned bytes =>
    rw [hbuf] at hr
    obtain ⟨r₂, hact, -⟩ := run_cons_eq_some.1 hr
    cases hact
  | borrowed sc =>
    rw [hbuf] at hr
    dsimp only at hr
    split at hr
    · cases hr
      rfl
    split at hr
    · exact huse _ hr
    · cases hr
      rfl

/-- The payload is taken out of the slot. -/
theorem takeData_books (h : AtSlot e e l s) (hload : e.Loaded)
    (hr : run act r e.takeOps = some r₁) (hc : Books D s r c) :
    Completes act (takeData e) s c fun buf s' c' => buf = e.payload ∧
      AtSlot { e with dataBuf := .null, dataLength := 0 } e l s' ∧ s'.noted = s.noted ∧
      Books D s' r c' := by
  unfold Entry.takeOps at hr
  rw [if_pos (show 0 < e.dataLength ∧ e.dataBuf ≠ .null from hload)] at hr
  unfold takeData
  refine .bind (R := fun _ s' c' => s' = s ∧ c' = c) ?_ ?_
  · cases hbuf : e.dataBuf with
    | borrowed ptr =>
      rw [hbuf] at hr
      obtain ⟨r₂, hact, -⟩ := run_cons_eq_some.1 hr
      cases hact
    | null => exact .pure ⟨rfl, rfl⟩
    | owned bytes => exact .pure ⟨rfl, rfl⟩
  rintro _ s c ⟨rfl, rfl⟩
  obtain ⟨htake, hlt⟩ := h.holding.takeData (e := e) h.lt
  refine .bind (R := fun _ s' c' => AtSlot { e with dataBuf := .null, dataLength := 0 } e l s' ∧
    s'.noted = s.noted ∧ Books D s' r c') (.compute ⟨⟨⟨htake, hlt⟩, ?_⟩, rfl, hc.of_tx rfl⟩) ?_
  · exact Function.update_self ..
  · exact fun _ _ _ h' => .pure ⟨rfl, h'⟩

theorem pendingFcAdd_books (hsc : 0 < c.refs sc) (hc : Books (s.noted ++ D) s r c) :
    Completes act (pendingFcAdd sc cnx streamId) s c fun _ s' c' =>
      s'.rx = s.rx ∧ Books (s'.noted ++ D) s' r c' := by
  unfold pendingFcAdd
  refine .bind (R := fun a s' c' => a = s ∧ s' = s ∧ c' = c) (.get ⟨rfl, rfl, rfl⟩) ?_
  rintro _ s c ⟨rfl, rfl, rfl⟩
  refine .ite (fun _ => .pure ⟨rfl, hc⟩) fun _ => ?_
  obtain ⟨c₁, hact, hc₁⟩ := hc.give hsc
  refine .bind (R := fun _ s' c' => s' = s ∧ c' = c₁) (.emit hact ⟨rfl, rfl⟩) ?_
  rintro _ s c₁ ⟨rfl, rfl⟩
  refine .modify ⟨rfl, Books.of_tx (s := s) (hc₁.perm fun p => ?_) rfl⟩
  simp only [noted, List.map_append, List.map_cons, List.map_nil, List.count_append,
    List.count_cons, List.count_nil]
  omega

/-- Bytes that are popped come with a reference to their context, and with a note. -/
theorem popChunk_books (hsc : 0 < r.refs sc) (hc : Books (s.noted ++ D) s r c) :
    Completes act (popChunk sc cnx streamId) s c fun d s' c' => s'.rx = s.rx ∧
      (∀ chunk, d = some chunk → chunk.sc = some sc) ∧
      Books (s'.noted ++ ((d.bind (·.sc)).toList ++ D)) s' r c' := by
  unfold popChunk
  refine .bind (R := fun _ s' c' => s' = s ∧ c' = c)
    (.emit (RefTable.act_use.2 ⟨hc.surplus.pos hsc, rfl⟩) ⟨rfl, rfl⟩) ?_
  rintro _ s c ⟨rfl, rfl⟩
  -- nothing below but the note touches the queue, the commands or the notes
  let Same : DrainCtx → Prop := fun s' => s'.rx = s.rx ∧ s'.noted = s.noted ∧ s'.tx = s.tx
  refine .bind (R := fun _ s' c' => Same s' ∧ c' = c) (.modify ⟨⟨rfl, rfl, rfl⟩, rfl⟩) ?_
  rintro _ s₁ c ⟨hs₁, rfl⟩
  refine .bind (R := fun _ s' c' => Same s' ∧ c' = c) (.get ⟨hs₁, rfl⟩) ?_
  rintro t s₂ c ⟨hs₂, rfl⟩
  have hnone : ∀ s', Same s' → s'.rx = s.rx ∧
      (∀ chunk, (none : Option ChunkView) = some chunk → chunk.sc = some sc) ∧
      Books (s'.noted ++ D) s' r c := by
    intro s' hsame
    refine ⟨hsame.1, by simp, ?_⟩
    rw [hsame.2.1]
    exact hc.of_tx hsame.2.2
  cases (t.scs sc).rx with
  | none => exact .pure (hnone s₂ hs₂)
  | some rx =>
    refine .ite (fun _ => .pure (hnone s₂ hs₂)) fun _ => ?_
    refine .bind (R := fun _ s' c' => Same s' ∧ c' = c) (.compute ⟨hs₂, rfl⟩) ?_
    rintro buf s₃ c ⟨hs₃, rfl⟩
    refine .ite (fun _ => .pure (hnone s₃ hs₃)) fun _ => ?_
    refine .bind (R := fun _ s' c' => Same s' ∧ c' = c) (.modify ⟨hs₃, rfl⟩) ?_
    rintro _ s₄ c ⟨hs₄, rfl⟩
    obtain ⟨c₁, hact, hc₁⟩ := hc.give (hc.surplus.pos hsc)
    refine .bind (R := fun _ s' c' => Same s' ∧ c' = c₁) (.emit hact ⟨hs₄, rfl⟩) ?_
    rintro _ s₅ c₁ ⟨hs₅, rfl⟩
    refine .bind (R := fun _ s' c' => Same s' ∧ c' = c₁) (.modify ⟨hs₅, rfl⟩) ?_
    rintro _ s₆ c₁ ⟨hs₆, rfl⟩
    refine .bind (R := fun _ s' c' => Same s' ∧ c' = c₁) (.modify ⟨hs₆, rfl⟩) ?_
    rintro _ s₇ c₁ ⟨hs₇, rfl⟩
    refine .bind (R := fun _ s' c' => Same s' ∧ c' = c₁) (.modify ⟨hs₇, rfl⟩) ?_
    rintro _ s₈ c₁ ⟨⟨hrx, hnoted, htx⟩, rfl⟩
    have hc₈ : Books (s₈.noted ++ (sc :: D)) s₈ r c₁ := by
      rw [hnoted]
      refine (hc₁.of_tx htx).perm fun p => ?_
      simp only [List.count_append, List.count_cons]
      omega
    refine .bind (pendingFcAdd_books (hc₁.surplus.pos hsc) hc₈) fun _ s₉ c₉ h => ?_
    refine .pure ⟨h.1.trans hrx, ?_, h.2⟩
    rintro chunk ⟨⟩
    rfl

end DrainCtx

end Aiopquic
