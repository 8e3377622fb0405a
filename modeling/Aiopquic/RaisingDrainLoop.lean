import Aiopquic.RaisingDrainEntry

/-!
# A whole drain whose handler raises

A drain handles the queue's entries in order, each with at most one call. It ends where its handler
raises, and leaves that entry at the head. Its books then are those of the entries handled, but for
the notes of the cycle when the handler was called bare.
-/

namespace Aiopquic

open Traced
open Steps (run run_cons_eq_some run_append)

/-- The calls for an entry that a drain has popped. -/
def Entry.Handled (e : Entry) (calls : List DrainedEvent) : Prop :=
  calls = [] ∧ e.Quiet ∨ ∃ ev, calls = [ev] ∧ e.Presents ev

namespace DrainCtx

open RefTable (Surplus act)

variable {s s' : DrainCtx} {e : Entry} {l : List Entry} {v v' : CallbackLoop}
  {keeps raises : List DrainedEvent → Bool} {r r₁ c c' : RefTable} {D : List ℕ}
  {out : Except HandlerRaised CallbackLoop}

/-! ## One entry -/

theorem drainRxData_books (h : AtSlot e e l s) (hbare : ¬ e.Bare)
    (hr : run act r e.readOps = some r₁) (hc : Books (s.noted ++ D) s r c) :
    Completes act (drainRxCallbackData e) s c fun d s' c' =>
      AtSlot e.left e l s' ∧ d.2 = e.scPtr ∧ e.Shows d.1 ∧
        Books (s'.noted ++ ((d.1.bind (·.sc)).toList ++ D)) s' r c' := by
  obtain rfl := readOps_run hr
  have hunloaded : ¬ e.Loaded → e.left = e := fun hload => by
    rw [Entry.left, if_neg hbare, if_neg hload]
  unfold drainRxCallbackData
  unfold Entry.readOps at hr
  refine .ite (fun hpos => ?_) fun hpos => .ite (fun hstream => ?_) fun hstream => ?_
  · -- the entry's own payload
    rw [if_pos hpos] at hr
    have hleft : e.left = { e with dataBuf := .null, dataLength := 0 } := by
      rw [Entry.left, if_neg hbare, if_pos (show e.Loaded from hpos)]
    have hptr : e.scPtr = 0 := if_pos (show e.Loaded from hpos)
    refine .bind (takeData_books h hpos hr hc) ?_
    rintro buf s₁ c₁ ⟨rfl, h₁, hnoted, hc₁⟩
    rw [← hleft] at h₁
    rw [← hnoted] at hc₁
    refine .ite (fun hsnap => ?_) fun hsnap => ?_
    · refine .bind (R := fun _ s' c' => AtSlot e.left e l s' ∧ Books (s'.noted ++ D) s' r₁ c')
        (.modify ⟨h₁.of_rx (storeSnapshot_rx _ _ _ _), ?_⟩) fun _ s₂ c₂ h₂ => ?_
      · rw [storeSnapshot_noted]
        refine hc₁.of_tx ?_
        unfold storeSnapshot
        split <;> rfl
      · refine .pure ⟨h₂.1, hptr.symm, ?_, h₂.2⟩
        rw [Entry.Shows, if_pos (show e.Loaded from hpos), if_pos hsnap]
    · refine .pure ⟨h₁, hptr.symm, ?_, hc₁⟩
      rw [Entry.Shows, if_pos (show e.Loaded from hpos), if_neg hsnap]
  · -- the bytes of a raw stream
    rw [if_neg hpos, if_pos hstream] at hr
    obtain ⟨r₂, hact, -⟩ := run_cons_eq_some.1 hr
    obtain ⟨hsc, -⟩ := RefTable.act_use.1 hact
    have hannounced : e.announced = some e.streamCtx := if_pos hstream
    have hptr : e.scPtr = 0 := by
      rw [Entry.scPtr, if_neg (show ¬ e.Loaded from hpos), if_pos hstream]
    refine .bind (popChunk_books hsc hc) ?_
    rintro d s₁ c₁ ⟨hrx, hchunk, hc₁⟩
    refine .pure ⟨?_, hptr.symm, ?_, hc₁⟩
    · rw [hunloaded hpos]
      exact h.of_rx hrx
    · rw [Entry.Shows, if_neg (show ¬ e.Loaded from hpos)]
      intro chunk hd
      rw [hchunk chunk hd]
      exact ⟨by simp, hannounced⟩
  · rw [if_neg hpos, if_neg hstream] at hr
    have hnone : e.Shows none := by
      rw [Entry.Shows, if_neg (show ¬ e.Loaded from hpos)]
      simp
    have hat : AtSlot e.left e l s := by
      rw [hunloaded hpos]
      exact h
    cases hbuf : e.dataBuf with
    | null =>
      have hptr : e.scPtr = 0 := by
        rw [Entry.scPtr, if_neg (show ¬ e.Loaded from hpos), if_neg hstream, hbuf]
      exact .pure ⟨hat, hptr.symm, hnone, hc⟩
    | owned bytes =>
      rw [hbuf] at hr
      obtain ⟨r₂, hact, -⟩ := run_cons_eq_some.1 hr
      cases hact
    | borrowed sc =>
      have hptr : e.scPtr = if e.dataLength ≠ 0 then 0 else sc := by
        rw [Entry.scPtr, if_neg (show ¬ e.Loaded from hpos), if_neg hstream, hbuf]
      rw [hbuf] at hr
      dsimp only at hr
      refine .ite (fun hlen => ?_) fun hlen => .ite (fun hwt => ?_) fun hwt => ?_
      · rw [if_pos hlen] at hptr
        exact .pure ⟨hat, hptr.symm, hnone, hc⟩
      · -- the bytes of a WebTransport stream
        rw [if_neg hlen, if_pos hwt] at hr
        rw [if_neg hlen] at hptr
        obtain ⟨r₂, hact, -⟩ := run_cons_eq_some.1 hr
        obtain ⟨hsc, -⟩ := RefTable.act_use.1 hact
        have hannounced : e.announced = some sc := by
          rw [Entry.announced, if_neg hstream, hbuf]
          exact if_pos ⟨not_not.1 hlen, hwt⟩
        refine .bind (popChunk_books hsc hc) ?_
        rintro d s₁ c₁ ⟨hrx, hchunk, hc₁⟩
        refine .pure ⟨hat.of_rx hrx, hptr.symm, ?_, hc₁⟩
        rw [Entry.Shows, if_neg (show ¬ e.Loaded from hpos)]
        intro chunk hd
        rw [hchunk chunk hd]
        exact ⟨by simp, hannounced⟩
      · rw [if_neg hlen] at hptr
        exact .pure ⟨hat, hptr.symm, hnone, hc⟩

/-- The reference that an entry owns is released. -/
theorem rxEventRelease_books
    (hr : run act r (if e.streamCtx ≠ 0 ∧ rxEventOwnsSc e.eventType then [.destroy e.streamCtx]
      else []) = some r₁)
    (hc : Books D s r c) :
    Completes act (rxEventRelease e) s c fun _ s' c' => s' = s ∧ Books D s r₁ c' := by
  obtain ⟨c₁, hact, hc₁⟩ := hc.run hr
  unfold rxEventRelease
  refine .ite (fun h => ?_) fun h => ?_
  · rw [if_pos h] at hact
    obtain ⟨c₂, hact, hrest⟩ := run_cons_eq_some.1 hact
    cases hrest
    exact .emit hact ⟨rfl, hc₁⟩
  · rw [if_neg h] at hact
    cases hact
    exact .pure ⟨rfl, hc₁⟩

/-- The notes whose references are lost when the handler has raised: those of the cycle, if it was
called bare. -/
def HandlerRaised.lost (x : HandlerRaised) : List ℕ :=
  if x.entry.Bare then x.notes.map (·.1) else []

/-- What a drain makes of the entry `e`, with `l` behind it. -/
def EntryEnd (keeps : List DrainedEvent → Bool) (D : List ℕ) (e : Entry) (l : List Entry)
    (v : CallbackLoop) (r r₁ : RefTable) (out : Except HandlerRaised CallbackLoop) (s : DrainCtx)
    (c : RefTable) : Prop :=
  match out with
  | .ok v' => Ready l s ∧ (∃ calls, v'.calls = v.calls ++ calls ∧ e.Handled calls) ∧
      Books (s.noted ++ inHand keeps v' ++ D) s r₁ c
  | .error x => x.entry = e ∧ e.Presents x.event ∧ x.loop.calls = v.calls ++ [x.event] ∧
      AtSlot e.left e l s ∧ Books (inHand keeps x.loop ++ (x.lost ++ D)) s r c

/-- The entry is popped after at most one call. -/
theorem popped_end {calls : List DrainedEvent} (h : AtHead e l s)
    (hc : Books (s.noted ++ inHand keeps v' ++ D) s r₁ c) (hcalls : v'.calls = v.calls ++ calls)
    (hhandled : e.Handled calls) :
    Completes act (do onRx RxQueue.pop; pure (.ok v' : Except HandlerRaised CallbackLoop)) s c
      (EntryEnd keeps D e l v r r₁) := by
  refine (pop_books (D := s.noted ++ inHand keeps v' ++ D) h hc).mono ?_
  rintro _ s₁ c₁ ⟨rfl, hready, hnoted, hc₁⟩
  refine ⟨hready, ⟨calls, hcalls, hhandled⟩, ?_⟩
  rw [hnoted]
  exact hc₁

/-- The handler raises where it is called bare. -/
theorem bare_end (hbare : e.Bare) (h : AtSlot e e l s)
    (hc : Books (s.noted ++ inHand keeps v ++ D) s r c) :
    Completes act (raiseFrom e { v with calls := v.calls ++ [destroyEventOf e] } (destroyEventOf e))
      s c (EntryEnd keeps D e l v r r₁) := by
  unfold raiseFrom
  refine .bind (R := fun t s' c' => t = s ∧ s' = s ∧ c' = c) (.get ⟨rfl, rfl, rfl⟩) ?_
  rintro _ s c ⟨rfl, rfl, rfl⟩
  refine .pure ⟨rfl, ?_, rfl, ?_, hc.perm fun p => ?_⟩
  · rw [Entry.Presents, if_pos hbare]
  · rw [Entry.left, if_pos hbare]
    exact h
  · rw [HandlerRaised.lost, if_pos hbare, inHand_destroyed]
    simp only [noted, List.count_append]
    omega

/-- An entry whose requirements are met is handled, or stays as it is when the handler raises. -/
theorem raisingEntry_books (h : AtSlot e e l s) (hr : run act r e.refOps = some r₁)
    (hc : Books (s.noted ++ inHand keeps v ++ D) s r c) :
    Completes act (drainRaisingEntry keeps raises e v) s c (EntryEnd keeps D e l v r r₁) := by
  have hat := h.toAtHead
  unfold drainRaisingEntry
  unfold Entry.refOps at hr
  refine .ite (fun hlink => ?_) fun hlink => .ite (fun hwt => ?_) fun hwt =>
    .ite (fun hdestroy => ?_)
    fun hdestroy => .ite (fun htx => ?_) fun htx => .ite (fun hsnap => ?_) fun hsnap => ?_
  · -- a link release
    rw [if_pos hlink] at hr
    obtain ⟨c₁, hact, hc₁⟩ := hc.run hr
    refine .bind (R := fun _ s' c' => s' = s ∧ c' = c₁) ?_ ?_
    · cases hbuf : e.dataBuf with
      | null =>
        rw [hbuf] at hact
        cases hact
        exact .pure ⟨rfl, rfl⟩
      | owned bytes =>
        rw [hbuf] at hact
        obtain ⟨c₂, hwild, -⟩ := run_cons_eq_some.1 hact
        cases hwild
      | borrowed link =>
        rw [hbuf] at hact
        obtain ⟨c₂, hdestroyed, hrest⟩ := run_cons_eq_some.1 hact
        cases hrest
        exact .emit hdestroyed ⟨rfl, rfl⟩
    · rintro _ s c₁ ⟨rfl, rfl⟩
      exact popped_end hat hc₁ (List.append_nil _).symm (.inl ⟨rfl, .inl hlink⟩)
  · -- the end of a WebTransport stream
    have hbare : e.Bare := .inl hwt
    rw [if_neg hlink, if_pos hwt] at hr
    cases hr
    refine .ite (fun _ => bare_end hbare h hc) fun _ => ?_
    refine popped_end hat ?_ rfl (.inr ⟨_, rfl, ?_⟩)
    · exact (inHand_destroyed keeps v e).symm ▸ hc
    · rw [Entry.Presents, if_pos hbare]
  · -- the end of a raw stream
    have hbare : e.Bare := .inr hdestroy
    rw [if_neg hlink, if_neg hwt, if_pos hdestroy] at hr
    refine .ite (fun _ => bare_end hbare h hc) fun _ => ?_
    obtain ⟨c₁, hact, hc₁⟩ := hc.run hr
    refine .bind (R := fun _ s' c' => s' = s ∧ c' = c₁) ?_ ?_
    · refine .ite (fun hne => ?_) fun hne => ?_
      · rw [if_pos hne] at hact
        obtain ⟨c₂, hdestroyed, hrest⟩ := run_cons_eq_some.1 hact
        cases hrest
        exact .emit hdestroyed ⟨rfl, rfl⟩
      · rw [if_neg hne] at hact
        cases hact
        exact .pure ⟨rfl, rfl⟩
    rintro _ s c₁ ⟨rfl, rfl⟩
    refine popped_end hat ?_ rfl (.inr ⟨_, rfl, ?_⟩)
    · exact (inHand_destroyed keeps v e).symm ▸ hc₁
    · rw [Entry.Presents, if_pos hbare]
  · rw [if_neg hlink, if_neg hwt, if_neg hdestroy, if_pos htx] at hr
    cases hr
    refine .bind (R := fun _ s' c' => AtHead e l s' ∧
      Books (s'.noted ++ inHand keeps v ++ D) s' r c')
      (.modify ⟨hat.of_rx rfl, hc.of_tx rfl⟩) fun _ s₁ c₁ h₁ => ?_
    exact popped_end h₁.1 h₁.2 (List.append_nil _).symm (.inl ⟨rfl, .inr (.inl htx)⟩)
  · -- a snapshot
    rw [if_neg hlink, if_neg hwt, if_neg hdestroy, if_neg htx, if_pos hsnap] at hr
    refine .bind (R := fun _ s' c' => AtHead e l s' ∧
      Books (s'.noted ++ inHand keeps v ++ D) s' r₁ c') ?_ fun _ s₁ c₁ h₁ => ?_
    · refine .ite (fun hpos => ?_) fun hpos => ?_
      · obtain rfl : r₁ = r := by
          refine readOps_run (e := e) ?_
          rw [Entry.readOps, if_pos hpos]
          exact hr
        refine .bind (takeData_books h hpos hr hc) ?_
        rintro buf s₁ c₁ ⟨rfl, h₁, hnoted, hc₁⟩
        refine .modify ⟨h₁.toAtHead.of_rx (storeSnapshot_rx _ _ _ _), ?_⟩
        rw [storeSnapshot_noted, hnoted]
        refine hc₁.of_tx ?_
        unfold storeSnapshot
        split <;> rfl
      · rw [Entry.takeOps, if_neg hpos] at hr
        cases hr
        exact .pure ⟨hat, hc⟩
    · exact popped_end h₁.1 h₁.2 (List.append_nil _).symm
        (.inl ⟨rfl, .inr (.inr (.inl hsnap))⟩)
  · -- every other entry
    rw [if_neg hlink, if_neg hwt, if_neg hdestroy, if_neg htx, if_neg hsnap, run_append] at hr
    obtain ⟨r₂, hread, hrelease⟩ := Option.bind_eq_some_iff.1 hr
    obtain rfl := readOps_run hread
    have hbare : ¬ e.Bare := not_or.2 ⟨hwt, hdestroy⟩
    refine .bind (clearData_books hc) ?_
    rintro v₁ s c ⟨hdata, hcalls, rfl, hc₁⟩
    rw [List.append_assoc] at hc₁
    refine .bind (drainRxData_books h hbare hread hc₁) ?_
    rintro ⟨data, scPtr⟩ s₂ c₂ ⟨h₂, rfl, hshows, hc₂⟩
    have hhand : inHand keeps v₁ = viewsKept keeps [] v.calls := by
      rw [inHand, hdata, hcalls]
      rfl
    refine .ite (fun hnone => ?_) fun _ => ?_
    · -- the bytes it announces are gone already
      obtain ⟨rfl, htype⟩ := hnone
      have hc₂ : Books (s₂.noted ++ inHand keeps v₁ ++ D) s₂ r₂ c₂ := by
        rw [hhand, List.append_assoc]
        exact hc₂
      refine .bind (rxEventRelease_books hrelease hc₂) ?_
      rintro _ s₃ c₃ ⟨rfl, hc₃⟩
      refine popped_end h₂.toAtHead hc₃ ?_ (.inl ⟨rfl, ?_⟩)
      · rw [hcalls, List.append_nil]
      · exact htype.elim (fun h => .inr (.inr (.inr (.inl h)))) fun h =>
          .inr (.inr (.inr (.inr h)))
    · have hpresents : e.Presents (eventOf e data e.scPtr) := by
        rw [Entry.Presents, if_neg hbare]
        exact ⟨data, rfl, hshows⟩
      have hvcalls : (v₁.call keeps (eventOf e data e.scPtr)).calls =
          v.calls ++ [eventOf e data e.scPtr] := by
        rw [← hcalls]
        rfl
      have hc₂ : Books (s₂.noted ++ inHand keeps (v₁.call keeps (eventOf e data e.scPtr)) ++ D) s₂
          r₂ c₂ := by
        refine hc₂.perm fun p => ?_
        have hcount := count_inHand_call keeps hdata (eventOf e data e.scPtr) p
        have heq : (eventOf e data e.scPtr).data = data := rfl
        rw [heq, hhand] at hcount
        simp only [List.count_append, hcount]
        omega
      refine .ite (fun _ => ?_) fun _ => ?_
      · -- `except BaseException`
        refine .bind (R := fun raised s' c' => raised =
          .error ⟨e, v₁.call keeps (eventOf e data e.scPtr), eventOf e data e.scPtr,
            s₂.pendingFc⟩ ∧ s' = s₂ ∧ c' = c₂) ?_ ?_
        · exact .bind (R := fun t s' c' => t = s₂ ∧ s' = s₂ ∧ c' = c₂) (.get ⟨rfl, rfl, rfl⟩)
            fun _ _ _ h => .pure ⟨by rw [h.1], h.2⟩
        rintro _ s₂ c₂ ⟨rfl, rfl, rfl⟩
        rw [List.append_assoc] at hc₂
        refine .bind (flushPendingFc_books hc₂) ?_
        rintro _ s₃ c₃ ⟨⟨hrx, hc₃⟩, -⟩
        refine .pure ⟨rfl, hpresents, hvcalls, h₂.of_rx hrx, ?_⟩
        rw [HandlerRaised.lost, if_neg hbare]
        exact hc₃
      · refine .bind (R := fun _ s' c' => AtHead e l s' ∧
          Books (s'.noted ++ inHand keeps (v₁.call keeps (eventOf e data e.scPtr)) ++ D) s' r₂ c')
          ?_ ?_
        · refine .ite (fun _ => .modify ⟨h₂.toAtHead.of_rx (forgetSnapshot_rx _ _), ?_⟩) fun _ =>
            .pure ⟨h₂.toAtHead, hc₂⟩
          rw [forgetSnapshot_noted]
          refine hc₂.of_tx ?_
          unfold forgetSnapshot
          split <;> rfl
        · rintro _ s₃ c₃ ⟨h₃, hc₃⟩
          refine .bind (rxEventRelease_books hrelease hc₃) ?_
          rintro _ s₃ c₄ ⟨rfl, hc₄⟩
          exact popped_end h₃ hc₄ hvcalls (.inr ⟨_, rfl, hpresents⟩)

/-! ## The loop -/

/-- What a drain makes of the queue `l`: the entries before the one whose handler raised are
handled, with the calls of `groups`, and `r'` is the table without the references they gave up. -/
structure DrainEnd (hand : CallbackLoop → List ℕ) (D : List ℕ) (l : List Entry)
    (calls : List DrainedEvent) (r : RefTable) (notes : List ℕ)
    (out : Except HandlerRaised CallbackLoop) (s : DrainCtx) (c : RefTable)
    (done rest : List Entry) (groups : List (List DrainedEvent)) (r' : RefTable) : Prop where
  split : l = done ++ rest
  gaveUp : run act r (done.flatMap Entry.refOps) = some r'
  handled : List.Forall₂ Entry.Handled done groups
  returned : ∀ v, out = .ok v → Ready rest s ∧ v.calls = calls ++ groups.flatten ∧
    Books (notes ++ hand v ++ D) s r' c
  raised : ∀ x, out = .error x → ∃ l', rest = x.entry :: l' ∧ x.entry.Presents x.event ∧
    x.loop.calls = calls ++ groups.flatten ++ [x.event] ∧ AtSlot x.entry.left x.entry l' s ∧
    Books (hand x.loop ++ (x.lost ++ D)) s r' c

/-- The entries behind one that was handled. -/
theorem DrainEnd.cons {calls calls' group : List DrainedEvent} {notes : List ℕ}
    {hand : CallbackLoop → List ℕ} {done rest : List Entry} {groups : List (List DrainedEvent)}
    {r' : RefTable} (hr : run act r e.refOps = some r₁) (hgroup : e.Handled group)
    (hcalls : calls' = calls ++ group)
    (h : DrainEnd hand D l calls' r₁ notes out s c done rest groups r') :
    DrainEnd hand D (e :: l) calls r notes out s c (e :: done) rest (group :: groups) r' := by
  subst hcalls
  refine ⟨by rw [h.split]; rfl, ?_, .cons hgroup h.handled, fun v hv => ?_, fun x hx => ?_⟩
  · rw [List.flatMap_cons, run_append, hr]
    exact h.gaveUp
  · obtain ⟨hready, hvcalls, hbooks⟩ := h.returned v hv
    exact ⟨hready, by rw [hvcalls, List.flatten_cons, List.append_assoc], hbooks⟩
  · obtain ⟨l', hrest, hpresents, hxcalls, hat, hbooks⟩ := h.raised x hx
    exact ⟨l', hrest, hpresents, by rw [hxcalls, List.flatten_cons, List.append_assoc calls],
      hat, hbooks⟩

/-- Nothing was taken off the queue. -/
theorem DrainEnd.none (h : Ready l s) (hc : Books (s.noted ++ inHand keeps v ++ D) s r c) :
    DrainEnd (inHand keeps) D l v.calls r s.noted (.ok v) s c [] l [] r := by
  refine ⟨rfl, rfl, .nil, fun v' hv => ?_, fun x hx => ?_⟩
  · cases hv
    exact ⟨h, (List.append_nil _).symm, hc⟩
  · cases hx

/-- The handler has raised at the first entry. -/
theorem DrainEnd.error {x : HandlerRaised} {notes : List ℕ}
    (h : EntryEnd keeps D e l v r r₁ (.error x) s c) :
    DrainEnd (inHand keeps) D (e :: l) v.calls r notes (.error x) s c [] (e :: l) [] r := by
  obtain ⟨rfl, hpresents, hcalls, hat, hbooks⟩ := h
  refine ⟨rfl, rfl, .nil, fun v' hv => ?_, fun y hy => ?_⟩
  · cases hv
  · cases hy
    exact ⟨l, rfl, hpresents, by rw [hcalls, List.flatten_nil, List.append_nil], hat, hbooks⟩

theorem peekRing_exec (q : SpscRing) : SpscRing.peek.exec q =
    (if q.tail ≤ q.head then none else some (q.entries (q.head &&& q.geo.mask)), q) := by
  have hexec : SpscRing.peek.exec q =
      Interleave.Prog.exec (if q.tail ≤ q.head then pure none else do
        let e ← Interleave.Prog.load fun r => r.entries (q.head &&& q.geo.mask)
        pure (some e)) q := rfl
  rw [hexec]
  by_cases hle : q.tail ≤ q.head
  · rw [if_pos hle, if_pos hle]
    rfl
  · rw [if_neg hle, if_neg hle]
    rfl

theorem peek_exec (q : RxQueue) : RxQueue.peek.exec q =
    (if q.ring.tail ≤ q.ring.head then none
      else some (q.ring.entries (q.ring.head &&& q.ring.geo.mask)), q) := by
  have hon : RxQueue.peek.exec q =
      ((SpscRing.peek.exec q.ring).1, { q with ring := (SpscRing.peek.exec q.ring).2 }) :=
    Interleave.Prog.exec_on RxQueue.ringLoc (fun _ _ _ => rfl) (fun _ => rfl) SpscRing.peek q
  rw [hon, peekRing_exec]

/-- What a peek finds is what stands in the slot. -/
theorem peek_slot (q : RxQueue) (hsome : (RxQueue.peek.exec q).1 = some e) :
    (RxQueue.peek.exec q).2 = q ∧ q.ring.entries (q.ring.head &&& q.ring.geo.mask) = e := by
  rw [peek_exec] at hsome ⊢
  refine ⟨rfl, ?_⟩
  dsimp only at hsome
  split at hsome
  · cases hsome
  · exact Option.some.inj hsome

/-- The loop, while the requirements of everything queued are met. -/
theorem raisingLoop_books (n : ℕ) (h : Ready l s)
    (hr : (run act r (l.flatMap Entry.refOps)).isSome)
    (hc : Books (s.noted ++ inHand keeps v ++ D) s r c) :
    Completes act (drainRaisingLoop keeps raises n v) s c fun out s' c' =>
      ∃ done rest groups r',
        DrainEnd (inHand keeps) D l v.calls r s'.noted out s' c' done rest groups r' := by
  induction n generalizing l s v r c with
  | zero => exact .pure ⟨[], l, [], r, .none h hc⟩
  | succ n ih =>
    unfold drainRaisingLoop
    obtain ⟨hpeek, hclaimed, hsome⟩ := h.holding.peek h.claimed
    refine .bind (R := fun o s' c' => Ready l s' ∧ s'.noted = s.noted ∧
      (∀ e, o = some e → ∃ rest, l = e :: rest ∧ AtSlot e e rest s') ∧
      Books (s'.noted ++ inHand keeps v ++ D) s' r c')
      (.compute ⟨⟨hpeek, hclaimed⟩, rfl, fun e he => ?_, hc.of_tx rfl⟩) ?_
    · obtain ⟨⟨rest, rfl⟩, hlt⟩ := hsome e he
      obtain ⟨hsame, hslot⟩ := peek_slot s.rx.q he
      refine ⟨rest, rfl, ⟨hpeek, hlt⟩, ?_⟩
      show (RxQueue.peek.exec s.rx.q).2.ring.entries _ = e
      rw [hsame]
      exact hslot
    rintro o s₁ c₁ ⟨h₁, hnoted, hhead, hc₁⟩
    cases o with
    | none =>
      obtain ⟨hrefill, hclaimed₁⟩ := h₁.holding.refill h₁.claimed
      refine .bind (R := fun _ s' c' => Ready l s' ∧
        Books (s'.noted ++ inHand keeps v ++ D) s' r c')
        (.compute ⟨⟨hrefill, hclaimed₁⟩, hc₁.of_tx rfl⟩) fun moved s₂ c₂ h₂ => ?_
      exact .ite (fun _ => .pure ⟨[], l, [], r, .none h₂.1 h₂.2⟩) fun _ => ih h₂.1 hr h₂.2
    | some e =>
      obtain ⟨rest, rfl, hat⟩ := hhead e rfl
      obtain ⟨r₂, hr₂⟩ := Option.isSome_iff_exists.1 hr
      rw [List.flatMap_cons, run_append] at hr₂
      obtain ⟨r₁, hr₁, hrest⟩ := Option.bind_eq_some_iff.1 hr₂
      refine .bind (raisingEntry_books hat hr₁ hc₁) fun out s' c' h' => ?_
      cases out with
      | error x => exact .pure ⟨[], e :: rest, [], r, .error h'⟩
      | ok v' =>
        obtain ⟨hready, ⟨group, hcalls, hgroup⟩, hc'⟩ := h'
        refine (ih hready (Option.isSome_iff_exists.2 ⟨r₂, hrest⟩) hc').mono ?_
        rintro out s₃ c₃ ⟨done, rest', groups, r', hend⟩
        exact ⟨e :: done, rest', group :: groups, r', .cons hr₁ hgroup hcalls hend⟩

/-! ## The start of a cycle -/

theorem dgramRingReleasePost_books {cnx db : ℕ} (hc : Books D s r c) :
    Books D (s.dgramRingReleasePost cnx db).2 r c := by
  unfold dgramRingReleasePost
  dsimp only
  split
  · rename_i hrc
    refine (Books.txPush ?_ hrc).of_tx (wakeWorker_tx _)
    have hnone : ∀ e : Entry, e.eventType = .txDgramRingRelease → e.ref = none := by
      intro e htype
      rw [Entry.ref, htype]
      exact if_neg (by simp [txEventOwnsSc])
    rw [hnone _ rfl]
    exact hc
  · rename_i hrc
    exact hc.txPush_full hrc

theorem postReleases_books (owed : List (ℕ × ℕ)) (hc : Books D s r c) :
    Books D (s.postReleases owed).2 r c := by
  induction owed generalizing s with
  | nil => exact hc
  | cons db owed ih =>
    unfold postReleases
    dsimp only
    split
    · exact ih (dgramRingReleasePost_books hc)
    · exact dgramRingReleasePost_books hc

theorem flushReleases_books (fuel : ℕ) (hc : Books D s r c) :
    Books D (flushReleases fuel s) r c := by
  induction fuel generalizing s with
  | zero => exact hc.of_tx rfl
  | succ fuel ih =>
    have hpost : Books D (s.postReleases s.dgramReleaseOwed).2 r c := postReleases_books _ hc
    unfold flushReleases
    dsimp only
    split
    · exact hpost.of_tx rfl
    · split
      · exact hpost.of_tx rfl
      · exact ih (hpost.of_tx rfl)

theorem dropSnapshots_tx (drops : List (ℕ × Snapshot)) :
    (drops.foldl dropSnapshot s).tx = s.tx := by
  induction drops generalizing s with
  | nil => rfl
  | cons drop drops ih =>
    rw [List.foldl_cons, ih, dropSnapshot]
    split <;> rfl

/-- The rings that a cycle releases first cost no context. -/
theorem beginDrainCycle_books (hc : Books D s r c) : Books D s.beginDrainCycle r c := by
  have hflush : Books D (if s.dgramReleaseOwed = [] then s else s.dgramRingReleaseFlush) r c := by
    split
    · exact hc
    · unfold dgramRingReleaseFlush
      split
      · exact flushReleases_books _ hc
      · exact hc
  unfold beginDrainCycle
  exact hflush.of_tx (dropSnapshots_tx _)

/-! ## The drain -/

/-- A drain of a queue whose entries' requirements are met touches nothing that is freed. Its notes
are settled, except those of a cycle in which a handler that is called bare has raised. -/
theorem drainRaising_books (keeps raises : List DrainedEvent → Bool) (maxEvents : ℤ) (h : Ready l s)
    (hr : (run act r (l.flatMap Entry.refOps)).isSome) (hc : Books D s r c) :
    Completes act (drainRaising keeps raises maxEvents) s c fun out s' c' =>
      ∃ done rest groups r', DrainEnd (fun v => viewsKept keeps [] v.calls) D l [] r [] out s' c'
        done rest groups r' := by
  unfold drainRaising
  refine .bind (R := fun _ s' c' => Ready l s' ∧ s'.noted = [] ∧ Books D s' r c')
    (.modify ⟨⟨h.holding, h.claimed⟩, rfl, hc.of_tx rfl⟩) ?_
  rintro _ s₁ c₁ ⟨h₁, hnotes₁, hc₁⟩
  have hsame := beginDrainCycle_same (s := s₁)
  refine .bind (R := fun _ s' c' => Ready l s' ∧ s'.noted = [] ∧ Books D s' r c')
    (.modify ⟨⟨?_, ?_⟩, ?_, beginDrainCycle_books hc₁⟩) ?_
  · rw [hsame.rx]
    exact h₁.holding
  · rw [hsame.rx]
    exact h₁.claimed
  · rw [noted, hsame.pendingFc]
    exact hnotes₁
  rintro _ s₂ c₂ ⟨h₂, hnotes₂, hc₂⟩
  obtain ⟨hrefill, hclaimed⟩ := h₂.holding.refill h₂.claimed
  refine .bind (R := fun _ s' c' => Ready l s' ∧ s'.noted = [] ∧ Books D s' r c')
    (.compute ⟨⟨hrefill, hclaimed⟩, hnotes₂, hc₂.of_tx rfl⟩) ?_
  rintro _ s₃ c₃ ⟨h₃, hnotes₃, hc₃⟩
  have hstart : Books (s₃.noted ++ inHand keeps {} ++ D) s₃ r c₃ := by
    rw [hnotes₃]
    exact hc₃
  refine .bind (raisingLoop_books maxEvents.toNat h₃ hr hstart) ?_
  rintro out s₄ c₄ ⟨done, rest, groups, r', hend⟩
  cases out with
  | error x =>
    obtain ⟨l', hrest, hpresents, hcalls, hat, hbooks⟩ := hend.raised x rfl
    refine .bind (clearData_books (N := []) hbooks) ?_
    rintro v' s₅ c₅ ⟨-, -, rfl, hc₅⟩
    refine .pure ⟨done, rest, groups, r', hend.split, hend.gaveUp, hend.handled, by simp, ?_⟩
    rintro _ ⟨⟩
    exact ⟨l', hrest, hpresents, hcalls, hat, hc₅⟩
  | ok v =>
    obtain ⟨hready, hcalls, hbooks⟩ := hend.returned v rfl
    rw [List.append_assoc] at hbooks
    refine .bind (flushPendingFc_books hbooks) ?_
    rintro _ s₅ c₅ ⟨⟨hrx, hc₅⟩, hnotes⟩
    refine .bind (R := fun _ s' c' => Ready rest s' ∧ s'.noted = [] ∧
      Books (inHand keeps v ++ D) s' r' c') (.modify ⟨?_, hnotes, hc₅.of_tx rfl⟩) ?_
    · obtain ⟨hholding, hclaimed'⟩ : s₅.rx.q.Holding rest ∧ s₅.rx.q.ring.claimed = false := by
        rw [hrx]
        exact ⟨hready.holding, hready.claimed⟩
      obtain ⟨hq, hc⟩ := hholding.refill hclaimed'
      rw [← clearRx_q] at hq hc
      exact ⟨hq, hc⟩
    rintro _ s₆ c₆ ⟨h₆, hnotes₆, hc₆⟩
    have hc₆ : Books (s₆.noted ++ inHand keeps v ++ D) s₆ r' c₆ := by
      rw [hnotes₆]
      exact hc₆
    refine .bind (clearData_books hc₆) ?_
    rintro v' s₇ c₇ ⟨-, hvcalls, rfl, hc₇⟩
    refine .pure ⟨done, rest, groups, r', hend.split, hend.gaveUp, hend.handled, ?_, by simp⟩
    rintro _ ⟨⟩
    refine ⟨h₆, hvcalls.trans hcalls, ?_⟩
    rw [hvcalls]
    rw [hnotes₆] at hc₇
    exact hc₇

/-! ## The worker's side of the queue -/

section worker

variable {α β : Type} {x : Drain α}

/-- A push that the worker has under way. -/
def pushing (s : DrainCtx) : Bool × Bool := (s.rx.q.insertOwed, s.rx.q.ring.writing)

/-- The program leaves a push of the worker alone. -/
def Apart (x : Drain α) : Prop := Acts pushing id x

theorem Apart.bind {k : α → Drain β} (hx : Apart x) (hk : ∀ a, Apart (k a)) : Apart (x >>= k) :=
  Acts.after hx hk

theorem Apart.pure (a : α) : Apart (pure a : Drain α) := Acts.pure a

theorem Apart.emit (w : RefOp) : Apart (emit w : Drain Unit) := Acts.emit w

theorem Apart.modify {f : DrainCtx → DrainCtx} (hf : ∀ s, (f s).rx = s.rx) :
    Apart (modify f : Drain Unit) :=
  Acts.modify fun s => by rw [pushing, hf, pushing, id]

theorem Apart.compute {f : DrainCtx → α × DrainCtx} (hf : ∀ s, (f s).2.rx = s.rx) :
    Apart (compute f : Drain α) :=
  Acts.compute fun s => by rw [pushing, hf, pushing, id]

theorem Apart.get : Apart (get : Drain DrainCtx) := Acts.get

theorem Apart.ite {p : Prop} [Decidable p] {y : Drain α} (hx : Apart x) (hy : Apart y) :
    Apart (if p then x else y) :=
  Acts.ite (fun _ => hx) fun _ => hy

/-- A consumer's action. -/
def Consumes (q q' : RxQueue) : Prop :=
  q'.insertOwed = q.insertOwed ∧ q'.ring.writing = q.ring.writing

theorem Consumes.refl (q : RxQueue) : Consumes q q := ⟨rfl, rfl⟩

theorem Consumes.exec {p : Interleave.Prog RxQueue α} (hp : Interleave.Only Consumes p)
    (q : RxQueue) : Consumes q (p.exec q).2 :=
  hp.exec Consumes.refl (fun h h' => ⟨h'.1.trans h.1, h'.2.trans h.2⟩) q

theorem Apart.onRx {p : Interleave.Prog RxQueue α} (hp : Interleave.Only Consumes p) :
    Apart (onRx p) := by
  refine Acts.compute fun s => ?_
  obtain ⟨howed, hwriting⟩ := Consumes.exec hp s.rx.q
  exact Prod.ext howed hwriting

/-- A program of the ring that leaves its section variable of the producer alone. -/
theorem consumes_on {p : Interleave.Prog SpscRing α}
    (hp : Interleave.Only (fun r r' => r'.writing = r.writing) p) :
    Interleave.Only Consumes (p.on RxQueue.ringLoc) := by
  refine Interleave.only_mono hp.on ?_
  rintro q _ ⟨r, hr, rfl⟩
  exact ⟨rfl, hr⟩

theorem consumes_peek : Interleave.Only Consumes RxQueue.peek := by
  apply consumes_on
  exact SpscRing.peek_reads.only fun _ => rfl

theorem consumes_pop : Interleave.Only Consumes RxQueue.pop := by
  apply consumes_on
  unfold SpscRing.pop
  refine Interleave.only_bind (Interleave.only_load fun _ => rfl) fun at_ => ?_
  refine Interleave.only_bind (Interleave.only_load fun _ => rfl) fun e => ?_
  refine Interleave.only_bind (Interleave.only_when (Interleave.only_modify fun _ => rfl))
    fun _ => ?_
  refine Interleave.only_bind (Interleave.only_when (Interleave.only_modify fun _ => rfl))
    fun _ => ?_
  exact Interleave.only_modify fun _ => rfl

theorem consumes_takeData (e : Entry) : Interleave.Only Consumes (RxQueue.takeData e) :=
  consumes_on (Interleave.only_modify fun _ => rfl)

theorem consumes_refill : Interleave.Only Consumes RxQueue.refill := by
  have hentry : ∀ tail e, Interleave.Only Consumes (RxQueue.refillEntry tail e) := by
    intro tail e
    unfold RxQueue.refillEntry
    refine Interleave.only_bind (Interleave.only_modify .refl) fun _ => ?_
    refine Interleave.only_bind (Interleave.only_when (Interleave.only_modify .refl)) fun _ => ?_
    refine Interleave.only_bind (Interleave.only_modify .refl) fun _ => ?_
    exact Interleave.only_modify .refl
  have hloop : ∀ fuel moved, Interleave.Only Consumes (RxQueue.refillLoop fuel moved) := by
    intro fuel
    induction fuel with
    | zero =>
      intro moved
      exact Interleave.only_bind (Interleave.only_modify .refl) fun _ => trivial
    | succ fuel ih =>
      intro moved
      unfold RxQueue.refillLoop
      refine Interleave.only_bind (Interleave.only_load .refl) fun depth => ?_
      split
      · trivial
      refine Interleave.only_bind (Interleave.only_load .refl) fun p => ?_
      refine Interleave.only_bind (Interleave.only_load .refl) fun head => ?_
      split
      · trivial
      refine Interleave.only_bind (Interleave.only_rmw fun q => ?_) fun first => ?_
      · unfold RxQueue.unlink
        split <;> exact .refl _
      · cases first with
        | none => trivial
        | some e => exact Interleave.only_bind (hentry _ _) fun _ => ih _
  unfold RxQueue.refill
  exact Interleave.only_bind (Interleave.only_load .refl) fun _ => hloop _ _

theorem apart_clearData : Apart v.clearData := by
  unfold CallbackLoop.clearData
  refine .bind ?_ fun _ => .pure _
  cases v.data with
  | none => exact .pure _
  | some sc => exact .emit _

theorem apart_takeData (e : Entry) : Apart (takeData e) := by
  unfold takeData
  refine .bind ?_ fun _ => .bind (.onRx (consumes_takeData e)) fun _ => .pure _
  cases e.dataBuf with
  | null => exact .pure _
  | owned bytes => exact .pure _
  | borrowed p => exact .emit _

theorem apart_popChunk (sc cnx streamId : ℕ) : Apart (popChunk sc cnx streamId) := by
  unfold popChunk
  refine .bind (.emit _) fun _ => .bind (.modify fun _ => rfl) fun _ => .bind .get fun t => ?_
  cases (t.scs sc).rx with
  | none => exact .pure _
  | some rx =>
    refine .ite (.pure _) (.bind (.compute fun _ => rfl) fun _ => .ite (.pure _) ?_)
    refine .bind (.modify fun _ => rfl) fun _ => .bind (.emit _) fun _ => ?_
    refine .bind (.modify fun _ => rfl) fun _ => .bind (.modify fun _ => rfl) fun _ => ?_
    refine .bind (.modify fun _ => rfl) fun _ => .bind ?_ fun _ => .pure _
    unfold pendingFcAdd
    refine .bind .get fun _ => .ite (.pure _) (.bind (.emit _) fun _ => .modify fun _ => rfl)

theorem apart_data (e : Entry) : Apart (drainRxCallbackData e) := by
  unfold drainRxCallbackData
  refine .ite (.bind (apart_takeData e) fun _ => .ite ?_ (.pure _)) (.ite ?_ ?_)
  · exact .bind (.modify fun s => storeSnapshot_rx _ _ _ s) fun _ => .pure _
  · exact .bind (apart_popChunk _ _ _) fun _ => .pure _
  · cases e.dataBuf with
    | null => exact .pure _
    | owned bytes => exact .bind (.emit _) fun _ => .pure _
    | borrowed sc =>
      refine .ite (.pure _) (.ite ?_ (.pure _))
      exact .bind (apart_popChunk _ _ _) fun _ => .pure _

theorem apart_flush : Apart flushPendingFc := by
  have hnotes : ∀ notes, Apart (flushNotes notes) := by
    intro notes
    induction notes with
    | nil => exact .pure _
    | cons note notes ih =>
      obtain ⟨sc, cnx, streamId⟩ := note
      refine .bind ?_ fun _ => .bind (.emit _) fun _ => ih
      unfold pushFcCredit
      refine .bind (.emit _) fun _ => .bind .get fun _ => .ite (.pure _) ?_
      refine .bind (.modify fun _ => rfl) fun _ => ?_
      unfold pushFcCreditEvent
      refine .ite (.pure _) (.bind (.emit _) fun _ => .bind (.compute fun _ => rfl) fun _ => ?_)
      refine .ite (.modify fun s => ?_) (.emit _)
      split
      · exact (wakeWorker_frame s).2
      · rfl
  unfold flushPendingFc
  exact .bind .get fun _ => .bind (hnotes _) fun _ => .modify fun _ => rfl

theorem apart_raiseFrom (v : CallbackLoop) (ev : DrainedEvent) : Apart (raiseFrom e v ev) :=
  .bind .get fun _ => .pure _

theorem apart_entry : Apart (drainRaisingEntry keeps raises e v) := by
  have hpop : ∀ v : CallbackLoop, Apart (do
      onRx RxQueue.pop
      pure (.ok v : Except HandlerRaised CallbackLoop)) :=
    fun v => .bind (.onRx consumes_pop) fun _ => .pure _
  have hrelease : Apart (rxEventRelease e) := .ite (.emit _) (.pure _)
  unfold drainRaisingEntry
  refine .ite (.bind ?_ fun _ => hpop _) (.ite (.ite (apart_raiseFrom _ _) (hpop _)) (.ite
    (.ite (apart_raiseFrom _ _) (.bind (.ite (.emit _) (.pure _)) fun _ => hpop _)) (.ite
    (.bind (.modify fun _ => rfl) fun _ => hpop _) (.ite ?_ ?_))))
  · cases e.dataBuf with
    | null => exact .pure _
    | owned bytes => exact .emit _
    | borrowed link => exact .emit _
  · refine .bind (.ite (.bind (apart_takeData e) fun _ => ?_) (.pure _)) fun _ => hpop _
    exact .modify fun s => storeSnapshot_rx _ _ _ s
  · refine .bind apart_clearData fun v₁ => .bind (apart_data e) fun d => .ite ?_ (.ite ?_ ?_)
    · exact .bind hrelease fun _ => hpop _
    · exact .bind (apart_raiseFrom _ _) fun _ => .bind apart_flush fun _ => .pure _
    · refine .bind (.ite (.modify fun s => forgetSnapshot_rx _ s) (.pure _)) fun _ => ?_
      exact .bind hrelease fun _ => hpop _

/-- A drain takes no part in a push. -/
theorem apart_drain (maxEvents : ℤ) : Apart (drainRaising keeps raises maxEvents) := by
  have hloop : ∀ n v, Apart (drainRaisingLoop keeps raises n v) := by
    intro n
    induction n with
    | zero => exact fun v => .pure _
    | succ n ih =>
      intro v
      unfold drainRaisingLoop
      refine .bind (.onRx consumes_peek) fun entry => ?_
      cases entry with
      | none => exact .bind (.onRx consumes_refill) fun _ => .ite (.pure _) (ih v)
      | some e =>
        refine .bind apart_entry fun out => ?_
        cases out with
        | error x => exact .pure _
        | ok v' => exact ih v'
  unfold drainRaising
  refine .bind (.modify fun _ => rfl) fun _ => .bind (.modify fun _ => beginDrainCycle_same.rx)
    fun _ => .bind (.onRx consumes_refill) fun _ => .bind (hloop _ _) fun out => ?_
  cases out with
  | error x => exact .bind apart_clearData fun _ => .pure _
  | ok v =>
    refine .bind apart_flush fun _ => .bind (Acts.modify fun s => ?_) fun _ =>
      .bind apart_clearData fun _ => .pure _
    have hq : s.clearRx.rx.q = (RxQueue.refill.exec s.rx.q).2 := clearRx_q s.rx
    obtain ⟨howed, hwriting⟩ := Consumes.exec consumes_refill s.rx.q
    rw [pushing, hq]
    exact Prod.ext howed hwriting

end worker

end DrainCtx

end Aiopquic
