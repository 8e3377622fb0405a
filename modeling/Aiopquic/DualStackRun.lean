import Aiopquic.DualStackInv

/-!
# Runs of the two stacks

Each callback of a connection keeps the invariant, on the stack it chose and before it has one.
-/

namespace Aiopquic

namespace DualStack

section

variable {ev : RawEvent} {s t : DualStack} {i : ℕ}

/-! ## The callbacks -/

/-- The raw callback queues no event of the other stack, and no announcement. -/
theorem streamCb_proper {ptr : ℕ} {cb : Callback} (h : streamCb ptr cb = some ev) :
    ev.evtType ≠ .cnxStack ∧ ev.evtType.code < EventType.wtSessionReady.code := by
  have hmap : ∀ event evt, mapEvent event = some evt →
      evt ≠ .cnxStack ∧ evt.code < EventType.wtSessionReady.code := by
    intro event evt hm
    cases event <;> simp only [mapEvent, Option.some.injEq, reduceCtorEq] at hm <;> subst hm <;>
      decide
  unfold streamCb at h
  repeat' split at h
  all_goals cases h
  all_goals first
    | exact hmap cb.event _ (by assumption)
    | exact ⟨EventType.noConfusion, by simp [EventType.code]⟩

theorem WtEvent.proper {ptr : ℕ} (h : WtEvent ptr ev) (hst : s.stack i = .h3)
    (hptr : ev.cnxPtr ≠ 0 → ptr = (s.cnx i).ptr) : s.Proper i ev := by
  obtain ⟨hcnx, htype⟩ := h
  refine ⟨fun hs => ?_, ?_⟩
  · rw [hs] at htype
    simp [EventType.code] at htype
  by_cases h0 : ev.cnxPtr = 0
  · exact .inl ⟨h0, hst⟩
  · refine .inr ⟨h0, (hcnx.resolve_right h0).trans (hptr h0), ?_⟩
    rw [hst, if_pos rfl]
    by_contra hc
    rw [Bool.not_eq_false, RawEvent.isClose, decide_eq_true_eq] at hc
    rcases hc with hc | hc
    · rw [hc] at htype
      simp [EventType.code] at htype
    · rw [hc] at htype
      simp [EventType.code] at htype

theorem Inv.rawCb (h : s.Inv) (hlive : (s.cnx i).freed = false) (hcb : (s.cnx i).callback = .raw)
    (cb : Callback) (d : DispatchAnswers) : (s.rawCb i cb d).1.Inv := by
  have hraw : s.stack i = .raw := by
    rw [stack, hcb]
    rfl
  have hd : (s.cnx i).callback ≠ .dispatch := by
    rw [hcb]
    exact CnxCallback.noConfusion
  refine h.push hd fun ev hev => ⟨?_, fun _ => hlive⟩
  split at hev
  · rw [Option.mem_toList] at hev
    obtain ⟨hs, htype⟩ := streamCb_proper hev
    have hptr : ev.cnxPtr = (s.cnx i).ptr := streamCb_cnx hev
    refine ⟨hs, .inr ⟨?_, hptr, ?_⟩⟩
    · rw [hptr]
      exact h.ptr i (h.lt hd)
    · rw [hraw, if_neg (by decide)]
      exact htype
  · cases hev

theorem Inv.wtCb (h : s.Inv) (hlive : (s.cnx i).freed = false) (hcb : (s.cnx i).callback = .wt)
    {d : DispatchAnswers} (hd : ∀ ev ∈ d.wt, WtEvent (s.cnx i).ptr ev) : (s.wtCb i d).1.Inv := by
  have hst : s.stack i = .h3 := if_pos hcb
  have hne : (s.cnx i).callback ≠ .dispatch := by
    rw [hcb]
    exact CnxCallback.noConfusion
  exact h.push hne fun ev hev => ⟨(hd ev hev).proper hst fun _ => rfl, fun _ => hlive⟩

theorem Inv.dispatchCb (h : s.Inv) (hi : i < s.made) (hlive : (s.cnx i).freed = false)
    (hcb : (s.cnx i).callback = .dispatch) (cb : Callback) {d : DispatchAnswers}
    (hd : ∀ ev ∈ d.wt, WtEvent (s.cnx i).ptr ev) : (s.dispatchCb i cb d).1.Inv := by
  have htold : (s.cnx i).told = false := by
    cases hto : (s.cnx i).told with
    | false => rfl
    | true => exact absurd hcb (h.told i hto)
  unfold DualStack.dispatchCb
  split
  · exact h
  · rename_i alpn halpn
    split
    · rename_i hh3
      have hst : Stack.h3 = .h3 ↔ s.dualWtParams ∧ alpn = "h3" := iff_of_true rfl hh3
      split
      · exact h.setCnx hi rfl rfl rfl id fun _ => rfl
      split
      · -- the callback is h3's, and nobody was told
        have hinit := h.announce hi hlive hcb halpn hst false
        rw [announce_eq, if_neg (by decide), DualStack.push, List.map_nil, List.append_nil,
          chose, ← htold] at hinit
        exact hinit
      · refine (h.announce hi hlive hcb halpn hst d.announces).wtCb ?_ ?_ ?_
        · rw [announce_self]
          exact hlive
        · rw [announce_self]
          rfl
        · rw [announce_self]
          exact hd
    · rename_i hraw
      have hst : Stack.raw = .h3 ↔ s.dualWtParams ∧ alpn = "h3" := iff_of_false (by decide) hraw
      refine (h.announce hi hlive hcb halpn hst d.announces).rawCb ?_ ?_ cb d
      · rw [announce_self]
        exact hlive
      · rw [announce_self]
        rfl

theorem Inv.step (h : s.Inv) {act : Act} (hstep : s.step act = some t) : t.Inv := by
  cases act with
  | opened ptr =>
    simp only [DualStack.step, Option.ite_none_right_eq_some, Option.some.injEq] at hstep
    obtain ⟨⟨h0, hptr⟩, rfl⟩ := hstep
    exact h.opened h0 hptr
  | negotiated i alpn =>
    simp only [DualStack.step, Option.ite_none_right_eq_some, Option.some.injEq] at hstep
    obtain ⟨⟨hi, hnone⟩, rfl⟩ := hstep
    refine h.setCnx hi rfl rfl rfl id fun hcb => ?_
    obtain ⟨a, ha, -⟩ := h.dispatched.chosen i hi hcb
    rw [hnone] at ha
    cases ha
  | called i cb d =>
    simp only [DualStack.step, Option.ite_none_right_eq_some, Option.some.injEq] at hstep
    obtain ⟨⟨⟨hi, hlive⟩, hd⟩, rfl⟩ := hstep
    unfold DualStack.call
    split
    · rename_i hcb
      exact h.dispatchCb hi hlive hcb cb hd
    · rename_i hcb
      exact h.wtCb hlive hcb hd
    · rename_i hcb
      exact h.rawCb hlive hcb cb d
  | pushed i evs =>
    simp only [DualStack.step, Option.ite_none_right_eq_some, Option.some.injEq] at hstep
    obtain ⟨⟨⟨hi, hcb⟩, hevs⟩, rfl⟩ := hstep
    have hne : (s.cnx i).callback ≠ .dispatch := by
      rw [hcb]
      exact CnxCallback.noConfusion
    have hlive : ∀ ev ∈ evs, ev.cnxPtr ≠ 0 → (s.cnx i).freed = false := by
      intro ev hev h0
      cases hf : (s.cnx i).freed with
      | false => rfl
      | true =>
        have hptr := (hevs ev hev).1
        rw [hf, if_pos rfl, or_self] at hptr
        exact absurd hptr h0
    refine h.push hne fun ev hev => ⟨(hevs ev hev).proper (if_pos hcb) fun h0 => ?_, hlive ev hev⟩
    rw [hlive ev hev h0]
    rfl
  | freed i =>
    simp only [DualStack.step, Option.ite_none_right_eq_some, Option.some.injEq] at hstep
    obtain ⟨hi, rfl⟩ := hstep
    exact h.setCnx hi rfl rfl rfl (fun _ => rfl) fun _ => rfl
  | routed raises =>
    rw [DualStack.step, Option.some.injEq] at hstep
    rw [← hstep]
    exact h.route raises

end

/-- Every event reaches the stack that its connection was given, for all connections, every reuse of
their addresses and every handler that raises. -/
theorem dispatched_to_own (dualWtParams : Bool) (acts : List Act) (s : DualStack)
    (hrun : Steps.run step { dualWtParams } acts = some s) : s.Dispatched :=
  (Steps.preserved (fun _ _ _ h hstep => h.step hstep) (Inv.init dualWtParams) hrun).dispatched

/-- An address that was an `h3` connection's comes again for a raw one, and once more for one whose
announcement is lost. -/
theorem dispatched_reused : ∃ s, Steps.run step { dualWtParams := true }
      [.opened 8, .negotiated 0 "h3", .called 0 { event := .ready } {},
        .pushed 0 [{ evtType := .wtNewSession, cnxPtr := 8 }], .freed 0, .opened 8,
        .negotiated 1 "moq", .called 1 { event := .ready } {},
        .called 1 { event := .close } {}, .routed false, .routed false, .routed false,
        .routed false, .routed true] = some s ∧ s.Dispatched := by
  obtain ⟨s, hs⟩ := Option.isSome_iff_exists.1 (by decide +kernel :
    (Steps.run step { dualWtParams := true }
      [.opened 8, .negotiated 0 "h3", .called 0 { event := .ready } {},
        .pushed 0 [{ evtType := .wtNewSession, cnxPtr := 8 }], .freed 0, .opened 8,
        .negotiated 1 "moq", .called 1 { event := .ready } {},
        .called 1 { event := .close } {}, .routed false, .routed false, .routed false,
        .routed false, .routed true]).isSome = true)
  exact ⟨s, hs, dispatched_to_own true _ s hs⟩

end DualStack

end Aiopquic
