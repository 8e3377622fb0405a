import Aiopquic.Drains

/-!
# The two drains agree

From one state `drain_rx_callback` passes to its handler what `drain_rx` returns, and both leave the
same state once the batch is released. Entry by entry `drain_rx` puts off the drops that
`drain_rx_callback` does, and a drop can be put off past everything else a drain does
(`RefTable.canWait_destroy`, `RefTable.canWait_destroyLink`).
-/

namespace Aiopquic

open Traced
open Steps (CanWait PutOff run_putOff)

/-! ## A drop can wait -/

namespace RefTable

variable {r r₁ r₂ : RefTable} {p q : ℕ}

/-- One reference less to `p`. -/
def lower (r : RefTable) (p : ℕ) : RefTable :=
  { r with refs := Function.update r.refs p (r.refs p - 1) }

/-- One reference more to `p`. -/
def raise (r : RefTable) (p : ℕ) : RefTable :=
  { r with refs := Function.update r.refs p (r.refs p + 1) }

/-- The link is gone. -/
def unlink (r : RefTable) (link : ℕ) : RefTable :=
  { r with links := Function.update r.links link none, linkFrees := r.linkFrees + 1 }

theorem destroy_eq_some :
    r.destroy p = some r₁ ↔ p = 0 ∧ r₁ = r ∨ p ≠ 0 ∧ 0 < r.refs p ∧ r₁ = r.lower p := by
  unfold destroy
  by_cases hp : p = 0
  · simp [hp, eq_comm]
  · by_cases hpos : 0 < r.refs p
    · simp [hp, hpos, lower, eq_comm]
    · simp [hp, hpos]

theorem destroyLink_eq_some {link : ℕ} :
    r.destroyLink link = some r₁ ↔ ∃ sc, r.links link = some sc ∧ (r.unlink link).destroy sc =
    some r₁ :=
  Option.bind_eq_some_iff

theorem act_use : r.act (.use q) = some r₁ ↔ 0 < r.refs q ∧ r = r₁ := by
  simp [act]

theorem act_ref : r.act (.ref q) = some r₁ ↔ 0 < r.refs q ∧ r.raise q = r₁ := by
  simp [act, raise]

theorem lower_comm (p q : ℕ) : (r.lower p).lower q = (r.lower q).lower p := by
  unfold lower
  congr 1
  funext x
  simp only [Function.update_apply]
  grind

theorem lower_raise (hp : 0 < r.refs p) (q : ℕ) : (r.lower p).raise q = (r.raise q).lower p := by
  unfold lower raise
  congr 1
  funext x
  simp only [Function.update_apply]
  grind

theorem lower_refs_pos (hq : 0 < (r.lower p).refs q) : 0 < r.refs q := by
  simp only [lower, Function.update_apply] at hq
  grind

/-- Two drops can change places. -/
theorem destroy_comm (hp : r.destroy p = some r₁) (hq : r₁.destroy q = some r₂) :
    ∃ r₃, r.destroy q = some r₃ ∧ r₃.destroy p = some r₂ := by
  rcases destroy_eq_some.1 hp with ⟨hp0, rfl⟩ | ⟨hp0, hpos, rfl⟩
  · exact ⟨r₂, hq, destroy_eq_some.2 (.inl ⟨hp0, rfl⟩)⟩
  rcases destroy_eq_some.1 hq with ⟨hq0, rfl⟩ | ⟨hq0, hqpos, rfl⟩
  · exact ⟨r, destroy_eq_some.2 (.inl ⟨hq0, rfl⟩), hp⟩
  refine ⟨r.lower q, destroy_eq_some.2 (.inr ⟨hq0, lower_refs_pos hqpos, rfl⟩), ?_⟩
  refine destroy_eq_some.2 (.inr ⟨hp0, ?_, lower_comm p q⟩)
  simp only [lower, Function.update_apply] at hqpos ⊢
  grind

/-- A drop and the destruction of a link can change places. -/
theorem destroy_unlink (hp : r.destroy p = some r₁) (link : ℕ) :
    (r.unlink link).destroy p = some (r₁.unlink link) := by
  rcases destroy_eq_some.1 hp with ⟨hp0, rfl⟩ | ⟨hp0, hpos, rfl⟩
  · exact destroy_eq_some.2 (.inl ⟨hp0, rfl⟩)
  · exact destroy_eq_some.2 (.inr ⟨hp0, hpos, rfl⟩)

theorem destroy_links (hp : r.destroy p = some r₁) : r₁.links = r.links := by
  rcases destroy_eq_some.1 hp with ⟨-, rfl⟩ | ⟨-, -, rfl⟩
  · rfl
  · rfl

theorem canWait_destroy (p : ℕ) : CanWait act (.destroy p) := by
  intro a r r₁ r₂ hp ha
  have hp : r.destroy p = some r₁ := hp
  cases a with
  | use q =>
    obtain ⟨hpos, rfl⟩ := act_use.1 ha
    refine ⟨r, act_use.2 ⟨?_, rfl⟩, hp⟩
    rcases destroy_eq_some.1 hp with ⟨-, rfl⟩ | ⟨-, -, rfl⟩
    · exact hpos
    · exact lower_refs_pos hpos
  | ref q =>
    obtain ⟨hpos, rfl⟩ := act_ref.1 ha
    rcases destroy_eq_some.1 hp with ⟨hp0, rfl⟩ | ⟨hp0, hppos, rfl⟩
    · exact ⟨_, act_ref.2 ⟨hpos, rfl⟩, destroy_eq_some.2 (.inl ⟨hp0, rfl⟩)⟩
    · refine ⟨r.raise q, act_ref.2 ⟨lower_refs_pos hpos, rfl⟩,
        destroy_eq_some.2 (.inr ⟨hp0, ?_, lower_raise hppos q⟩)⟩
      simp only [raise, Function.update_apply]
      grind
  | destroy q => exact destroy_comm hp ha
  | destroyLink link =>
    obtain ⟨sc, hsc, hq⟩ := destroyLink_eq_some.1 ha
    obtain ⟨r₃, hr₃, hrest⟩ := destroy_comm (destroy_unlink hp link) hq
    exact ⟨r₃, destroyLink_eq_some.2 ⟨sc, destroy_links hp ▸ hsc, hr₃⟩, hrest⟩
  | hold b =>
    cases ha
    exact ⟨r, rfl, hp⟩
  | wild => cases ha

theorem unlink_comm (l m : ℕ) : (r.unlink l).unlink m = (r.unlink m).unlink l := by
  unfold unlink
  congr 1
  funext x
  simp only [Function.update_apply]
  grind

/-- A drop that is possible once a link is forgotten is possible before. -/
theorem destroy_of_unlink {link : ℕ} (h : (r.unlink link).destroy p = some r₂) :
    ∃ r₃, r.destroy p = some r₃ ∧ r₃.unlink link = r₂ ∧ r₃.links = r.links := by
  rcases destroy_eq_some.1 h with ⟨hp0, rfl⟩ | ⟨hp0, hpos, rfl⟩
  · exact ⟨r, destroy_eq_some.2 (.inl ⟨hp0, rfl⟩), rfl, rfl⟩
  · exact ⟨r.lower p, destroy_eq_some.2 (.inr ⟨hp0, hpos, rfl⟩), rfl, rfl⟩

/-- What is possible once a link is forgotten is possible before, and does not concern that link. -/
theorem act_of_unlink {a : RefOp} {link : ℕ} (h : (r.unlink link).act a = some r₂) :
    ∃ r₃, r.act a = some r₃ ∧ r₃.unlink link = r₂ ∧ r₃.links link = r.links link := by
  cases a with
  | use q =>
    obtain ⟨hpos, rfl⟩ := act_use.1 h
    exact ⟨r, act_use.2 ⟨hpos, rfl⟩, rfl, rfl⟩
  | ref q =>
    obtain ⟨hpos, rfl⟩ := act_ref.1 h
    exact ⟨r.raise q, act_ref.2 ⟨hpos, rfl⟩, rfl, rfl⟩
  | destroy q =>
    obtain ⟨r₃, hr₃, hun, hlinks⟩ := destroy_of_unlink h
    exact ⟨r₃, hr₃, hun, by rw [hlinks]⟩
  | destroyLink m =>
    obtain ⟨sc, hsc, hd⟩ := destroyLink_eq_some.1 h
    have hne : m ≠ link := by
      rintro rfl
      simp [unlink] at hsc
    have hsc' : r.links m = some sc := by
      simpa [unlink, hne] using hsc
    rw [unlink_comm] at hd
    obtain ⟨r₃, hr₃, hun, hlinks⟩ := destroy_of_unlink hd
    refine ⟨r₃, destroyLink_eq_some.2 ⟨sc, hsc', hr₃⟩, hun, ?_⟩
    rw [hlinks]
    simp [unlink, hne.symm]
  | hold b =>
    cases h
    exact ⟨r, rfl, rfl, rfl⟩
  | wild => cases h

theorem canWait_destroyLink (link : ℕ) : CanWait act (.destroyLink link) := by
  intro a r r₁ r₂ hl ha
  obtain ⟨sc, hsc, hd⟩ := destroyLink_eq_some.1 hl
  obtain ⟨r₃, hr₃, hd'⟩ := canWait_destroy sc a _ _ _ hd ha
  obtain ⟨r₄, hr₄, rfl, hlinks⟩ := act_of_unlink hr₃
  exact ⟨r₄, hr₄, destroyLink_eq_some.2 ⟨sc, hlinks.trans hsc, hd'⟩⟩

theorem canWait_drop (b : BatchRef) : CanWait act b.drop := by
  unfold BatchRef.drop
  split
  · exact canWait_destroyLink b.ptr
  · exact canWait_destroy b.ptr

/-- A reference in the batch stands for a drop that can wait. -/
theorem canWait_held {a w : RefOp} (h : a.held = some w) :
    (∀ r, act r a = some r) ∧ CanWait act w := by
  cases a with
  | hold b =>
    cases h
    exact ⟨fun _ => rfl, canWait_drop b⟩
  | _ => cases h

end RefTable

namespace DrainCtx

/-! ## What both drains do alike -/

section plain

variable {α : Type} {e : Entry} {sc cnx streamId : ℕ}

theorem plain_onRx (p : Interleave.Prog RxQueue α) : Plain RefOp.held (onRx p) := .compute _

theorem plain_takeData : Plain RefOp.held (takeData e) := by
  unfold takeData
  refine .bind ?_ fun _ => .bind (plain_onRx _) fun _ => .pure _
  split
  · exact .emit rfl
  · exact .pure _

theorem plain_pendingFcAdd : Plain RefOp.held (pendingFcAdd sc cnx streamId) := by
  unfold pendingFcAdd
  refine .bind .get fun s => .ite (.pure _) ?_
  exact .bind (.emit rfl) fun _ => .modify _

theorem plain_popChunk : Plain RefOp.held (popChunk sc cnx streamId) := by
  unfold popChunk
  refine .bind (.emit rfl) fun _ => .bind (.modify _) fun _ => .bind .get fun s => ?_
  split
  · exact .pure _
  refine .ite (.pure _) (.bind (.compute _) fun buf => .ite (.pure _) ?_)
  refine .bind (.modify _) fun _ => .bind (.emit rfl) fun _ => .bind (.modify _) fun _ => ?_
  refine .bind (.modify _) fun _ => .bind (.modify _) fun _ => ?_
  exact .bind plain_pendingFcAdd fun _ => .pure _

theorem plain_pushFcCreditEvent : Plain RefOp.held (pushFcCreditEvent cnx streamId sc) := by
  unfold pushFcCreditEvent
  refine .ite (.pure _) (.bind (.emit rfl) fun _ => .bind (.compute _) fun rc => ?_)
  exact .ite (.modify _) (.emit rfl)

theorem plain_pushFcCredit : Plain RefOp.held (pushFcCredit cnx streamId sc) := by
  unfold pushFcCredit
  refine .bind (.emit rfl) fun _ => .bind .get fun s => .ite (.pure _) ?_
  exact .bind (.modify _) fun _ => plain_pushFcCreditEvent

theorem plain_flushNotes (notes : List (ℕ × ℕ × ℕ)) : Plain RefOp.held (flushNotes notes) := by
  induction notes with
  | nil => exact .pure _
  | cons note notes ih =>
    obtain ⟨sc, cnx, streamId⟩ := note
    exact .bind plain_pushFcCredit fun _ => .bind (.emit rfl) fun _ => ih

theorem plain_flushPendingFc : Plain RefOp.held flushPendingFc :=
  .bind .get fun s => .bind (plain_flushNotes s.pendingFc) fun _ => .modify _

theorem plain_rxEventRelease : Plain RefOp.held (rxEventRelease e) := .ite (.emit rfl) (.pure _)

theorem plain_drainRxData : Plain RefOp.held (drainRxData e) := by
  unfold drainRxData
  refine .ite (.bind plain_takeData fun buf => .ite (.bind (.modify _) fun _ => .pure _) (.pure _))
    ?_
  refine .ite (.bind plain_popChunk fun _ => .pure _) ?_
  split
  · exact .pure _
  · exact .bind (.emit rfl) fun _ => .pure _
  · exact .ite (.pure _) (.ite (.bind plain_popChunk fun _ => .pure _) (.pure _))

end plain

/-! ## One entry -/

section entry

variable {keeps : List DrainedEvent → Bool} {e : Entry} {v : CallbackLoop}

/-- The drop that the variable `data` still owes. -/
def CallbackLoop.owed (v : CallbackLoop) : List RefOp := v.data.toList.map .destroy

open DrainTransport (letGo)

/-- From `v` the callback drain has gone on to `v'`, where the other one has added the events `new`;
`u` are the drops of views it has done meanwhile. -/
structure Follows (keeps : List DrainedEvent → Bool) (v : CallbackLoop) (new : List DrainedEvent)
    (v' : CallbackLoop) (u : List RefOp) : Prop where
  calls : v'.calls = v.calls ++ new
  owed : u ++ v'.owed = v.owed ++ (letGo keeps v.calls new).map .destroy

theorem letGo_append (calls l l' : List DrainedEvent) :
    letGo keeps calls (l ++ l') = letGo keeps calls l ++ letGo keeps (calls ++ l) l' := by
  induction l generalizing calls with
  | nil => simp [letGo]
  | cons ev l ih => simp [letGo, ih]

theorem Follows.trans {new new' : List DrainedEvent} {v' v'' : CallbackLoop} {u u' : List RefOp}
    (h : Follows keeps v new v' u) (h' : Follows keeps v' new' v'' u') :
    Follows keeps v (new ++ new') v'' (u ++ u') := by
  refine ⟨by rw [h'.calls, h.calls, List.append_assoc], ?_⟩
  rw [List.append_assoc, h'.owed, ← List.append_assoc, h.owed, List.append_assoc, letGo_append,
    List.map_append,
    h.calls]

/-- No call, and `data` is left alone. -/
theorem Follows.still {v' : CallbackLoop} (hcalls : v'.calls = v.calls) (hdata : v'.data = v.data) :
    Follows keeps v [] v' [] :=
  ⟨by rw [hcalls, List.append_nil], by simp [CallbackLoop.owed, hdata, letGo]⟩

/-- A call without data. -/
theorem Follows.bare {v' : CallbackLoop} {ev : DrainedEvent} (hev : ev.data = none)
    (hcalls : v'.calls = v.calls ++ [ev]) (hdata : v'.data = v.data) : Follows keeps v [ev] v' [] :=
  ⟨hcalls, by simp [CallbackLoop.owed, hdata, letGo, hev]⟩

/-- `data` is assigned again. -/
theorem clearData_follows :
    PutsOff RefOp.held (fun _ v' u => Follows keeps v [] v' u ∧ v'.data = none)
      (pure () : Drain Unit) v.clearData := by
  unfold CallbackLoop.clearData
  cases hv : v.data with
  | none => exact .pure ⟨.still rfl hv.symm, rfl⟩
  | some sc =>
    intro s
    refine ⟨[.destroy sc], ⟨⟨?_, ?_⟩, rfl⟩, rfl, .later .nil⟩
    · exact (List.append_nil _).symm
    · show [RefOp.destroy sc] ++ [] = _
      simp [CallbackLoop.owed, hv, letGo]

/-- A call after `data` was assigned. -/
theorem Follows.call {ev : DrainedEvent} (hdata : v.data = none) :
    Follows keeps v [ev] (v.call keeps ev).counted [] := by
  refine ⟨rfl, ?_⟩
  simp only [CallbackLoop.owed, CallbackLoop.counted, CallbackLoop.call, hdata, letGo]
  split <;> simp

/-- The events of `drain_rx` for an entry are the calls of `drain_rx_callback`, and the references
that it holds are those that the other drops. -/
theorem entry_follows : PutsOff RefOp.held (fun ev v' u => Follows keeps v ev.toList v' u)
    (drainRxEntry e)
    (drainRxCallbackEntry keeps e v) := by
  unfold drainRxEntry drainRxCallbackEntry
  refine .ite (fun _ => ?_) fun _ => .ite (fun _ => ?_) fun _ => .ite (fun _ => ?_) fun _ =>
    .ite (fun _ => ?_) fun _ => .ite (fun _ => ?_) fun _ => ?_
  · -- a link release
    refine .bind (P := fun _ _ u => u = []) ?_ ?_
    · cases e.dataBuf with
      | null => exact .pure rfl
      | owned bytes => exact .same (.emit rfl) fun _ => rfl
      | borrowed link => exact .hold rfl rfl
    · rintro _ _ _ rfl
      exact .both (plain_onRx _) fun _ => .pure (.still rfl rfl)
  · -- the end of a WebTransport stream
    exact .both (plain_onRx _) fun _ => .pure (.bare rfl rfl rfl)
  · -- the end of a raw stream
    refine .bind (P := fun _ _ u => u = []) (.ite (fun _ => .hold rfl rfl) fun _ => .pure rfl) ?_
    rintro _ _ _ rfl
    exact .both (plain_onRx _) fun _ => .pure (.bare rfl rfl rfl)
  · exact .both (.modify _) fun _ => .both (plain_onRx _) fun _ => .pure (.still rfl rfl)
  · -- a snapshot
    refine .both (.ite (.bind plain_takeData fun _ => .modify _) (.pure _)) fun _ => ?_
    exact .both (plain_onRx _) fun _ => .pure (.still rfl rfl)
  · -- every other entry
    refine .ahead (@clearData_follows keeps v) ?_
    rintro v₁ u ⟨hv₁, hdata⟩
    rw [drainRxCallbackData_eq]
    refine .both plain_drainRxData fun d => .ite (fun _ => ?_) fun _ => ?_
    · refine .both plain_rxEventRelease fun _ => .both (plain_onRx _) fun _ => .pure ?_
      exact hv₁.trans (.still rfl rfl)
    · refine .both (.ite (.modify _) (.pure _)) fun _ => ?_
      refine .bind (P := fun _ _ u => u = []) (.ite (fun _ => .hold rfl rfl) fun _ => .pure rfl) ?_
      rintro _ _ _ rfl
      exact .both (plain_onRx _) fun _ => .pure (hv₁.trans (.call hdata))


/-- The loops, from states where the lists agree. -/
theorem loop_follows (n : ℕ) {events : List DrainedEvent} (hev : events = v.calls) :
    PutsOff RefOp.held (fun events' v' u => events' = v'.calls ∧ ∃ new, Follows keeps v new v' u)
      (drainRxLoop n events) (drainRxCallbackLoop keeps n v) := by
  induction n generalizing events v with
  | zero => exact .pure ⟨hev, [], .still rfl rfl⟩
  | succ n ih =>
    unfold drainRxLoop drainRxCallbackLoop
    refine .both (plain_onRx _) fun entry => ?_
    cases entry with
    | none =>
      refine .both (plain_onRx _) fun moved => .ite (fun _ => ?_) fun _ => ih hev
      exact .pure ⟨hev, [], .still rfl rfl⟩
    | some e =>
      refine .bind entry_follows fun ev v' u hv' => ?_
      refine (ih (by rw [hev, hv'.calls])).mono fun events' v'' u' h => ⟨h.1, ?_⟩
      obtain ⟨new, hnew⟩ := h.2
      exact ⟨ev.toList ++ new, hv'.trans hnew⟩

/-- The drains: the same events, and beside the references held the drops put off are those of the
views that the handler does not keep. -/
theorem drain_follows (maxEvents : ℤ) :
    PutsOff RefOp.held
    (fun events v u => events = v.calls ∧ u = (letGo keeps [] events).map .destroy)
      (drainRx maxEvents) (drainRxCallback keeps maxEvents) := by
  unfold drainRx drainRxCallback
  refine .both (.modify _) fun _ => .both (.modify _) fun _ => .both (plain_onRx _) fun _ => ?_
  refine .bind (loop_follows maxEvents.toNat (v := {}) rfl) fun events v u h => ?_
  obtain ⟨rfl, new, hnew⟩ := h
  refine .both plain_flushPendingFc fun _ => .both (.modify _) fun _ => ?_
  intro s
  obtain ⟨w, ⟨hv, hdata⟩, hs, hd⟩ := @clearData_follows keeps v s
  have hall := hnew.trans hv
  rw [List.append_nil] at hall
  refine ⟨w, ⟨?_, ?_⟩, hs, hd⟩
  · rw [hv.calls, List.append_nil]
    rfl
  · have howed := hall.owed
    show u ++ w = (letGo keeps [] v.calls).map .destroy
    rw [hnew.calls]
    simpa [CallbackLoop.owed, hdata] using howed

end entry

end DrainCtx

/-! ## The transport -/

namespace DrainTransport

variable {keeps : List DrainedEvent → Bool} {t₀ t t' : DrainTransport}

theorem held_drop (b : BatchRef) : b.drop.held = none := by
  unfold BatchRef.drop
  split <;> rfl

theorem filterMap_held (ops : List RefOp) :
    ops.filterMap RefOp.held = (heldBy ops).map BatchRef.drop := by
  unfold heldBy
  rw [List.map_filterMap]
  congr 1
  funext a
  cases a <;> rfl

theorem heldBy_eq_nil {ops : List RefOp} (h : ∀ a ∈ ops, a.held = none) : heldBy ops = [] := by
  rw [← List.map_eq_nil_iff (f := BatchRef.drop), ← filterMap_held, List.filterMap_eq_nil_iff]
  exact h

theorem releaseBatch_batchRefs (h : t₀.releaseBatch = some t) : t.batchRefs = [] := by
  obtain ⟨table, -, rfl⟩ := Option.map_eq_some_iff.1 h
  rfl

/-- Where `drain_rx_callback` touches nothing that is freed, `drain_rx` does not either; it returns
the arguments of the calls, and leaves the same transport once the views not kept and then the batch
are let go of. -/
theorem drainRx_of_callback (maxEvents : ℤ) {calls : List DrainedEvent} {count : ℕ}
    (h₀ : t₀.releaseBatch = some t)
    (h : t.drainRxCallback keeps maxEvents = some ((calls, count), t')) :
    ∃ t₁ t₂, t₀.drainRx maxEvents = some (calls, t₁) ∧ t₁.dropViews keeps calls = some t₂ ∧
      t₂.releaseBatch = some t' := by
  obtain ⟨⟨v, t''⟩, hperf, hout⟩ := Option.map_eq_some_iff.1 h
  obtain ⟨table, hrun, hv⟩ := Option.map_eq_some_iff.1 hperf
  cases hv
  cases hout
  obtain ⟨u, ⟨hcalls, hu⟩, hctx, hput⟩ := @DrainCtx.drain_follows keeps maxEvents t.ctx
  have hwait : ∀ w ∈ u, CanWait RefTable.act w ∧ w.held = none := by
    rw [hu]
    intro w hw
    obtain ⟨sc, -, rfl⟩ := List.mem_map.1 hw
    exact ⟨RefTable.canWait_destroy sc, rfl⟩
  -- the drops that were put off, in the order in which they are then done
  obtain ⟨s, hs, hlate⟩ := run_putOff (fun _ _ => RefTable.canWait_held)
    (fun w hw => (hwait w hw).1) hput hrun
  rw [Steps.run_append] at hlate
  obtain ⟨s₂, hs₂, hlate⟩ := Option.bind_eq_some_iff.1 hlate
  rw [hu, hcalls] at hs₂
  rw [filterMap_held] at hlate
  have hbatch := releaseBatch_batchRefs h₀
  -- the callback drain itself holds nothing
  have hplain : heldBy (DrainCtx.drainRxCallback keeps maxEvents t.ctx).2.2 = [] := by
    refine heldBy_eq_nil (hput.plain ?_ fun w hw => (hwait w hw).2)
    intro a w ha
    cases a with
    | hold b =>
      cases ha
      exact held_drop b
    | _ => cases ha
  let out := DrainCtx.drainRx maxEvents t.ctx
  refine ⟨⟨out.2.1, s, heldBy out.2.2⟩, ⟨out.2.1, s₂, heldBy out.2.2⟩, ?_, ?_, ?_⟩
  · refine Option.bind_eq_some_iff.2 ⟨t, h₀, Option.map_eq_some_iff.2 ⟨s, hs, ?_⟩⟩
    rw [hbatch, hcalls]
    rfl
  · exact Option.map_eq_some_iff.2 ⟨s₂, hs₂, rfl⟩
  · refine Option.map_eq_some_iff.2 ⟨table, hlate, ?_⟩
    rw [hctx, hbatch, hplain]
    rfl

end DrainTransport

end Aiopquic
