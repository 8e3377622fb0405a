import Aiopquic.HeldResets

/-!
# Runs with resets held back

The runs are those without a session's end in which picoquic asks for bytes only as `Asks` says.
`Kept` is what then holds of every stream, `Holds` what each step does about the resets.
-/

namespace Aiopquic

open Interleave Interleave.Prog Circular

namespace TxPool

variable {s t : TxPool} {x : ℕ}

/-! ## Contexts and connections -/

theorem Inv.create (h : Inv s) (cnx streamId : ℕ) (isWt : Bool) (session : ℕ) :
    Inv (s.create cnx streamId isWt session) := by
  have hctx : ∀ y ≠ s.made, (s.create cnx streamId isWt session).ctxs y = s.ctxs y :=
    fun y hy => Function.update_of_ne hy _ _
  have hnew : (s.create cnx streamId isWt session).ctxs s.made =
    { cnx := cnx, streamId := streamId, isWt := isWt, session := session } :=
      Function.update_self _ _ _
  refine ⟨h.acct.create cnx streamId isWt session, fun y => ?_, fun d hd => ?_⟩
  · by_cases hy : y = s.made
    · have hnone : (s.create cnx streamId isWt session).deferrals y = 0 := by
        rw [hy]
        exact h.acct.deferrals_made
      rw [hnone, hy, hnew]
      exact local_new cnx streamId session isWt _
    · rw [ended, hctx y hy]
      exact h.ctxs y
  · rw [hctx d.sc (h.acct.ne_made hd)]
    exact h.entries d hd

theorem Inv.ref (h : Inv s) (hx : x ∈ s.live) : Inv (s.ref x) := by
  have hctx : (s.ref x).ctxs x = { s.ctxs x with refcount := (s.ctxs x).refcount + 1 } :=
    modifyCtx_self
  refine h.change only_modifyCtx (h.acct.ref hx) rfl ?_ ?_
  · rw [hctx]
    exact ⟨rfl, rfl⟩
  · rw [hctx]
    exact (h.ctxs x).same ⟨⟨rfl, rfl, rfl⟩, ⟨rfl, rfl, rfl⟩, rfl, rfl, rfl, rfl⟩

theorem Inv.destroy (h : Inv s) (hx : x ∈ s.live) (href : s.deferrals x < (s.ctxs x).refcount) :
    Inv (s.destroy x) := by
  refine h.change only_destroy (h.acct.destroy hx href) destroy_deferred ?_ ?_
  · rw [destroy_ctx]
    exact ⟨rfl, rfl⟩
  · rw [destroy_ctx]
    exact (h.ctxs x).same ⟨⟨rfl, rfl, rfl⟩, ⟨rfl, rfl, rfl⟩, rfl, rfl, rfl, rfl⟩

theorem Inv.release (h : Inv s) :
    Inv (s.modifyCtx x fun c => { c with linked := false, tracked := false }) := by
  have hmoves : Moves s (s.modifyCtx x fun c => { c with linked := false, tracked := false }) :=
    moves_modifyCtx (fun _ => rfl) fun _ => rfl
  refine h.only only_modifyCtx hmoves ?_ ?_
  · rw [modifyCtx_self]
    exact ⟨rfl, rfl⟩
  · rw [modifyCtx_self]
    exact (h.ctxs x).release

/-- A connection gets further towards its end. -/
theorem Inv.ends (h : Inv s) {closing deleted : ℕ → Bool}
    (hclosing : ∀ cnx, s.closing cnx = true → closing cnx = true)
    (hdeleted : ∀ cnx, s.deleted cnx = true → deleted cnx = true) :
    Inv { s with closing := closing, deleted := deleted } := by
  have hacct := h.acct
  refine ⟨⟨hacct.1, hacct.2, hacct.3, hacct.4, hacct.5, hacct.6⟩, fun y => (h.ctxs y).ends
    fun hover => ?_, h.entries⟩
  rw [ended, Bool.or_eq_true] at hover ⊢
  exact hover.imp (hclosing _) (hdeleted _)

theorem update_true {g : ℕ → Bool} {cnx : ℕ} :
    ∀ y, g y = true → Function.update g cnx true y = true := by
  intro y hy
  rw [Function.update_apply]
  split
  · rfl
  · exact hy

/-! ## Runs -/

/-- The session lives on, and picoquic keeps its word. -/
def Ok (s : TxPool) : Act → Prop
  | .pull x _ _ _ => Asks s x
  | .sessionCleanup _ _ | .deregister _ => False
  | _ => True

instance (s : TxPool) (x : ℕ) : Decidable (Asks s x) :=
  decidable_of_iff ((s.ctxs x).told = [] ∧ s.ended x = false)
    ⟨fun h => ⟨h.1, h.2⟩, fun h => ⟨h.1, h.2⟩⟩

instance (s : TxPool) : ∀ act, Decidable (s.Ok act)
  | .pull x _ _ _ => inferInstanceAs (Decidable (Asks s x))
  | .sessionCleanup _ _ | .deregister _ => inferInstanceAs (Decidable False)
  | .create _ _ _ _ | .ref _ | .destroy _ | .send _ _ _ _ _ | .arm _ | .streamReset _ _ _ |
    .wtResetStream _ _ _
  | .afterSend _ _ _ | .free _ | .disconnect _ | .close _ | .delete _ =>
    inferInstanceAs (Decidable True)

theorem Inv.step {act : Act} (h : Inv s) (hok : s.Ok act) (hs : s.step act = some t) : Inv t := by
  cases act with
  | create cnx streamId isWt session =>
    cases hs
    exact h.create cnx streamId isWt session
  | ref x =>
    simp only [TxPool.step, Option.ite_none_right_eq_some, Option.some.injEq] at hs
    obtain ⟨hx, rfl⟩ := hs
    exact h.ref hx
  | destroy x =>
    simp only [TxPool.step, Option.ite_none_right_eq_some, Option.some.injEq] at hs
    obtain ⟨⟨hx, href⟩, rfl⟩ := hs
    exact h.destroy hx href
  | send x data capacity setFin hash =>
    simp only [TxPool.step, Option.ite_none_right_eq_some, Option.some.injEq] at hs
    obtain ⟨hx, rfl⟩ := hs
    exact h.send hx data capacity setFin hash
  | arm x =>
    simp only [TxPool.step, Option.ite_none_right_eq_some, Option.some.injEq] at hs
    obtain ⟨-, rfl⟩ := hs
    exact h.modifyCtx (moves_modifyCtx (fun _ => rfl) fun _ => rfl) ⟨rfl, rfl⟩
      ⟨⟨rfl, rfl, rfl⟩, ⟨rfl, rfl, rfl⟩, rfl, rfl, rfl, rfl⟩
  | pull x length buffer pushes =>
    simp only [TxPool.step, Option.ite_none_right_eq_some, Option.some.injEq] at hs
    obtain ⟨hx, rfl⟩ := hs
    exact h.pull hx hok length buffer pushes
  | streamReset x requested v =>
    simp only [TxPool.step, Option.ite_none_right_eq_some, Option.some.injEq] at hs
    obtain ⟨⟨hx, -⟩, rfl⟩ := hs
    exact h.streamReset hx requested v
  | wtResetStream x requested v =>
    simp only [TxPool.step, Option.ite_none_right_eq_some, Option.some.injEq] at hs
    obtain ⟨⟨-, hx⟩, rfl⟩ := hs
    exact h.wtResetStream hx requested v
  | afterSend k sweep v =>
    simp only [TxPool.step, Option.map_eq_some_iff] at hs
    obtain ⟨d, hd, rfl⟩ := hs
    exact h.runDeferred (List.mem_of_getElem? hd) sweep v
  | sessionCleanup session v => exact hok.elim
  | deregister session => exact hok.elim
  | free x =>
    cases hs
    exact h.release
  | disconnect cnx =>
    cases hs
    exact h.ends update_true fun _ => id
  | delete cnx =>
    cases hs
    exact h.ends (fun _ => id) update_true
  | close cnx =>
    cases hs
    refine Inv.dropCnx (h.ends update_true fun _ => id) (List.Subperm.refl s.deferred) ?_
    exact Function.update_self cnx true s.closing

/-- What a deferred reset keeps is all that picoquic gets, and its call is made when all of that was
handed. -/
structure Kept (s : TxPool) : Prop where
  handed : ∀ x, ∀ h ∈ (s.ctxs x).held, (s.ctxs x).handed ≤ h.size
  noFin : ∀ x, ∀ h ∈ (s.ctxs x).held, ∀ f ∈ (s.ctxs x).frames.drop h.before, f.isFin = false
  exact : ∀ x, ∀ r ∈ (s.ctxs x).done, r.handed = r.size ∧ ∃ h ∈ (s.ctxs x).held, h.size = r.size
  calls : ∀ x, ∀ r ∈ (s.ctxs x).done,
    r.calls = [] ∨ ∃ v header, r.calls = (resetStreamReliable v (header + r.size)).1
  closed : ∀ x, ∀ r ∈ (s.ctxs x).done, r.closing = true → r.calls = []
  discarded : ∀ x, ∀ r ∈ (s.ctxs x).done, (∃ a ∈ r.calls, a.2 = .ok) → r.queued = 0
  once : ∀ x, (s.ctxs x).done.countP (fun r => decide (r.calls ≠ [])) ≤ 1
  flag : ∀ x, s.deferrals x = if (s.ctxs x).sc.txResetPending then 1 else 0

theorem Inv.kept (h : Inv s) : s.Kept := by
  refine ⟨fun x k hk => ((h.ctxs x).held k hk).handed, fun x k hk => ((h.ctxs x).held k hk).noFin,
    fun x r hr => ⟨((h.ctxs x).done r hr).handed, ((h.ctxs x).done r hr).held⟩,
    fun x r hr => ((h.ctxs x).done r hr).calls, fun x r hr hclosing => ?_,
    fun x r hr => ((h.ctxs x).done r hr).discarded, fun x => (h.ctxs x).once, fun x =>
      (h.ctxs x).flag⟩
  by_contra hne
  have hopen := (((h.ctxs x).done r hr).told hne).2
  exact absurd (hopen.symm.trans hclosing) (by simp)

/-! ## What a step does -/

/-- A request that comes up for `x` keeps what it asks for, capped at what is written, or defers
nothing; while another waits it does nothing. The close of a connection drops its entries and calls
nothing. -/
structure Holds (s : TxPool) (act : Act) (t : TxPool) : Prop where
  request : ∀ x requested v, act = .streamReset x requested v ∨ act = .wtResetStream x requested v →
    if (s.ctxs x).sc.txResetPending then t = s
    else (t.ctxs x).held = (s.ctxs x).held ∨
      (t.ctxs x).held = (s.ctxs x).held ++
        [⟨min requested (s.ctxs x).sc.txBuf.tail, (s.ctxs x).frames.length⟩]
  close : ∀ cnx, act = .close cnx → (∀ d ∈ t.deferred, d.cnx ≠ cnx) ∧
    ∀ x, (t.ctxs x).told = (s.ctxs x).told ∧ (t.ctxs x).done = (s.ctxs x).done

theorem resetReliableSize_eq {v : ResetView} {sc : StreamCtx} {requested : ℕ}
    (h : resetReliableSize v sc requested ≠ 0) :
    resetReliableSize v sc requested = min requested sc.txBuf.tail := by
  rw [resetReliableSize] at h ⊢
  split
  · rename_i hzero
    exact absurd (if_pos hzero) h
  · rfl

theorem deferReset_held {reliable preamble : ℕ} : ((s.deferReset x reliable preamble).ctxs x).held =
    (s.ctxs x).held ++ [⟨reliable, (s.ctxs x).frames.length⟩] := by
  have hself : (s.ref x).ctxs x = { s.ctxs x with refcount := (s.ctxs x).refcount + 1 } :=
    modifyCtx_self
  rw [TxPool.deferReset]
  dsimp only
  rw [modifyCtx_self, hself]

theorem Sends.held {calls : List (ResetCall × ResetRc)} (h : Sends x calls s t) :
    (t.ctxs x).held = (s.ctxs x).held := by
  obtain ⟨-, sc, hctx, -⟩ := h
  rw [hctx]

theorem streamReset_held {requested : ℕ} (v : ResetView)
    (hpend : (s.ctxs x).sc.txResetPending = false) :
    ((s.streamReset x requested v).ctxs x).held = (s.ctxs x).held ∨
      ((s.streamReset x requested v).ctxs x).held =
        (s.ctxs x).held ++
        [⟨min requested (s.ctxs x).sc.txBuf.tail, (s.ctxs x).frames.length⟩] := by
  rw [streamReset]
  rw [if_neg (by simp [hpend])]
  split
  · exact .inl rfl
  · split
    · rename_i hdef
      rw [deferReset_held, resetReliableSize_eq hdef.1.ne']
      exact .inr rfl
    · exact .inl sends_sendReset.held

theorem wtResetStream_held {requested : ℕ} (v : ResetView)
    (hpend : (s.ctxs x).sc.txResetPending = false) :
    ((s.wtResetStream x requested v).ctxs x).held = (s.ctxs x).held ∨
      ((s.wtResetStream x requested v).ctxs x).held =
        (s.ctxs x).held ++
        [⟨min requested (s.ctxs x).sc.txBuf.tail, (s.ctxs x).frames.length⟩] := by
  have hsize : (if (s.ctxs x).linked then resetReliableSize v (s.ctxs x).sc requested else 0) ≠ 0 →
      (if (s.ctxs x).linked then resetReliableSize v (s.ctxs x).sc requested else 0) =
        min requested (s.ctxs x).sc.txBuf.tail := by
    split
    · exact resetReliableSize_eq
    · exact fun h => absurd rfl h
  rw [wtResetStream]
  revert hsize
  generalize (if (s.ctxs x).linked then resetReliableSize v (s.ctxs x).sc requested else 0) =
    reliable
  intro hsize
  split
  · exact .inl rfl
  rw [if_neg (by simp [hpend])]
  split
  · exact .inl (sends_wtSendReset (wtReset_ne_nil v)).held
  · rename_i hpos
    split
    · rw [deferReset_held, hsize hpos]
      exact .inr rfl
    · exact .inl (sends_wtSendReset (resetStreamReliable_ne_nil v _)).held

/-- A request changes nothing while another waits. -/
theorem Inv.request_pending (h : Inv s) (hpend : (s.ctxs x).sc.txResetPending = true)
    (requested : ℕ)
    (v : ResetView) : s.streamReset x requested v = s ∧ s.wtResetStream x requested v = s := by
  constructor
  · rw [TxPool.streamReset]
    exact if_pos hpend
  · rw [TxPool.wtResetStream]
    split
    · rfl
    · rename_i hopen
      have hlinked : (s.ctxs x).linked = true := by
        rw [(h.ctxs x).tracked]
        by_contra hne
        exact hopen (.inr (.inl (by simpa using hne)))
      exact if_pos ⟨hlinked, hpend⟩

/-- One entry of a close: it makes no call. -/
theorem dropDeferred_told (cnx : ℕ) (s : TxPool) (d : Deferred) (y : ℕ) :
    ((dropDeferred cnx s d).ctxs y).told = (s.ctxs y).told ∧
      ((dropDeferred cnx s d).ctxs y).done = (s.ctxs y).done := by
  rw [dropDeferred]
  split
  · by_cases hy : y = d.sc
    · rw [hy, deferredResetFree_ctx]
      exact ⟨rfl, rfl⟩
    · rw [(only_deferredResetFree _ d).ctxs y hy]
      exact ⟨rfl, rfl⟩
  · exact ⟨rfl, rfl⟩

theorem dropDeferred_deferred {cnx : ℕ} (s : TxPool) (d : Deferred) :
    (dropDeferred cnx s d).deferred = if d.cnx = cnx then s.deferred.erase d else s.deferred := by
  rw [dropDeferred]
  split
  · rw [deferredResetFree, destroy_deferred]
    rfl
  · rfl

theorem foldl_dropDeferred_told {cnx : ℕ} (l : List Deferred) (s : TxPool) (y : ℕ) :
    ((l.foldl (dropDeferred cnx) s).ctxs y).told = (s.ctxs y).told ∧
      ((l.foldl (dropDeferred cnx) s).ctxs y).done = (s.ctxs y).done := by
  induction l generalizing s with
  | nil => exact ⟨rfl, rfl⟩
  | cons d l ih =>
    have hd := dropDeferred_told cnx s d y
    exact ⟨(ih _).1.trans hd.1, (ih _).2.trans hd.2⟩

/-- What a close leaves of a list: the entries it was not asked to look at, and those of other
connections. -/
theorem foldl_dropDeferred_deferred {cnx : ℕ} (l : List Deferred) (s : TxPool) :
    (∀ d, d.cnx = cnx → s.deferred.count d ≤ l.count d) →
      ∀ d ∈ (l.foldl (dropDeferred cnx) s).deferred, d.cnx ≠ cnx := by
  induction l generalizing s with
  | nil =>
    intro hle d hd hcnx
    have hpos : 0 < s.deferred.count d := List.count_pos_iff.2 hd
    have hzero := hle d hcnx
    rw [List.count_nil] at hzero
    omega
  | cons e l ih =>
    intro hle
    apply ih
    intro d hcnx
    have hd := hle d hcnx
    rw [dropDeferred_deferred]
    split
    · by_cases he : e = d
      · rw [← he] at hd ⊢
        rw [List.count_cons_self] at hd
        rw [List.count_erase_self]
        omega
      · rw [List.count_cons_of_ne he] at hd
        rw [List.count_erase_of_ne (Ne.symm he)]
        exact hd
    · rename_i hother
      have he : e ≠ d := fun heq => hother (heq ▸ hcnx)
      rw [List.count_cons_of_ne he] at hd
      exact hd

theorem Inv.holds {act : Act} (h : Inv s) (hs : s.step act = some t) : Holds s act t := by
  constructor
  · rintro x requested v (rfl | rfl)
    · simp only [TxPool.step, Option.ite_none_right_eq_some, Option.some.injEq] at hs
      obtain ⟨-, rfl⟩ := hs
      split
      · rename_i hpend
        exact (h.request_pending hpend requested v).1
      · rename_i hpend
        exact streamReset_held v (by simpa using hpend)
    · simp only [TxPool.step, Option.ite_none_right_eq_some, Option.some.injEq] at hs
      obtain ⟨-, rfl⟩ := hs
      split
      · rename_i hpend
        exact (h.request_pending hpend requested v).2
      · rename_i hpend
        exact wtResetStream_held v (by simpa using hpend)
  · rintro cnx rfl
    cases hs
    exact ⟨foldl_dropDeferred_deferred _ _ fun _ _ => le_rfl, foldl_dropDeferred_told _ _⟩

end TxPool

end Aiopquic
