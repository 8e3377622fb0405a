import Aiopquic.HeldResets

/-!
# Session cleanup and the deferred resets

`TX_WT_SESSION_CLEANUP` resets every stream of a session and discards what is queued, which moves
the head that a deferred reset waits for. A deferred reset survives the cleanup and looks sent to
the next `after_send` pass; a cleanup that finds no stream of its session with one leaves nothing of
the kind behind.
-/

namespace Aiopquic

open Interleave Interleave.Prog Circular

namespace TxPool

variable {s t : TxPool} {x : ℕ}

/-- No `after_send` pass resets a stream that its session's cleanup has been through, or takes what
was discarded there for sent. -/
def CleanupEnds (s : TxPool) : Prop :=
  ∀ x, ∀ r ∈ (s.ctxs x).done, r.cleaned = true → r.calls = [] ∧ r.size ≤ r.handed

/-- A cleanup finds no stream of its session with a deferred reset. -/
def CleanOk (s : TxPool) : Act → Prop
  | .sessionCleanup session _ => ∀ x ∈ s.links session, (s.ctxs x).sc.txResetPending = false
  | _ => True

instance (s : TxPool) : ∀ act, Decidable (s.CleanOk act)
  | .sessionCleanup session _ =>
    inferInstanceAs (Decidable (∀ x ∈ s.links session, (s.ctxs x).sc.txResetPending = false))
  | .create _ _ _ _ | .ref _ | .destroy _ | .send _ _ _ _ _ | .arm _ | .pull _ _ _ _ |
      .streamReset _ _ _
  | .wtResetStream _ _ _ | .afterSend _ _ _ | .deregister _ | .free _ | .disconnect _ | .close _ |
      .delete _ =>
    inferInstanceAs (Decidable True)

/-! ## The invariant -/

/-- What holds of one context that `n` entries of the list name. -/
structure Swept (c : TxCtx) (n : ℕ) : Prop where
  flag : n ≤ if c.sc.txResetPending then 1 else 0
  cleaned : c.cleaned = true → c.isWt = true ∧ c.linked = false ∧ n = 0
  done : ∀ r ∈ c.done, r.cleaned = false

structure SweptAll (s : TxPool) : Prop where
  acct : s.Acct
  ctxs : ∀ x, Swept (s.ctxs x) (s.deferrals x)

variable {c c' : TxCtx} {n : ℕ}

/-- The fields that `Swept` reads, but for the flag. -/
structure SameStream (c c' : TxCtx) : Prop where
  cleaned : c'.cleaned = c.cleaned
  isWt : c'.isWt = c.isWt
  linked : c'.linked = c.linked
  done : c'.done = c.done

theorem SameStream.refl (c : TxCtx) : SameStream c c := ⟨rfl, rfl, rfl, rfl⟩

theorem SameStream.trans {c'' : TxCtx} (h : SameStream c c') (h' : SameStream c' c'') :
    SameStream c c'' :=
  ⟨h'.cleaned.trans h.cleaned, h'.isWt.trans h.isWt, h'.linked.trans h.linked, h'.done.trans h.done⟩

theorem Swept.same (h : Swept c n) (hc : SameStream c c')
    (hpend : c'.sc.txResetPending = c.sc.txResetPending) : Swept c' n := by
  refine ⟨?_, ?_, ?_⟩
  · rw [hpend]
    exact h.flag
  · rw [hc.cleaned, hc.isWt, hc.linked]
    exact h.cleaned
  · rw [hc.done]
    exact h.done

/-- The streams, the flags and the list stay. -/
structure Idle (s t : TxPool) : Prop where
  deferred : t.deferred = s.deferred
  ctxs : ∀ y, SameStream (s.ctxs y) (t.ctxs y)
  pending : ∀ y, (t.ctxs y).sc.txResetPending = (s.ctxs y).sc.txResetPending

theorem Idle.refl (s : TxPool) : Idle s s := ⟨rfl, fun _ => .refl _, fun _ => rfl⟩

theorem Idle.trans {u : TxPool} (h : Idle s t) (h' : Idle t u) : Idle s u :=
  ⟨h'.deferred.trans h.deferred, fun y => (h.ctxs y).trans (h'.ctxs y), fun y =>
    (h'.pending y).trans (h.pending y)⟩

theorem idle_modifyCtx {f : TxCtx → TxCtx} (hf : SameStream (s.ctxs x) (f (s.ctxs x)))
    (hpend : (f (s.ctxs x)).sc.txResetPending = (s.ctxs x).sc.txResetPending) :
    Idle s (s.modifyCtx x f) := by
  refine ⟨rfl, fun y => ?_, modifyCtx_keeps (g := fun c => c.sc.txResetPending) hpend⟩
  by_cases hy : y = x
  · rw [hy, modifyCtx_self]
    exact hf
  · rw [modifyCtx_of_ne hy]
    exact .refl _

theorem idle_modifySc {f : StreamCtx → StreamCtx}
    (hpend : (f (s.ctxs x).sc).txResetPending = (s.ctxs x).sc.txResetPending) :
    Idle s (s.modifySc x f) :=
  idle_modifyCtx ⟨rfl, rfl, rfl, rfl⟩ hpend

theorem SweptAll.idle (h : SweptAll s) (hst : Idle s t) (hacct : t.Acct) : SweptAll t := by
  refine ⟨hacct, fun y => ?_⟩
  rw [deferrals, hst.deferred]
  exact (h.ctxs y).same (hst.ctxs y) (hst.pending y)

/-! ## The operations -/

theorem idle_abandon : Idle s (s.abandon x) := by
  have hring : Idle s (s.modifySc x fun sc => { sc with tx := some (s.ctxs x).sc.txBuf.skip }) :=
    idle_modifySc rfl
  rw [abandon]
  dsimp only
  split
  · exact ⟨hring.deferred, hring.ctxs, hring.pending⟩
  · exact .refl s

theorem idle_tell {calls : List (ResetCall × ResetRc)} : Idle s (s.tell x calls) :=
  idle_modifyCtx ⟨rfl, rfl, rfl, rfl⟩ rfl

theorem idle_sendReset {v : ResetView} {reliable : ℕ} : Idle s (s.sendReset x v reliable) := by
  rw [sendReset]
  split
  · exact idle_tell.trans idle_abandon
  · exact idle_tell

theorem idle_wtSendReset {own : Bool} {result : List (ResetCall × ResetRc) × ResetRc} :
    Idle s (s.wtSendReset x own result) := by
  rw [wtSendReset]
  split
  · exact idle_tell.trans idle_abandon
  · exact idle_tell

theorem idle_destroy : Idle s (s.destroy x) := by
  have hrefs : Idle s (s.modifyCtx x fun c => { c with refcount := c.refcount - 1 }) :=
    idle_modifyCtx ⟨rfl, rfl, rfl, rfl⟩ rfl
  rw [destroy]
  split
  · exact ⟨hrefs.deferred, hrefs.ctxs, hrefs.pending⟩
  · exact hrefs

theorem idle_send (hwf : (s.ctxs x).sc.TxWf) (data : List UInt8) (capacity : UInt32)
    (setFin hash : Bool) :
    Idle s (s.send x data capacity setFin hash) := by
  rw [send]
  generalize data.take (data.length % 2 ^ 32) = data
  obtain ⟨-, hwrote, -⟩ := StreamCtx.exec_sendData hwf data capacity setFin hash
  revert hwrote
  generalize (StreamCtx.sendData data capacity setFin hash).exec (s.ctxs x).sc = sent
  intro hwrote
  have hsent : Idle s (s.modifySc x fun _ => sent.2) := idle_modifySc hwrote.pending
  split
  · exact ⟨hsent.deferred, hsent.ctxs, hsent.pending⟩
  · exact hsent

theorem idle_signalDrained {pushes : Bool} : Idle s (s.signalDrained x pushes) := by
  have hflag : Idle s (s.modifySc x fun sc => { sc with txDrainPending := false }) :=
    idle_modifySc rfl
  rw [signalDrained]
  dsimp only
  split
  · exact ⟨hflag.deferred, hflag.ctxs, hflag.pending⟩
  · exact .refl s

theorem idle_hand {f : Frame} : Idle s (s.hand x f) := idle_modifyCtx ⟨rfl, rfl, rfl, rfl⟩ rfl

theorem idle_pull {length : ℕ} {buffer pushes : Bool} : Idle s (s.pull x length buffer pushes) := by
  rw [pull]
  dsimp only
  split
  · exact idle_hand
  · refine Idle.trans ?_ idle_signalDrained
    generalize min (sendable (s.ctxs x).sc) (length % 2 ^ 32) = toSend
    generalize (StreamBuf.pop toSend).exec (s.ctxs x).sc.txBuf = popped
    have hring : Idle s (s.modifySc x fun sc => { sc with tx := some popped.2 }) :=
      idle_modifySc rfl
    split
    · split
      · have htook : Idle s { s.modifySc x fun sc => { sc with tx := some popped.2 } with
            pulled := s.pulled + toSend } := ⟨hring.deferred, hring.ctxs, hring.pending⟩
        exact htook.trans idle_hand
      · exact .refl s
    · exact idle_hand

theorem SweptAll.create (h : SweptAll s) (cnx streamId : ℕ) (isWt : Bool) (session : ℕ) :
    SweptAll (s.create cnx streamId isWt session) := by
  refine ⟨h.acct.create cnx streamId isWt session, fun y => ?_⟩
  by_cases hy : y = s.made
  · have hnew : (s.create cnx streamId isWt session).ctxs s.made =
      { cnx := cnx, streamId := streamId, isWt := isWt, session := session } :=
        Function.update_self _ _ _
    have hnone : (s.create cnx streamId isWt session).deferrals s.made = 0 := h.acct.deferrals_made
    rw [hy, hnew, hnone]
    exact ⟨Nat.zero_le _, (nomatch ·), fun _ hr => absurd hr List.not_mem_nil⟩
  · have hctx : (s.create cnx streamId isWt session).ctxs y = s.ctxs y :=
      Function.update_of_ne hy _ _
    rw [hctx]
    exact h.ctxs y

theorem SweptAll.deferReset (h : SweptAll s) (hx : x ∈ s.live)
    (hpend : (s.ctxs x).sc.txResetPending = false)
    (hopen : (s.ctxs x).isWt = true → (s.ctxs x).linked = true) (reliable preamble : ℕ) :
    SweptAll (s.deferReset x reliable preamble) := by
  have hself : (s.ref x).ctxs x = { s.ctxs x with refcount := (s.ctxs x).refcount + 1 } :=
    modifyCtx_self
  refine ⟨h.acct.deferReset hx reliable preamble, fun y => ?_⟩
  have hcount : (s.deferReset x reliable preamble).deferrals y = s.deferrals y + if x = y then 1
    else 0 := by
    show List.count y (x :: s.deferred.map (·.sc)) = _
    rw [List.count_cons]
    simp [deferrals]
  rw [hcount]
  by_cases hy : y = x
  · have hold := h.ctxs x
    have hzero := hold.flag
    rw [hpend] at hzero
    rw [hy, if_pos rfl, TxPool.deferReset]
    dsimp only
    rw [modifyCtx_self, hself]
    refine ⟨?_, fun hclean => ?_, hold.done⟩
    · show s.deferrals x + 1 ≤ 1
      simp only [Bool.false_eq_true, if_false] at hzero
      omega
    · have hgone := hold.cleaned hclean
      exact absurd (hgone.2.1.symm.trans (hopen hgone.1)) (by simp)
  · have hother : (s.ref x).ctxs y = s.ctxs y := modifyCtx_of_ne hy
    rw [if_neg (Ne.symm hy), TxPool.deferReset]
    dsimp only
    rw [modifyCtx_of_ne hy, hother]
    exact h.ctxs y

theorem SweptAll.streamReset (h : SweptAll s) (hx : x ∈ s.live) (hraw : (s.ctxs x).isWt = false)
    (requested : ℕ)
    (v : ResetView) : SweptAll (s.streamReset x requested v) := by
  rw [TxPool.streamReset]
  split
  · exact h
  rename_i hpend
  split
  · exact h
  · split
    · exact h.deferReset hx (by simpa using hpend)
        (fun hwt => absurd (hraw.symm.trans hwt) (by simp)) _ _
    · exact h.idle idle_sendReset ((moves_sendReset hx v _).acct h.acct)

theorem SweptAll.wtResetStream (h : SweptAll s) (hx : x ∈ s.live ∨ (s.ctxs x).linked = false)
    (requested : ℕ)
    (v : ResetView) : SweptAll (s.wtResetStream x requested v) := by
  have hown : (s.ctxs x).linked = true → x ∈ s.live := fun hlinked => hx.resolve_right
    (by simp [hlinked])
  rw [TxPool.wtResetStream]
  have hzero : (s.ctxs x).linked = false →
      (if (s.ctxs x).linked = true then resetReliableSize v (s.ctxs x).sc requested else 0) =
        0 := by
    intro hun
    rw [if_neg (by simp [hun])]
  revert hzero
  generalize (if (s.ctxs x).linked = true then resetReliableSize v (s.ctxs x).sc requested else 0) =
    reliable
  intro hzero
  split
  · exact h
  split
  · exact h
  rename_i hpend
  split
  · exact h.idle idle_wtSendReset ((moves_wtSendReset hown _).acct h.acct)
  · rename_i hpos
    have hlinked : (s.ctxs x).linked = true := by
      by_contra hne
      exact hpos (hzero (by simpa using hne))
    split
    · refine h.deferReset (hown hlinked) ?_ (fun _ => hlinked) _ _
      by_contra hne
      exact hpend ⟨hlinked, by simpa using hne⟩
    · exact h.idle idle_wtSendReset ((moves_wtSendReset hown _).acct h.acct)

/-- An entry leaves the list, and a record of it may be made. -/
theorem SweptAll.removed {d : Deferred} (h : SweptAll s) (hd : d ∈ s.deferred) (hacct : t.Acct)
    (hdef : t.deferred = s.deferred.erase d) (hother : ∀ y ≠ d.sc, t.ctxs y = s.ctxs y)
    (hcleaned : (t.ctxs d.sc).cleaned = (s.ctxs d.sc).cleaned)
    (hdone : ∀ r ∈ (t.ctxs d.sc).done, r ∈ (s.ctxs d.sc).done ∨ r.cleaned = (s.ctxs d.sc).cleaned) :
    SweptAll t := by
  refine ⟨hacct, fun y => ?_⟩
  have hcount := deferrals_erase hd y
  rw [deferrals, hdef]
  by_cases hy : y = d.sc
  · subst hy
    rw [if_pos rfl] at hcount
    have hold := h.ctxs d.sc
    have hle : s.deferrals d.sc ≤ 1 := by
      refine hold.flag.trans ?_
      split <;> omega
    have hclean : (s.ctxs d.sc).cleaned = false := by
      by_contra hne
      have := (hold.cleaned (by simpa using hne)).2.2
      omega
    have hzero : ({ s with deferred := s.deferred.erase d } : TxPool).deferrals d.sc = 0 := by omega
    refine ⟨?_, fun hc => ?_, fun r hr => ?_⟩
    · exact hzero.le.trans (Nat.zero_le _)
    · rw [hcleaned, hclean] at hc
      cases hc
    · rcases hdone r hr with hr | hr
      · exact hold.done r hr
      · exact hr.trans hclean
  · rw [if_neg (Ne.symm hy)] at hcount
    rw [hother y hy]
    have hsame : ({ s with deferred := s.deferred.erase d } : TxPool).deferrals y = s.deferrals y :=
      hcount
    show Swept (s.ctxs y) (({ s with deferred := s.deferred.erase d } : TxPool).deferrals y)
    rw [hsame]
    exact h.ctxs y

theorem sendDeferred_spec (s : TxPool) (d : Deferred) (v : ResetView) :
    Only d.sc s (s.sendDeferred d v) ∧ SameStream (s.ctxs d.sc)
    ((s.sendDeferred d v).ctxs d.sc) := by
  have hflag : Only d.sc s (s.modifySc d.sc fun sc => { sc with txResetPending := false }) :=
    only_modifyCtx
  have hself : (s.modifySc d.sc fun sc => { sc with txResetPending := false }).ctxs d.sc =
    { s.ctxs d.sc with sc := { (s.ctxs d.sc).sc with txResetPending := false } } := modifyCtx_self
  have hsame : SameStream (s.ctxs d.sc)
      ((s.modifySc d.sc fun sc => { sc with txResetPending := false }).ctxs d.sc) := by
    rw [hself]
    exact ⟨rfl, rfl, rfl, rfl⟩
  rw [sendDeferred]
  split
  · dsimp only
    split
    · rw [wtDeferredReset]
      split
      · exact ⟨hflag, hsame⟩
      · exact ⟨hflag.trans (sends_wtSendReset (resetStreamReliable_ne_nil v _)).only,
          hsame.trans (idle_wtSendReset.ctxs d.sc)⟩
    · exact ⟨hflag.trans sends_sendReset.only, hsame.trans (idle_sendReset.ctxs d.sc)⟩
  · exact ⟨.refl _ _, .refl _⟩

theorem deferredResetFree_same (t : TxPool) (d : Deferred) :
    SameStream (t.ctxs d.sc) ((t.deferredResetFree d).ctxs d.sc) := by
  rw [deferredResetFree_ctx]
  exact ⟨rfl, rfl, rfl, rfl⟩

theorem SweptAll.runDeferred {d : Deferred} (h : SweptAll s) (hd : d ∈ s.deferred) (sweep : Bool)
    (v : ResetView) :
    SweptAll (s.runDeferred sweep d v) := by
  have hacct := h.acct.runDeferred hd sweep v
  revert hacct
  rw [TxPool.runDeferred]
  split
  · exact fun _ => h
  split
  · exact fun _ => h
  dsimp only
  obtain ⟨honly, hsame⟩ := sendDeferred_spec { s with deferred := s.deferred.erase d } d v
  have hmoves : Moves { s with deferred := s.deferred.erase d }
      (({ s with deferred := s.deferred.erase d } : TxPool).sendDeferred d v) :=
    moves_sendDeferred (s := { s with deferred := s.deferred.erase d }) (h.acct.listed d hd) v
  have hdef := hmoves.refs.deferred
  revert honly hsame hdef
  generalize (({ s with deferred := s.deferred.erase d } : TxPool).sendDeferred d v) = t
  intro honly hsame hdef hacct
  have hother : ∀ y ≠ d.sc, t.ctxs y = s.ctxs y := honly.ctxs
  split at hacct
  · rename_i hready
    rw [if_pos hready]
    have hfree := deferredResetFree_same (s.record t d) d
    have hself : (s.record t d).ctxs d.sc = { t.ctxs d.sc with
        done := (t.ctxs d.sc).done ++ [⟨(s.ctxs d.sc).sc.txReliableSize, (s.ctxs d.sc).handed,
          (s.ctxs d.sc).cleaned, s.closing d.cnx, (t.ctxs d.sc).told.drop (s.ctxs d.sc).told.length,
          (t.ctxs d.sc).sc.txQueued⟩] } := by
      rw [record]
      exact modifyCtx_self
    refine h.removed hd hacct ?_ (fun y hy => ?_) ?_ fun r hr => ?_
    · rw [deferredResetFree, destroy_deferred]
      exact (moves_record s t d).refs.deferred.trans hdef
    · have hrecord : (s.record t d).ctxs y = t.ctxs y := by
        rw [record]
        exact modifyCtx_of_ne hy
      rw [(only_deferredResetFree _ d).ctxs y hy, hrecord, hother y hy]
    · rw [hfree.cleaned, hself]
      exact hsame.cleaned
    · rw [hfree.done, hself] at hr
      rcases List.mem_append.1 hr with hr | hr
      · rw [hsame.done] at hr
        exact .inl hr
      · rw [List.mem_singleton.1 hr]
        exact .inr rfl
  · rename_i hready
    rw [if_neg hready]
    have hfree := deferredResetFree_same t d
    refine h.removed hd hacct ?_ (fun y hy => ?_) ?_ fun r hr => ?_
    · rw [deferredResetFree, destroy_deferred]
      exact hdef
    · rw [(only_deferredResetFree _ d).ctxs y hy, hother y hy]
    · exact hfree.cleaned.trans hsame.cleaned
    · rw [hfree.done, hsame.done] at hr
      exact .inl hr

theorem SweptAll.dropCnx {cnx : ℕ} {l : List Deferred} : SweptAll s → l.Subperm s.deferred →
    SweptAll (l.foldl (dropDeferred cnx) s) := by
  induction l generalizing s with
  | nil => exact fun h _ => h
  | cons d l ih =>
    intro h hl
    have hd : d ∈ s.deferred := hl.subset List.mem_cons_self
    have hacct := Acct.dropCnx (l := [d]) cnx h.acct (List.singleton_subperm_iff.2 hd)
    rw [List.foldl_cons]
    rw [List.foldl_cons, List.foldl_nil] at hacct
    revert hacct
    rw [dropDeferred]
    split
    · intro hacct
      have hdef : (({ s with deferred := s.deferred.erase d } : TxPool).deferredResetFree
        d).deferred =
          s.deferred.erase d := by
        rw [deferredResetFree, destroy_deferred]
        rfl
      have hfree := deferredResetFree_same { s with deferred := s.deferred.erase d } d
      refine ih (h.removed hd hacct hdef (only_deferredResetFree _ d).ctxs hfree.cleaned
        fun r hr => ?_) ?_
      · rw [hfree.done] at hr
        exact .inl hr
      · rw [hdef]
        have herase := hl.erase d
        rwa [List.erase_cons_head] at herase
    · exact fun _ => ih h ((List.sublist_cons_self d l).subperm.trans hl)

/-- The link of a stream is let go; a cleanup marks the stream as one it has been through. -/
theorem SweptAll.unlink (h : SweptAll s) {f : TxCtx → TxCtx} (hmoves : Moves s (s.modifyCtx x f))
    (hlinked : (f (s.ctxs x)).linked = false)
    (hsame : (f (s.ctxs x)).isWt = (s.ctxs x).isWt ∧ (f (s.ctxs x)).done = (s.ctxs x).done ∧
      (f (s.ctxs x)).sc = (s.ctxs x).sc)
    (hcleaned : (f (s.ctxs x)).cleaned = (s.ctxs x).cleaned ∨ (s.ctxs x).isWt = true ∧
    s.deferrals x = 0) :
    SweptAll (s.modifyCtx x f) := by
  obtain ⟨hwt, hdone, hsc⟩ := hsame
  refine ⟨hmoves.acct h.acct, fun y => ?_⟩
  have hold := h.ctxs y
  by_cases hy : y = x
  · subst hy
    rw [modifyCtx_self]
    refine ⟨?_, fun hc => ?_, ?_⟩
    · rw [hsc]
      exact hold.flag
    · rw [hwt, hlinked]
      rcases hcleaned with heq | hnew
      · rw [heq] at hc
        exact ⟨(hold.cleaned hc).1, rfl, (hold.cleaned hc).2.2⟩
      · exact ⟨hnew.1, rfl, hnew.2⟩
    · rw [hdone]
      exact hold.done
  · rw [modifyCtx_of_ne hy]
    exact hold

theorem SweptAll.free (h : SweptAll s) :
    SweptAll (s.modifyCtx x fun c => { c with linked := false, tracked := false }) :=
  h.unlink (moves_modifyCtx (fun _ => rfl) fun _ => rfl) rfl ⟨rfl, rfl, rfl⟩ (.inl rfl)

theorem SweptAll.deregister {l : List ℕ} : SweptAll s → (∀ y ∈ l, y ∈ s.live) →
    SweptAll (l.foldl deregisterLink s) := by
  induction l generalizing s with
  | nil => exact fun h _ => h
  | cons x l ih =>
    intro h hl
    have hx := hl x List.mem_cons_self
    have hmoves : Moves s (s.modifyCtx x fun c => { c with linked := false }) :=
      moves_modifyCtx (fun _ => rfl) fun _ => rfl
    have hun : SweptAll (s.modifyCtx x fun c => { c with linked := false }) :=
      h.unlink hmoves rfl ⟨rfl, rfl, rfl⟩ (.inl rfl)
    have hlink := moves_deregisterLink hx
    refine ih (s := s.deregisterLink x) (hun.idle idle_abandon (hlink.acct h.acct)) fun y hy => ?_
    rw [hlink.refs.live]
    exact hl y (List.mem_cons_of_mem _ hy)

/-- A cleanup of streams of which none has a deferred reset. -/
theorem SweptAll.sessionCleanup {l : List ℕ} (v : ℕ → ResetView) : SweptAll s →
    (∀ y ∈ l, y ∈ s.live ∧ (s.ctxs y).isWt = true ∧ (s.ctxs y).sc.txResetPending = false) →
    SweptAll (l.foldl (cleanupLink v) s) := by
  induction l generalizing s with
  | nil => exact fun h _ => h
  | cons x l ih =>
    intro h hl
    obtain ⟨hx, hwt, hpend⟩ := hl x List.mem_cons_self
    have hlink := moves_cleanupLink hx v
    have htold : Idle s (if (v x).canSend then s.tell x (wtReset (v x)).1 else s) := by
      split
      · exact idle_tell
      · exact .refl s
    have hmoves : Moves s (if (v x).canSend then s.tell x (wtReset (v x)).1 else s) := by
      split
      · exact moves_tell s x _
      · exact .refl s
    have hstep : SweptAll (cleanupLink v s x) ∧ ∀ y, ((cleanupLink v s x).ctxs y).isWt =
      (s.ctxs y).isWt ∧
        ((cleanupLink v s x).ctxs y).sc.txResetPending = (s.ctxs y).sc.txResetPending := by
      have hacct := hlink.acct h.acct
      revert hacct
      rw [cleanupLink]
      have hinv := h.idle htold (hmoves.acct h.acct)
      revert htold hinv
      generalize (if (v x).canSend then s.tell x (wtReset (v x)).1 else s) = t
      intro htold hinv hacct
      have hzero : t.deferrals x = 0 := by
        have hflag := (hinv.ctxs x).flag
        rw [htold.pending, hpend] at hflag
        simpa using hflag
      have hun : SweptAll (t.modifyCtx x fun c => { c with linked := false, cleaned := true }) :=
        hinv.unlink (moves_modifyCtx (fun _ => rfl) fun _ => rfl) rfl ⟨rfl, rfl, rfl⟩
          (.inr ⟨(htold.ctxs x).isWt.trans hwt, hzero⟩)
      refine ⟨hun.idle idle_abandon hacct, fun y => ?_⟩
      have habandon : Idle (t.modifyCtx x fun c => { c with linked := false, cleaned := true })
        ((t.modifyCtx x fun c => { c with linked := false, cleaned := true }).abandon x) :=
          idle_abandon
      rw [(habandon.ctxs y).isWt, habandon.pending y]
      exact ⟨(modifyCtx_keeps (g := TxCtx.isWt) rfl y).trans (htold.ctxs y).isWt,
        (modifyCtx_keeps (g := fun c => c.sc.txResetPending) rfl y).trans (htold.pending y)⟩
    refine ih hstep.1 fun y hy => ?_
    obtain ⟨hlive, hy⟩ := hl y (List.mem_cons_of_mem _ hy)
    rw [hlink.refs.live, (hstep.2 y).1, (hstep.2 y).2]
    exact ⟨hlive, hy⟩

/-! ## Runs -/

theorem SweptAll.step {act : Act} (h : SweptAll s) (hok : s.CleanOk act)
    (hs : s.step act = some t) :
    SweptAll t := by
  have hacct := h.acct.step hs
  cases act with
  | create cnx streamId isWt session =>
    cases hs
    exact h.create cnx streamId isWt session
  | ref x =>
    simp only [TxPool.step, Option.ite_none_right_eq_some, Option.some.injEq] at hs
    obtain ⟨-, rfl⟩ := hs
    exact h.idle (idle_modifyCtx ⟨rfl, rfl, rfl, rfl⟩ rfl) hacct
  | destroy x =>
    simp only [TxPool.step, Option.ite_none_right_eq_some, Option.some.injEq] at hs
    obtain ⟨-, rfl⟩ := hs
    exact h.idle idle_destroy hacct
  | send x data capacity setFin hash =>
    simp only [TxPool.step, Option.ite_none_right_eq_some, Option.some.injEq] at hs
    obtain ⟨hx, rfl⟩ := hs
    exact h.idle (idle_send (h.acct.wf x hx) data capacity setFin hash) hacct
  | arm x =>
    simp only [TxPool.step, Option.ite_none_right_eq_some, Option.some.injEq] at hs
    obtain ⟨-, rfl⟩ := hs
    exact h.idle (idle_modifySc rfl) hacct
  | pull x length buffer pushes =>
    simp only [TxPool.step, Option.ite_none_right_eq_some, Option.some.injEq] at hs
    obtain ⟨-, rfl⟩ := hs
    exact h.idle idle_pull hacct
  | streamReset x requested v =>
    simp only [TxPool.step, Option.ite_none_right_eq_some, Option.some.injEq] at hs
    obtain ⟨⟨hx, hraw, -⟩, rfl⟩ := hs
    exact h.streamReset hx hraw requested v
  | wtResetStream x requested v =>
    simp only [TxPool.step, Option.ite_none_right_eq_some, Option.some.injEq] at hs
    obtain ⟨⟨-, hx⟩, rfl⟩ := hs
    exact h.wtResetStream hx requested v
  | afterSend k sweep v =>
    simp only [TxPool.step, Option.map_eq_some_iff] at hs
    obtain ⟨d, hd, rfl⟩ := hs
    exact h.runDeferred (List.mem_of_getElem? hd) sweep v
  | sessionCleanup session v =>
    cases hs
    refine SweptAll.sessionCleanup v h fun y hy => ⟨mem_live_of_mem_links y hy, ?_, hok y hy⟩
    have hlink := (List.mem_filter.1 hy).2
    simp only [Bool.and_eq_true] at hlink
    exact hlink.1.1
  | deregister session =>
    cases hs
    exact SweptAll.deregister h mem_live_of_mem_links
  | free x =>
    cases hs
    exact h.free
  | disconnect cnx | delete cnx =>
    cases hs
    exact ⟨hacct, h.ctxs⟩
  | close cnx =>
    cases hs
    have hclosing : SweptAll { s with closing := Function.update s.closing cnx true } :=
      ⟨⟨h.acct.1, h.acct.2, h.acct.3, h.acct.4, h.acct.5, h.acct.6⟩, h.ctxs⟩
    exact hclosing.dropCnx (List.Subperm.refl s.deferred)

theorem sweptAll_init : SweptAll {} :=
  ⟨acct_init, fun _ => ⟨Nat.zero_le _, (nomatch ·), fun _ hr => absurd hr List.not_mem_nil⟩⟩

/-- In every run whose cleanups find no deferred reset, none is sent after its session's cleanup. -/
theorem cleanup_ends_resets {acts : List Act} (hrun : Steps.run step {} acts = some s)
    (hok : Steps.Along step CleanOk {} acts) : s.CleanupEnds := by
  have hinv : SweptAll s := Steps.invariant (fun _ _ _ h hok hs => h.step hok hs)
    sweptAll_init hok hrun
  intro x r hr hcleaned
  exact absurd (((hinv.ctxs x).done r hr).symm.trans hcleaned) (by simp)

/-- A WebTransport stream is reset with four of its six bytes kept, and its session is cleaned up.
With `flushed` the four bytes and the reset are out before. -/
def cleanupActs (flushed : Bool) : List Act :=
  [.create 16 4 true 7, .send 0 [1, 2, 3, 4, 5, 6] 8 false false,
    .wtResetStream 0 4 { preamble := 2 }] ++
    (if flushed then [.pull 0 9 true true, .afterSend 0 false {}] else []) ++
    [.sessionCleanup 7 fun _ => {}] ++ (if flushed then [] else [.afterSend 0 false {}])

theorem cleanup_ends_resets_flushed : ∃ s, Steps.run step {} (cleanupActs true) = some s ∧
    (s.ctxs 0).cleaned = true ∧ (s.ctxs 0).done.length = 1 ∧ s.CleanupEnds := by
  refine ⟨_, rfl, by decide +kernel, by decide +kernel, ?_⟩
  exact cleanup_ends_resets (rfl : Steps.run step {} (cleanupActs true) = some _)
    (by decide +kernel)

/-- The discarded bytes look sent, and the stream is reset again. -/
theorem cleanup_ends_resets_held : ∃ s, Steps.run step {} (cleanupActs false) = some s ∧
    ¬ s.CleanupEnds ∧
    (s.ctxs 0).frames = [] ∧ (s.ctxs 0).told =
    [(.picowtResetStream, .ok), (.resetStreamAt 6, .ok)] := by
  refine ⟨_, rfl, fun h => ?_, by decide +kernel, by decide +kernel⟩
  have := h 0 ⟨4, 0, true, false, [(.resetStreamAt 6, .ok)], 0⟩ (by decide +kernel) rfl
  exact absurd this.1 (by simp)

end TxPool

end Aiopquic
