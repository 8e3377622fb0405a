import Aiopquic.ScRefs

/-!
# What keeps the references of stream contexts

A context that picoquic may still hand to a callback has its stream's reference, and so has every
context that a connection owns, unless its `STREAM_DESTROY` waits in the batch to be routed. The
facts below say this of each place that names a context. They do not speak of the counts; those
follow once every operation is shown to move a reference together with its holder.
-/

namespace Aiopquic

open Counted

/-! ## A connection and its contexts -/

/-- What a connection knows of contexts. -/
structure ConnScs where
  owned : Finset ℕ
  ctxs : ℕ → Option ℕ
  dropped : Bool
  closed : Bool

def QuicConnection.scs (c : QuicConnection) : ConnScs :=
  ⟨c.scOwned, c.streamCtxs, c.streamCtxsDropped, c.closed⟩

/-- What an event changes of it: a stream event adopts its context, a `STREAM_DESTROY` lets it go,
and a close gives up all of them. -/
def ConnScs.handle (c : ConnScs) (ev : RawEvent) : ConnScs :=
  if rxEventOwnsSc ev.evtType then
    if ev.streamCtxPtr ≠ 0 ∧ c.dropped = false then
      { c with
        owned := insert ev.streamCtxPtr c.owned
        ctxs := if c.ctxs ev.streamId = none then Function.update c.ctxs ev.streamId
          (some ev.streamCtxPtr)
          else c.ctxs }
    else c
  else if ev.evtType = .streamDestroy then
    { c with owned := c.owned.erase ev.streamCtxPtr, ctxs := Function.update c.ctxs ev.streamId none }
  else if ev.isClose then { owned := ∅, ctxs := fun _ => none, dropped := true, closed := true }
  else c

namespace QuicConnection

variable (c : QuicConnection) (t : Transport) (a : Answers) (ev : RawEvent)

@[simp] theorem append_scs (event : QuicEvent) : (c.append event).scs = c.scs := rfl

@[simp] theorem append_cnxPtr (event : QuicEvent) : (c.append event).cnxPtr = c.cnxPtr := rfl

theorem appendTerminated_scs : (c.appendTerminated ev).scs = c.scs := by
  unfold appendTerminated
  split <;> rfl

theorem adoptStreamCtx_scs (h : rxEventOwnsSc ev.evtType) :
    (c.adoptStreamCtx ev.streamId ev.streamCtxPtr).scs = c.scs.handle ev := by
  rw [ConnScs.handle, if_pos h, adoptStreamCtx]
  by_cases hc : ev.streamCtxPtr ≠ 0 ∧ c.streamCtxsDropped = false
  · rw [if_pos hc, if_pos (show ev.streamCtxPtr ≠ 0 ∧ c.scs.dropped = false from hc)]
    rfl
  · rw [if_neg hc, if_neg (show ¬ (ev.streamCtxPtr ≠ 0 ∧ c.scs.dropped = false) from hc)]

theorem adoptStreamCtx_cnxPtr (streamId sc : ℕ) :
    (c.adoptStreamCtx streamId sc).cnxPtr = c.cnxPtr := by
  unfold adoptStreamCtx
  split <;> rfl

theorem releaseDgramRing_scDestroyed : (c.releaseDgramRing t).2.scDestroyed = t.scDestroyed := by
  unfold releaseDgramRing
  split <;> rfl

theorem handleClose_scs (h : ev.isClose) : (c.handleClose t ev).1.scs = c.scs.handle ev := by
  have hown : rxEventOwnsSc ev.evtType = false ∧ ev.evtType ≠ .streamDestroy := by
    rcases (by simpa [RawEvent.isClose] using h : ev.evtType = .close ∨ ev.evtType = .appClose) with
      h | h <;>
      simp [rxEventOwnsSc, h]
  rw [ConnScs.handle, if_neg (by simp [hown.1]), if_neg hown.2, if_pos h]
  simp [handleClose, destroyStreamCtxs, releaseDgramRing_fst, scs]
  unfold appendTerminated
  split <;> rfl

theorem handleClose_scDestroyed :
    (c.handleClose t ev).2.scDestroyed = t.scDestroyed ∪ c.scOwned := by
  simp [handleClose, destroyStreamCtxs, releaseDgramRing_scDestroyed]
  unfold appendTerminated
  split <;> rfl

/-- The branches that both handlers share. -/
theorem handleCommon_scs : (c.handleCommon t a ev).1.scs = c.scs.handle ev := by
  cases hev : ev.evtType
  case streamData | streamFin | streamReset | stopSending =>
    rw [← adoptStreamCtx_scs c ev (by simp [rxEventOwnsSc, hev])]
    simp [handleCommon, hev]
  case close | appClose =>
    rw [← handleClose_scs c t ev (by simp [RawEvent.isClose, hev])]
    simp [handleCommon, hev]
  case streamDestroy =>
    simp [handleCommon, handleStreamDestroy, ConnScs.handle, rxEventOwnsSc, hev, scs]
  all_goals
    simp [handleCommon, handleDatagramDrained, ConnScs.handle, rxEventOwnsSc, RawEvent.isClose, hev,
      scs, append]

theorem handleCommon_scDestroyed : (c.handleCommon t a ev).2.scDestroyed =
    if ev.isClose then t.scDestroyed ∪ c.scOwned else t.scDestroyed := by
  cases hev : ev.evtType
  case close | appClose =>
    rw [if_pos (by simp [RawEvent.isClose, hev]), ← handleClose_scDestroyed c t ev]
    simp [handleCommon, hev]
  all_goals simp [handleCommon, RawEvent.isClose, hev]

theorem handleCommon_cnxPtr :
    (c.handleCommon t a ev).1.cnxPtr = if ev.isClose then 0 else c.cnxPtr := by
  cases hev : ev.evtType
  case close | appClose =>
    simp [handleCommon, handleClose, RawEvent.isClose, hev]
  all_goals
    simp [handleCommon, handleDatagramDrained, handleStreamDestroy, adoptStreamCtx_cnxPtr,
      RawEvent.isClose,
      hev]

theorem enqueueRaw_scs : (c.enqueueRaw t a ev).1.scs = c.scs.handle ev := by
  unfold enqueueRaw
  split
  · rename_i hev
    simp [ConnScs.handle, rxEventOwnsSc, RawEvent.isClose, hev]
  · exact handleCommon_scs c t a ev

theorem enqueueRaw_scDestroyed : (c.enqueueRaw t a ev).2.scDestroyed =
    if ev.isClose then t.scDestroyed ∪ c.scOwned else t.scDestroyed := by
  unfold enqueueRaw
  split
  · rename_i hev
    simp [RawEvent.isClose, hev]
  · exact handleCommon_scDestroyed c t a ev

theorem enqueueRaw_cnxPtr :
    (c.enqueueRaw t a ev).1.cnxPtr = if ev.isClose then 0 else c.cnxPtr := by
  unfold enqueueRaw
  split
  · rename_i hev
    simp [RawEvent.isClose, hev]
  · exact handleCommon_cnxPtr c t a ev

theorem handleRawEvent_scs : (c.handleRawEvent t a ev).1.scs = c.scs.handle ev := by
  unfold handleRawEvent
  split
  · rename_i hev
    have hsame : c.scs.handle ev = c.scs := by
      simp [ConnScs.handle, rxEventOwnsSc, RawEvent.isClose, hev]
    rw [hsame]
    split <;> rfl
  · rename_i hev
    have hsame : c.scs.handle ev = c.scs := by
      simp [ConnScs.handle, rxEventOwnsSc, RawEvent.isClose, hev]
    rw [hsame]
    split <;> rfl
  · exact handleCommon_scs c t a ev

theorem handleRawEvent_scDestroyed : (c.handleRawEvent t a ev).2.scDestroyed =
    if ev.isClose then t.scDestroyed ∪ c.scOwned else t.scDestroyed := by
  unfold handleRawEvent
  split
  · rename_i hev
    have hcl : ev.isClose = false := by
      simp [RawEvent.isClose, hev]
    simp only [hcl, Bool.false_eq_true, if_false]
    split <;> rfl
  · rename_i hev
    have hcl : ev.isClose = false := by
      simp [RawEvent.isClose, hev]
    simp only [hcl, Bool.false_eq_true, if_false]
    split <;> rfl
  · exact handleCommon_scDestroyed c t a ev

end QuicConnection

/-! ## The engine and its connections' contexts -/

namespace QuicEngine

variable {s : QuicEngine} {d : Drained} {i : ℕ}

/-- What routing an event changes, as far as contexts go. -/
structure ScRouted (s s' : QuicEngine) (i : ℕ) (scs : ConnScs) (cnxPtr : ℕ) (given : Finset ℕ) :
    Prop where
  self : (s'.conns i).scs = scs
  others : ∀ j, j ≠ i → (s'.conns j).scs = (s.conns j).scs ∧ (s'.conns j).cnxPtr =
    (s.conns j).cnxPtr
  cnxPtr : (s'.conns i).cnxPtr = cnxPtr
  destroyed : s'.transport.scDestroyed = s.transport.scDestroyed ∪ given

theorem processEvents_scs (s : QuicEngine) (p j : ℕ) :
    ((s.processEvents p).conns j).scs = (s.conns j).scs ∧
      ((s.processEvents p).conns j).cnxPtr = (s.conns j).cnxPtr := by
  by_cases hj : j = p
  · subst hj
    simp [processEvents, QuicConnection.scs]
  · simp [processEvents, Function.update_of_ne hj]

/-- `_enqueue_raw` on connection `i`. -/
theorem enqueue_scRouted : ScRouted s (s.enqueue i d) i ((s.conns i).scs.handle d.ev)
    (if d.ev.isClose then 0 else (s.conns i).cnxPtr)
    (if d.ev.isClose then (s.conns i).scOwned else ∅) := by
  constructor
  · simp [enqueue, QuicConnection.enqueueRaw_scs]
  · intro j hj
    simp [enqueue, Function.update_of_ne hj]
  · simp [enqueue, QuicConnection.enqueueRaw_cnxPtr]
  · simp only [enqueue, QuicConnection.enqueueRaw_scDestroyed]
    split <;> simp

/-- What comes after `_enqueue_raw` leaves the contexts alone. -/
theorem dispatch_scRouted : ScRouted s (s.dispatch i d).1 i ((s.conns i).scs.handle d.ev)
    (if d.ev.isClose then 0 else (s.conns i).cnxPtr)
    (if d.ev.isClose then (s.conns i).scOwned else ∅) := by
  have hr := enqueue_scRouted (s := s) (d := d) (i := i)
  rw [dispatch]
  simp only [enqueue_protocols]
  split
  · exact hr
  · rename_i p hp
    have hkeep := processEvents_scs (s.enqueue i d) p
    have hafter : ScRouted s ((s.enqueue i d).processEvents p) i ((s.conns i).scs.handle d.ev)
        (if d.ev.isClose then 0 else (s.conns i).cnxPtr)
        (if d.ev.isClose then (s.conns i).scOwned else ∅) := by
      constructor
      · rw [(hkeep i).1, hr.self]
      · intro j hj
        rw [(hkeep j).1, (hkeep j).2]
        exact hr.others j hj
      · rw [(hkeep i).2, hr.cnxPtr]
      · exact hr.destroyed
    -- the tables are no part of what is compared, so both ends of the branch agree
    generalize (if d.ev.isClose then 0 else (s.conns i).cnxPtr) = ptr at hafter ⊢
    generalize (if d.ev.isClose then (s.conns i).scOwned else ∅) = given at hafter ⊢
    split
    · exact ⟨hafter.self, hafter.others, hafter.cnxPtr, hafter.destroyed⟩
    · exact hafter

theorem dispatch_made : (s.dispatch i d).1.made = s.made := by
  rw [dispatch]
  simp only [enqueue_protocols]
  split
  · rfl
  · split <;> rfl

/-- The table after the dispatch of an event: the same, or without the address after a close. -/
theorem dispatch_connections_cases : (s.dispatch i d).1.connections = s.connections ∨
    d.ev.isClose ∧ (s.dispatch i d).1.connections = Function.update s.connections
    d.ev.cnxPtr none := by
  rw [dispatch]
  simp only [enqueue_protocols]
  split
  · exact .inl rfl
  · split
    · rename_i hcl
      exact .inr ⟨hcl, rfl⟩
    · exact .inl rfl

end QuicEngine

/-! ## The facts -/

namespace ScHolders

/-- Stream `streamId` of the connection at `cnx` may still get callbacks and contexts. -/
def UsableAt (s : ScHolders) (cnx streamId : ℕ) : Prop :=
  cnx ∈ s.live ∧ (s.cnxs cnx).closing = false ∧ (s.cnxs cnx).released streamId = false

/-- The same for the connection that Python knows by `k`. -/
def Usable (s : ScHolders) (k streamId : ℕ) : Prop := ∃ cnx, s.UsableAt cnx streamId ∧
    s.role.key cnx = k

/-- The `STREAM_DESTROY` of a context waits to be routed, and the batch has its stream reference. -/
def Retired (s : ScHolders) (sc : ℕ) : Prop :=
  sc ∈ s.batch ∧ ∃ ev ∈ s.events, ev.Carries ∧ ev.evtType = .streamDestroy ∧ ev.streamCtxPtr = sc

/-- A command with a context names the context's home, and while its stream is usable the context
has its stream's reference. -/
def Fits (s : ScHolders) (e : Entry) : Prop :=
  s.home e.streamCtx = (s.role.key e.cnx, e.streamId) ∧
    (s.UsableAt e.cnx e.streamId → e.streamCtx ∈ s.lifetime)

/-- What an event rules out for the events queued after it. -/
def Precedes (role : Role) (ev later : RawEvent) : Prop :=
  (ev.isClose → role.key ev.cnxPtr = role.key later.cnxPtr → ¬ later.Carries) ∧
    (ev.evtType = .streamDestroy → later.Carries → later.streamCtxPtr ≠ ev.streamCtxPtr)

/-- What connection `i` knows of contexts. -/
abbrev conn (s : ScHolders) (i : ℕ) : ConnScs := (s.engine.conns i).scs

/-- The contexts that connections own have their stream's reference, or the batch has it. -/
structure Python (s : ScHolders) : Prop where
  owned : ∀ i, ∀ sc ∈ (s.conn i).owned, sc ∈ s.lifetime ∨ s.Retired sc
  ctxs : ∀ i streamId sc, (s.conn i).ctxs streamId = some sc → sc ∈ (s.conn i).owned
  dropped : ∀ i, (s.conn i).dropped = true → (s.conn i).closed = true ∧ (s.conn i).owned = ∅
  unmade : ∀ i, s.engine.made ≤ i → (s.conn i).owned = ∅
  client : s.role = .client → s.engine.made = 1
  zero : 0 ∉ s.lifetime
  stopped : s.phase = .stopped → s.events = []

/-- While the transport runs, every place that names a context names its home, and wherever the
context may be used it has its stream's reference. -/
structure Running (s : ScHolders) : Prop where
  pos : ∀ cnx ∈ s.live, cnx ≠ 0
  inj : ∀ a ∈ s.live, ∀ b ∈ s.live, s.role.key a = s.role.key b → a = b
  attached : ∀ cnx streamId, s.UsableAt cnx streamId → (s.cnxs cnx).attached streamId ≠ 0 →
    s.home ((s.cnxs cnx).attached streamId) = (s.role.key cnx, streamId) ∧
      (s.cnxs cnx).attached streamId ∈ s.lifetime
  tx : ∀ e ∈ s.tx, e.Attaches → s.Fits e
  deferred : ∀ e ∈ s.deferred, s.Fits e
  notes : ∀ e ∈ s.notes, e.eventType = .txOpenFlowControl
  queue : ∀ ev ∈ s.events ++ s.rx, ev.Carries → ev.cnxPtr ≠ 0 ∧
    s.home ev.streamCtxPtr = (s.role.key ev.cnxPtr, ev.streamId) ∧
      (ev.streamCtxPtr ∈ s.lifetime ∨ s.Retired ev.streamCtxPtr)
  closed : ∀ ev ∈ s.events ++ s.rx, ev.isClose → ∀ streamId,
    ¬ s.Usable (s.role.key ev.cnxPtr) streamId
  destroyed : ∀ ev ∈ s.events ++ s.rx, ev.Carries → ev.evtType = .streamDestroy →
    ¬ s.Usable (s.role.key ev.cnxPtr) ev.streamId
  order : (s.events ++ s.rx).Pairwise (Precedes s.role)
  homes : ∀ i, ∀ sc ∈ (s.conn i).owned, (s.home sc).1 = s.keyOf i
  ctxHomes : ∀ i streamId sc, (s.conn i).ctxs streamId = some sc → s.home sc = (s.keyOf i, streamId)
  table : s.role = .server → ∀ i < s.engine.made, (s.conn i).dropped = false →
    s.engine.connections (s.engine.conns i).cnxPtr = some i
  entry : s.role = .server → ∀ k i, s.engine.connections k = some i →
    i < s.engine.made ∧ ((s.conn i).dropped = false → (s.engine.conns i).cnxPtr = k)

variable {s : ScHolders}

theorem usable_of_usableAt {cnx streamId : ℕ} (h : s.UsableAt cnx streamId) :
    s.Usable (s.role.key cnx) streamId := ⟨cnx, h, rfl⟩

/-- picoquic's connections change, and no stream becomes usable. -/
theorem Running.narrow (h : s.Running) (live : List ℕ) (cnxs : ℕ → ScCnx) (hlive : live ⊆ s.live)
    (huse : ∀ a streamId, UsableAt { s with live := live, cnxs := cnxs } a streamId →
    s.UsableAt a streamId)
    (hatt : ∀ a streamId, UsableAt { s with live := live, cnxs := cnxs } a streamId →
      (cnxs a).attached streamId = (s.cnxs a).attached streamId) :
    Running { s with live := live, cnxs := cnxs } := by
  have husable : ∀ k streamId, Usable { s with live := live, cnxs := cnxs } k streamId →
      s.Usable k streamId := by
    rintro k streamId ⟨a, ha, hk⟩
    exact ⟨a, huse a streamId ha, hk⟩
  have hfits : ∀ e, s.Fits e → Fits { s with live := live, cnxs := cnxs } e := by
    intro e he
    exact ⟨he.1, fun hu => he.2 (huse _ _ hu)⟩
  exact
    { h with
      pos := fun a ha => h.pos a (hlive ha)
      inj := fun a ha b hb => h.inj a (hlive ha) b (hlive hb)
      attached := by
        intro a streamId hu hne
        show s.home ((cnxs a).attached streamId) = _ ∧ (cnxs a).attached streamId ∈ s.lifetime
        have hne' : (cnxs a).attached streamId ≠ 0 := hne
        rw [hatt a streamId hu] at hne' ⊢
        exact h.attached a streamId (huse a streamId hu) hne'
      tx := fun e he ha => hfits e (h.tx e he ha)
      deferred := fun e he => hfits e (h.deferred e he)
      closed := fun ev hev hcl streamId hu => h.closed ev hev hcl streamId (husable _ _ hu)
      destroyed := fun ev hev hc hd hu => h.destroyed ev hev hc hd (husable _ _ hu) }

/-- picoquic makes a connection at an address of which nothing is left. -/
theorem Running.connect (h : s.Running) {cnx : ℕ} (hpos : cnx ≠ 0)
    (hsingle : s.role = .client → s.live = [])
    (hevents : ∀ ev ∈ s.events ++ s.rx, ev.Carries ∨ ev.isClose → s.role.key ev.cnxPtr ≠
    s.role.key cnx)
    (htx : ∀ e ∈ s.tx, e.Attaches → e.cnx ≠ cnx) (hdef : ∀ e ∈ s.deferred, e.cnx ≠ cnx) :
    Running { s with live := cnx :: s.live, cnxs := Function.update s.cnxs cnx {} } := by
  have huse : ∀ a streamId, a ≠ cnx →
      UsableAt { s with live := cnx :: s.live, cnxs := Function.update s.cnxs cnx {} } a streamId →
        s.UsableAt a streamId := by
    rintro a streamId ha ⟨hlive, hu⟩
    simp only [Function.update_of_ne ha] at hu
    exact ⟨(List.mem_cons.1 hlive).resolve_left ha, hu⟩
  have husable : ∀ k streamId, k ≠ s.role.key cnx →
      Usable { s with live := cnx :: s.live, cnxs := Function.update s.cnxs cnx {} } k streamId →
        s.Usable k streamId := by
    rintro k streamId hk ⟨a, ha, rfl⟩
    exact ⟨a, huse a streamId (fun hac => hk (hac ▸ rfl)) ha, rfl⟩
  have hfits : ∀ e, e.cnx ≠ cnx → s.Fits e →
      Fits { s with live := cnx :: s.live, cnxs := Function.update s.cnxs cnx {} } e := by
    intro e hne he
    exact ⟨he.1, fun hu => he.2 (huse _ _ hne hu)⟩
  exact
    { h with
      pos := by
        intro a ha
        rcases List.mem_cons.1 ha with rfl | ha
        · exact hpos
        · exact h.pos a ha
      inj := by
        intro a ha b hb hab
        cases hrole : s.role with
        | server => simpa [hrole, Role.key] using hab
        | client =>
          have ha : a ∈ cnx :: s.live := ha
          have hb : b ∈ cnx :: s.live := hb
          rw [hsingle hrole, List.mem_singleton] at ha hb
          rw [ha, hb]
      attached := by
        intro a streamId hu hne
        by_cases ha : a = cnx
        · subst ha
          exact absurd (by simp) hne
        · simp only [Function.update_of_ne ha] at hne ⊢
          exact h.attached a streamId (huse a streamId ha hu) hne
      tx := fun e he ha => hfits e (htx e he ha) (h.tx e he ha)
      deferred := fun e he => hfits e (hdef e he) (h.deferred e he)
      closed := fun ev hev hcl streamId hu =>
        h.closed ev hev hcl streamId (husable _ _ (hevents ev hev (.inr hcl)) hu)
      destroyed := fun ev hev hc hd hu =>
        h.destroyed ev hev hc hd (husable _ _ (hevents ev hev (.inl hc)) hu) }

/-- The contexts attached to a connection's streams change; those that it gains are fit for their
stream. -/
theorem Running.setCnx (h : s.Running) (cnx : ℕ) (c : ScCnx)
    (hclosing : c.closing = (s.cnxs cnx).closing)
    (hreleased : c.released = (s.cnxs cnx).released)
    (hatt : ∀ streamId, s.UsableAt cnx streamId → c.attached streamId ≠ 0 →
      c.attached streamId ≠ (s.cnxs cnx).attached streamId →
        s.home (c.attached streamId) = (s.role.key cnx, streamId) ∧ c.attached streamId ∈
        s.lifetime) :
    Running { s with cnxs := Function.update s.cnxs cnx c } := by
  have huse : ∀ a streamId, UsableAt { s with cnxs := Function.update s.cnxs cnx c } a streamId ↔
      s.UsableAt a streamId := by
    intro a streamId
    by_cases ha : a = cnx
    · subst ha
      simp [UsableAt, hclosing, hreleased]
    · simp [UsableAt, Function.update_of_ne ha]
  have hfits : ∀ e, s.Fits e → Fits { s with cnxs := Function.update s.cnxs cnx c } e := by
    intro e he
    exact ⟨he.1, fun hu => he.2 ((huse _ _).1 hu)⟩
  have husable : ∀ k streamId, Usable { s with cnxs := Function.update s.cnxs cnx c } k streamId →
      s.Usable k streamId := by
    rintro k streamId ⟨a, ha, hk⟩
    exact ⟨a, (huse a streamId).1 ha, hk⟩
  exact
    { h with
      attached := by
        intro a streamId hu hne
        rw [huse] at hu
        by_cases ha : a = cnx
        · subst ha
          simp only [Function.update_self] at hne ⊢
          by_cases hsame : c.attached streamId = (s.cnxs a).attached streamId
          · rw [hsame] at hne ⊢
            exact h.attached a streamId hu hne
          · exact hatt streamId hu hne hsame
        · simp only [Function.update_of_ne ha] at hne ⊢
          exact h.attached a streamId hu hne
      tx := fun e he ha => hfits e (h.tx e he ha)
      deferred := fun e he => hfits e (h.deferred e he)
      closed := fun ev hev hcl streamId hu => h.closed ev hev hcl streamId (husable _ _ hu)
      destroyed := fun ev hev hc hd hu => h.destroyed ev hev hc hd (husable _ _ hu) }

/-! Queues -/

/-- Commands with a context leave or enter the TX ring. -/
theorem Running.setTx (h : s.Running) (tx : List Entry)
    (htx : ∀ e ∈ tx, e.Attaches → e ∈ s.tx ∨ s.Fits e) :
    Running { s with tx := tx } := by
  refine { h with tx := fun e he ha => ?_ }
  rcases htx e he ha with he | hf
  · exact h.tx e he ha
  · exact hf

theorem Running.setDeferred (h : s.Running) (deferred : List Entry)
    (hdef : ∀ e ∈ deferred, e ∈ s.deferred ∨ s.Fits e) :
    Running { s with deferred := deferred } := by
  refine { h with deferred := fun e he => ?_ }
  rcases hdef e he with he | hf
  · exact h.deferred e he
  · exact hf

/-- An event is queued. -/
theorem Running.setRx (h : s.Running) (ev : RawEvent)
    (hqueue : ev.Carries → ev.cnxPtr ≠ 0 ∧ s.home ev.streamCtxPtr =
    (s.role.key ev.cnxPtr, ev.streamId) ∧
      ev.streamCtxPtr ∈ s.lifetime)
    (hclosed : ev.isClose → ∀ streamId, ¬ s.Usable (s.role.key ev.cnxPtr) streamId)
    (hdestroyed : ev.Carries → ev.evtType = .streamDestroy →
      ¬ s.Usable (s.role.key ev.cnxPtr) ev.streamId)
    (hbefore : ∀ e ∈ s.events ++ s.rx, Precedes s.role e ev) :
    Running { s with rx := s.rx ++ [ev] } := by
  have hmem : ∀ e, e ∈ s.events ++ (s.rx ++ [ev]) → e ∈ s.events ++ s.rx ∨ e = ev := by
    intro e he
    rw [← List.append_assoc, List.mem_append, List.mem_singleton] at he
    exact he
  refine { h with queue := fun e he hc => ?_, closed := fun e he hcl => ?_, destroyed := fun e he hc hd => ?_,
                  order := ?_ }
  · rcases hmem e he with he | rfl
    · exact h.queue e he hc
    · obtain ⟨hpos, hhome, hlife⟩ := hqueue hc
      exact ⟨hpos, hhome, .inl hlife⟩
  · rcases hmem e he with he | rfl
    · exact h.closed e he hcl
    · exact hclosed hcl
  · rcases hmem e he with he | rfl
    · exact h.destroyed e he hc hd
    · exact hdestroyed hc hd
  · show (s.events ++ (s.rx ++ [ev])).Pairwise (Precedes s.role)
    rw [← List.append_assoc, List.pairwise_append]
    refine ⟨h.order, List.pairwise_singleton _ _, fun e he f hf => ?_⟩
    rw [List.mem_singleton] at hf
    subst hf
    exact hbefore e he

/-- Nothing queued rules out an event for a usable stream's context. -/
theorem Running.precedes (h : s.Running) {ev : RawEvent} (hu : s.UsableAt ev.cnxPtr ev.streamId)
    (hhome : s.home ev.streamCtxPtr = (s.role.key ev.cnxPtr, ev.streamId)) :
    ∀ e ∈ s.events ++ s.rx, Precedes s.role e ev := by
  intro e he
  constructor
  · intro hcl hkey _
    exact h.closed e he hcl ev.streamId (hkey ▸ usable_of_usableAt hu)
  · intro hd hc heq
    have hce : e.Carries := ⟨heq ▸ hc.1, .inr hd⟩
    have hhome' := (h.queue e he hce).2.1
    rw [← heq, hhome, Prod.mk.injEq] at hhome'
    apply h.destroyed e he hce hd
    rw [← hhome'.1, ← hhome'.2]
    exact usable_of_usableAt hu

/-! Holders -/

theorem holders_pos_of_lifetime {sc : ℕ} (h : sc ∈ s.lifetime) : 0 < s.holders sc := by
  rw [holders, if_pos h]
  omega

theorem holders_pos_of_batch {sc : ℕ} (h : sc ∈ s.batch) : 0 < s.holders sc := by
  have := List.count_pos_iff.2 h
  rw [holders]
  omega

theorem holders_pos_of_rx {ev : RawEvent} {sc : ℕ} (h : ev ∈ s.rx) (href : ev.ref = some sc) :
    0 < s.holders sc := by
  have := List.count_pos_iff.2 (List.mem_filterMap.2 ⟨ev, h, href⟩)
  rw [holders]
  omega

theorem holders_pos_of_tx {e : Entry} {sc : ℕ} (h : e ∈ s.tx) (href : e.ref = some sc) :
    0 < s.holders sc := by
  have := List.count_pos_iff.2 (List.mem_filterMap.2 ⟨e, h, href⟩)
  rw [holders]
  omega

theorem holders_pos_of_deferred {e : Entry} (h : e ∈ s.deferred) : 0 < s.holders e.streamCtx := by
  have := List.count_pos_iff.2
    (List.mem_map.2 ⟨e, h, rfl⟩ : e.streamCtx ∈ s.deferred.map (·.streamCtx))
  rw [holders]
  omega

theorem holders_pos_of_notes {e : Entry} (h : e ∈ s.notes) : 0 < s.holders e.streamCtx := by
  have := List.count_pos_iff.2
    (List.mem_map.2 ⟨e, h, rfl⟩ : e.streamCtx ∈ s.notes.map (·.streamCtx))
  rw [holders]
  omega

theorem holders_pos_of_chunks {sc : ℕ} (h : sc ∈ s.chunks) : 0 < s.holders sc := by
  have := List.count_pos_iff.2 h
  rw [holders]
  omega

/-- The context of an owned stream is referenced. -/
theorem holders_pos_of_covered {sc : ℕ} (h : sc ∈ s.lifetime ∨ s.Retired sc) :
    0 < s.holders sc := by
  rcases h with h | h
  · exact holders_pos_of_lifetime h
  · exact holders_pos_of_batch h.1

theorem ref_of_attaches {e : Entry} (h : e.Attaches) : e.ref = some e.streamCtx := by
  obtain ⟨hne, hev | hev | hev⟩ := h <;> simp [Entry.ref, hne, txEventOwnsSc, hev]

/-! A context is made -/

/-- The holders once a context for `home` is made. -/
def withCreated (s : ScHolders) (home : ℕ × ℕ) : ScHolders :=
  { s with
    made := s.made + 1
    lifetime := insert (s.made + 1) s.lifetime
    home := Function.update s.home (s.made + 1) home }

theorem withCreated_home (home : ℕ × ℕ) {sc : ℕ} (hfresh : s.holders (s.made + 1) = 0)
    (hsc : 0 < s.holders sc) : (s.withCreated home).home sc = s.home sc := by
  apply Function.update_of_ne
  rintro rfl
  omega

theorem Python.withCreated (h : s.Python) (home : ℕ × ℕ) : (s.withCreated home).Python := by
  refine { h with owned := fun i sc hsc => ?_, zero := ?_ }
  · exact (h.owned i sc hsc).imp_left (Finset.mem_insert_of_mem ·)
  · intro h0
    rcases Finset.mem_insert.1 h0 with h0 | h0
    · omega
    · exact h.zero h0

theorem Running.withCreated (h : s.Running) (hp : s.Python) (hfresh : s.holders (s.made + 1) = 0)
    (home : ℕ × ℕ) : (s.withCreated home).Running := by
  have hhome : ∀ sc, 0 < s.holders sc → (s.withCreated home).home sc = s.home sc := fun sc =>
    withCreated_home home hfresh
  have hlife : ∀ sc ∈ s.lifetime, sc ∈ (s.withCreated home).lifetime := fun sc =>
    Finset.mem_insert_of_mem
  have hfits : ∀ e, 0 < s.holders e.streamCtx → s.Fits e → (s.withCreated home).Fits e := by
    intro e hpos he
    exact ⟨(hhome _ hpos).trans he.1, fun hu => hlife _ (he.2 hu)⟩
  exact
    { h with
      attached := by
        intro a streamId hu hne
        obtain ⟨hat, hlt⟩ := h.attached a streamId hu hne
        exact ⟨(hhome _ (holders_pos_of_lifetime hlt)).trans hat, hlife _ hlt⟩
      tx := fun e he ha => hfits e (holders_pos_of_tx he (ref_of_attaches ha)) (h.tx e he ha)
      deferred := fun e he => hfits e (holders_pos_of_deferred he) (h.deferred e he)
      queue := by
        intro ev hev hc
        obtain ⟨hpos, hat, hcov⟩ := h.queue ev hev hc
        exact ⟨hpos, (hhome _ (holders_pos_of_covered hcov)).trans hat, hcov.imp_left (hlife _)⟩
      homes := by
        intro i sc hsc
        rw [hhome _ (holders_pos_of_covered (hp.owned i sc hsc))]
        exact h.homes i sc hsc
      ctxHomes := by
        intro i streamId sc hsc
        rw [hhome _ (holders_pos_of_covered (hp.owned i sc (hp.ctxs i streamId sc hsc)))]
        exact h.ctxHomes i streamId sc hsc }

/-! Drains -/

/-- Entries move from the ring to the batch, or are dropped. -/
theorem Running.setQueue (h : s.Running) (events rx : List RawEvent) (batch : List ℕ)
    (hsub : (events ++ rx).Sublist (s.events ++ s.rx))
    (hret : ∀ sc, s.Retired sc → Retired { s with events := events, batch := batch } sc) :
    Running { s with events := events, rx := rx, batch := batch } :=
  { h with
    queue := by
      intro ev hev hc
      obtain ⟨hpos, hhome, hcov⟩ := h.queue ev (hsub.subset hev) hc
      exact ⟨hpos, hhome, hcov.imp_right (hret _)⟩
    closed := fun ev hev => h.closed ev (hsub.subset hev)
    destroyed := fun ev hev => h.destroyed ev (hsub.subset hev)
    order := h.order.sublist hsub }

theorem Python.setQueue (h : s.Python) (hrun : s.phase = .running) (events rx : List RawEvent)
    (batch : List ℕ)
    (hret : ∀ sc, s.Retired sc → Retired { s with events := events, batch := batch } sc) :
    Python { s with events := events, rx := rx, batch := batch } :=
  { h with
    owned := fun i sc hsc => (h.owned i sc hsc).imp_right (hret sc)
    stopped := fun hst => absurd (hrun.symm.trans hst) (by simp) }

/-- The stream of a retired context is not usable. -/
theorem Running.retired_not_usable (h : s.Running) {sc k streamId : ℕ} (hret : s.Retired sc)
    (hhome : s.home sc = (k, streamId)) : ¬ s.Usable k streamId := by
  obtain ⟨-, ev, hev, hc, hd, rfl⟩ := hret
  have hev' := List.mem_append_left s.rx hev
  have heq := (h.queue ev hev' hc).2.1
  rw [hhome, Prod.mk.injEq] at heq
  rw [heq.1, heq.2]
  exact h.destroyed ev hev' hc hd

/-- The batch takes over the stream reference of a retired context. -/
theorem Running.eraseLifetime (h : s.Running) {sc : ℕ} (hret : s.Retired sc) :
    Running { s with lifetime := s.lifetime.erase sc } := by
  have hkeep : ∀ x k streamId, s.Usable k streamId → s.home x = (k, streamId) → x ∈ s.lifetime →
      x ∈ s.lifetime.erase sc := by
    intro x k streamId hu hhome hx
    refine Finset.mem_erase.2 ⟨?_, hx⟩
    rintro rfl
    exact h.retired_not_usable hret hhome hu
  have hfits : ∀ e, s.Fits e → Fits { s with lifetime := s.lifetime.erase sc } e := by
    intro e he
    exact ⟨he.1, fun hu => hkeep _ _ _ (usable_of_usableAt hu) he.1 (he.2 hu)⟩
  exact
    { h with
      attached := by
        intro a streamId hu hne
        obtain ⟨hhome, hlife⟩ := h.attached a streamId hu hne
        exact ⟨hhome, hkeep _ _ _ (usable_of_usableAt hu) hhome hlife⟩
      tx := fun e he ha => hfits e (h.tx e he ha)
      deferred := fun e he => hfits e (h.deferred e he)
      queue := by
        intro ev hev hc
        obtain ⟨hpos, hhome, hcov⟩ := h.queue ev hev hc
        refine ⟨hpos, hhome, ?_⟩
        by_cases hsc : ev.streamCtxPtr = sc
        · exact .inr (hsc ▸ hret)
        · exact hcov.imp_left fun hl => Finset.mem_erase.2 ⟨hsc, hl⟩ }

theorem Python.eraseLifetime (h : s.Python) {sc : ℕ} (hret : s.Retired sc) :
    Python { s with lifetime := s.lifetime.erase sc } := by
  refine { h with owned := fun i x hx => ?_, zero := fun h0 => h.zero (Finset.mem_of_mem_erase h0) }
  by_cases hsc : x = sc
  · exact .inr (hsc ▸ hret)
  · exact (h.owned i x hx).imp_left fun hl => Finset.mem_erase.2 ⟨hsc, hl⟩

/-- A `STREAM_DESTROY` at the head of the ring finds the stream's reference of its context. -/
theorem Running.destroy_lifetime (h : s.Running) {ev : RawEvent} {rx : List RawEvent}
    (hrx : s.rx = ev :: rx)
    (hd : ev.evtType = .streamDestroy) (hne : ev.streamCtxPtr ≠ 0) :
    ev.streamCtxPtr ∈ s.lifetime := by
  have hmem : ev ∈ s.rx := hrx ▸ List.mem_cons_self
  have hc : ev.Carries := ⟨hne, .inr hd⟩
  rcases (h.queue ev (List.mem_append_right _ hmem) hc).2.2 with hl | ⟨-, e, he, hce, hde, heq⟩
  · exact hl
  · have hord := (List.pairwise_append.1 h.order).2.2 e he ev hmem
    exact absurd heq.symm (hord.2 hde hc)

end ScHolders

namespace ScRefs

/-- Every context counts its holders, and the facts about the places that name it hold as long as
those places are in use. -/
structure Inv (s : ScRefs) : Prop where
  balanced : Balanced word s.refs s.made s.holders
  python : s.phase ≠ .gone → s.toScHolders.Python
  running : s.phase = .running → s.toScHolders.Running

theorem Inv.fresh {s : ScRefs} (h : s.Inv) : s.holders (s.made + 1) = 0 := by
  have hb := h.balanced (s.made + 1)
  rw [if_neg (by omega)] at hb
  exact hb.1

theorem Inv.facts {s : ScRefs} (h : s.Inv) (hphase : s.phase = .running) :
    s.toScHolders.Python ∧ s.toScHolders.Running :=
  ⟨h.python (by simp [hphase]), h.running hphase⟩

/-- The invariant from its parts while the transport runs. -/
theorem Inv.of_running {s : ScRefs} (hb : Balanced word s.refs s.made s.holders)
    (hp : s.toScHolders.Python)
    (hr : s.toScHolders.Running) : s.Inv := ⟨hb, fun _ => hp, fun _ => hr⟩

theorem Inv.conserved {s : ScRefs} (h : s.Inv) : s.Conserved := by
  intro sc hle hpos
  have hb := h.balanced sc
  rw [if_pos ⟨hpos, hle⟩] at hb
  exact ⟨hb.count, hb.frees, hb.stale⟩

end ScRefs

end Aiopquic
