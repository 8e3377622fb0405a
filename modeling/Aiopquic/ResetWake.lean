import Aiopquic.HeldResets

/-!
# Local resets and the stream's parked writer

`QuicConnection.reset_stream` queues a `TX_STREAM_RESET` and wakes the worker; it leaves the
stream's drain event alone. The worker's handler, or the `after_send` pass that sends a deferred
reset, abandons what is queued: room for the writer that a pull did not make, and of which no drain
signal tells.
-/

namespace Aiopquic

/-- History: a reset of a raw stream made room in `sc->tx`. Whether the drain flag was up, the
events for the stream's writer that the same step queued, and whether a `reset_stream` set the
stream's drain event. -/
structure Freed where
  x : ℕ
  armed : Bool
  events : List Entry
  eventSet : Bool
  deriving DecidableEq, Repr

structure ResetWake where
  pool : TxPool := {}
  /-- The queued `TX_STREAM_RESET`s, each a context and its reliable size. -/
  tx : List (ℕ × ℕ) := []
  /-- The `_stream_tx_drain_events` that are set, by connection and stream. -/
  drainEvents : ℕ → ℕ → Bool := fun _ _ => false
  freed : List Freed := []
  /-- History: a `reset_stream` of the context's stream set its drain event. -/
  resetSet : ℕ → Bool := fun _ => false

namespace ResetWake

variable {s t : ResetWake} {x : ℕ}

/-- The drain event of a context's stream. -/
def drainEvent (s : ResetWake) (x : ℕ) : Bool := s.drainEvents (s.pool.ctxs x).cnx
    (s.pool.ctxs x).streamId

def setDrainEvent (s : ResetWake) (cnx streamId : ℕ) (b : Bool) : ResetWake :=
  { s with drainEvents := Function.update s.drainEvents cnx (Function.update (s.drainEvents cnx) streamId b) }

/-- `QuicConnection.reset_stream`; `room` is whether the TX ring takes the event. The event refers
to the context. -/
def resetStream (s : ResetWake) (x reliableSize : ℕ) (room : Bool) : ResetWake :=
  if reliableSize < 2 ^ 32 ∧
    room then { s with pool := s.pool.ref x, tx := s.tx ++ [(x, reliableSize)] } else s

/-- `send_stream_data_drained` at one attempt: the drain event is cleared before it. -/
def attempt (s : ResetWake) (x : ℕ) (data : List UInt8) (capacity : UInt32) (setFin hash : Bool) :
    ResetWake :=
  { s.setDrainEvent (s.pool.ctxs x).cnx (s.pool.ctxs x).streamId false with
    pool := s.pool.send x data capacity setFin hash }

/-- `QuicConnection` at the next event of the RX ring, which sets the drain event of its stream. -/
def route (s : ResetWake) : ResetWake :=
  match s.pool.rx with
  | [] => s
  | e :: rest =>
    let s : ResetWake := { s with pool := { s.pool with rx := rest } }
    if e.eventType = .streamTxDrained ∨ e.eventType = .streamDestroy then s.setDrainEvent e.cnx
      e.streamId true
    else s

/-- An event that wakes the writer of a context's stream. -/
def Wakes (c : TxCtx) (e : Entry) : Prop :=
  e.cnx = c.cnx ∧ e.streamId = c.streamId ∧
    (e.eventType = .streamTxDrained ∨ e.eventType = .streamDestroy)

instance (c : TxCtx) (e : Entry) : Decidable (Wakes c e) := inferInstanceAs (Decidable (_ ∧ _ ∧ _))

/-- The worker is done with a reset of `x`, which left the pool at `pool`. -/
def record (s : ResetWake) (x : ℕ) (pool : TxPool) : ResetWake :=
  let c := s.pool.ctxs x
  { s with
    pool := pool
    freed := s.freed ++
      if c.sc.txBuf.head < (pool.ctxs x).sc.txBuf.head then
        [⟨x, c.sc.txDrainPending, (pool.rx.drop s.pool.rx.length).filter fun e =>
          decide (Wakes c e), s.resetSet x⟩]
      else [] }

/-- The worker at the next `TX_STREAM_RESET`. An event of a connection that is gone is only
released. -/
def popReset (s : ResetWake) (v : ResetView) : ResetWake :=
  match s.tx with
  | [] => s
  | (x, reliableSize) :: rest =>
    let s : ResetWake := { s with tx := rest }
    let t := if s.pool.deleted (s.pool.ctxs x).cnx then s
      else s.record x (s.pool.streamReset x reliableSize v)
    { t with pool := t.pool.destroy x }

inductive Act
  | pool (act : TxPool.Act)
  | resetStream (x reliableSize : ℕ) (room : Bool)
  | attempt (x : ℕ) (data : List UInt8) (capacity : UInt32) (setFin hash : Bool)
  | popReset (v : ResetView)
  | route
  | setDrainEvents (cnx : ℕ)

/-- A raw stream's resets come off the ring, all else of the pool is as it was. `setDrainEvents` is
the end of a connection, which sets every event of it. -/
def step (s : ResetWake) : Act → Option ResetWake
  | .pool (.streamReset _ _ _) => none
  | .pool (.afterSend k sweep v) => (s.pool.deferred[k]?).map fun d =>
    if d.isWt then { s with pool := s.pool.runDeferred sweep d v } else s.record d.sc
      (s.pool.runDeferred sweep d v)
  | .pool act => (s.pool.step act).map fun pool => { s with pool := pool }
  | .resetStream x reliableSize room =>
    if x ∈ s.pool.live ∧ (s.pool.ctxs x).isWt = false then
      let t := s.resetStream x reliableSize room
      some { t with resetSet := Function.update s.resetSet x (s.resetSet x || (!s.drainEvent x && t.drainEvent x)) }
    else none
  | .attempt x data capacity setFin hash =>
    if x ∈ s.pool.live ∧ (s.pool.ctxs x).isWt = false
      then some (s.attempt x data capacity setFin hash) else none
  | .popReset v => some (s.popReset v)
  | .route => some s.route
  | .setDrainEvents cnx =>
      some { s with drainEvents := Function.update s.drainEvents cnx fun _ => true }

/-- Whenever a reset makes room while the drain flag is up, the writer is woken as part of it. -/
def WakesWriter (s : ResetWake) : Prop := ∀ f ∈ s.freed, f.armed = true → f.events ≠ [] ∨
    f.eventSet = true

/-! ## When a reset makes room -/

end ResetWake

namespace TxPool

variable {s : TxPool} {x : ℕ}

/-- A `TX_STREAM_RESET` that comes up for `x` is sent at once, the context is put back, and bytes
are queued. -/
def Frees (s : TxPool) (x requested : ℕ) (v : ResetView) : Prop :=
  let c := s.ctxs x
  let reliable := resetReliableSize v c.sc requested
  c.sc.txResetPending = false ∧ v.canSend = true ∧
    ¬ (0 < reliable ∧ c.sc.txBuf.head < reliable ∧ v.allocates = true) ∧
    s.Reattaches x (resetStreamReliable v reliable).2 ∧ c.sc.txBuf.head < c.sc.txBuf.tail

instance (s : TxPool) (x requested : ℕ) (v : ResetView) : Decidable (s.Frees x requested v) :=
  inferInstanceAs (Decidable (_ ∧ _ ∧ _ ∧ _ ∧ _))

/-- The reset of an entry is sent, its context is put back, and bytes are queued. -/
def FreesDeferred (s : TxPool) (d : Deferred) (v : ResetView) : Prop :=
  s.Ready d ∧ s.deleted d.cnx = false ∧ s.closing d.cnx = false ∧
    s.Reattaches d.sc (resetStreamReliable v (s.ctxs d.sc).sc.txReliableSize).2 ∧
    (s.ctxs d.sc).sc.txBuf.head < (s.ctxs d.sc).sc.txBuf.tail

instance (s : TxPool) (d : Deferred) (v : ResetView) : Decidable (s.FreesDeferred d v) :=
  inferInstanceAs (Decidable (_ ∧ _ ∧ _ ∧ _ ∧ _))

theorem abandon_head : (s.ctxs x).sc.txBuf.head < ((s.abandon x).ctxs x).sc.txBuf.head ↔
    (s.ctxs x).sc.txBuf.head < (s.ctxs x).sc.txBuf.tail := by
  rw [abandon]
  dsimp only
  split
  · rename_i h
    have hself : (s.modifySc x fun sc => { sc with tx := some (s.ctxs x).sc.txBuf.skip }).ctxs x =
        { s.ctxs x with sc := { (s.ctxs x).sc with tx := some (s.ctxs x).sc.txBuf.skip } } :=
          modifyCtx_self
    rw [hself]
    exact Iff.rfl
  · rename_i h
    refine iff_of_false (lt_irrefl _) fun hlt => ?_
    by_cases hsome : (s.ctxs x).sc.tx.isSome = true
    · exact h ⟨hsome, hlt⟩
    · have hnone : (s.ctxs x).sc.tx = none := by simpa using hsome
      rw [StreamCtx.txBuf, hnone] at hlt
      exact absurd hlt (lt_irrefl 0)

theorem tell_sc {calls : List (ResetCall × ResetRc)} :
    ((s.tell x calls).ctxs x).sc = (s.ctxs x).sc :=
  modifyCtx_keeps (g := TxCtx.sc) rfl x

theorem sendReset_head {v : ResetView} {reliable : ℕ} :
    (s.ctxs x).sc.txBuf.head < ((s.sendReset x v reliable).ctxs x).sc.txBuf.head ↔
      s.Reattaches x (resetStreamReliable v reliable).2 ∧
        (s.ctxs x).sc.txBuf.head < (s.ctxs x).sc.txBuf.tail := by
  rw [sendReset]
  split
  · rename_i hreattach
    have habandon := abandon_head (s := s.tell x (resetStreamReliable v reliable).1) (x := x)
    rw [tell_sc] at habandon
    rw [habandon, and_iff_right hreattach]
  · rename_i hreattach
    rw [tell_sc]
    exact iff_of_false (lt_irrefl _) fun h => hreattach h.1

theorem deferReset_head {reliable preamble : ℕ} :
    ((s.deferReset x reliable preamble).ctxs x).sc.txBuf.head = (s.ctxs x).sc.txBuf.head := by
  have hself : (s.ref x).ctxs x = { s.ctxs x with refcount := (s.ctxs x).refcount + 1 } :=
    modifyCtx_self
  rw [deferReset]
  dsimp only
  rw [modifyCtx_self, hself]
  rfl

theorem streamReset_head {requested : ℕ} {v : ResetView} :
    (s.ctxs x).sc.txBuf.head < ((s.streamReset x requested v).ctxs x).sc.txBuf.head ↔
    s.Frees x requested v := by
  rw [streamReset, Frees]
  split
  · rename_i hpend
    exact iff_of_false (lt_irrefl _) fun h => absurd (h.1.symm.trans hpend) (by simp)
  rename_i hpend
  have hpend : (s.ctxs x).sc.txResetPending = false := by simpa using hpend
  split
  · rename_i hcan
    exact iff_of_false (lt_irrefl _) fun h => absurd (h.2.1.symm.trans hcan) (by simp)
  rename_i hcan
  have hcan : v.canSend = true := by simpa using hcan
  split
  · rename_i hdefer
    rw [deferReset_head]
    exact iff_of_false (lt_irrefl _) fun h => h.2.2.1 hdefer
  · rename_i hdefer
    rw [sendReset_head, and_iff_right hpend, and_iff_right hcan, and_iff_right hdefer]

/-- What the end of an entry does to its ring and to the events: nothing. -/
theorem deferredResetFree_head {t : TxPool} {d : Deferred} :
    ((t.deferredResetFree d).ctxs d.sc).sc.txBuf.head = (t.ctxs d.sc).sc.txBuf.head := by
  rw [deferredResetFree_ctx]
  rfl

theorem record_head {t : TxPool} {d : Deferred} :
    ((s.record t d).ctxs d.sc).sc.txBuf.head = (t.ctxs d.sc).sc.txBuf.head := by
  rw [record, modifyCtx_self]

theorem sendDeferred_head {d : Deferred} (hraw : d.isWt = false) {v : ResetView} :
    (s.ctxs d.sc).sc.txBuf.head < ((s.sendDeferred d v).ctxs d.sc).sc.txBuf.head ↔
      s.deleted d.cnx = false ∧ s.closing d.cnx = false ∧
        s.Reattaches d.sc (resetStreamReliable v (s.ctxs d.sc).sc.txReliableSize).2 ∧
        (s.ctxs d.sc).sc.txBuf.head < (s.ctxs d.sc).sc.txBuf.tail := by
  have hflag : (s.modifySc d.sc fun sc => { sc with txResetPending := false }).ctxs d.sc =
    { s.ctxs d.sc with sc := { (s.ctxs d.sc).sc with txResetPending := false } } := modifyCtx_self
  rw [sendDeferred]
  split
  · rename_i hopen
    dsimp only
    rw [if_neg (by simp [hraw]), hflag]
    have hsend := @sendReset_head (s.modifySc d.sc fun sc => { sc with txResetPending := false })
      d.sc v
      (s.ctxs d.sc).sc.txReliableSize
    rw [hflag] at hsend
    have hreattach : (s.modifySc d.sc fun sc => { sc with txResetPending := false }).Reattaches d.sc
        (resetStreamReliable v (s.ctxs d.sc).sc.txReliableSize).2 ↔
        s.Reattaches d.sc (resetStreamReliable v (s.ctxs d.sc).sc.txReliableSize).2 := by
      rw [Reattaches, Reattaches, hflag]
      exact Iff.rfl
    rw [hreattach] at hsend
    exact hsend.trans ⟨fun h => ⟨hopen.1, hopen.2, h⟩, fun h => h.2.2⟩
  · rename_i hgone
    exact iff_of_false (lt_irrefl _) fun h => hgone ⟨h.1, h.2.1⟩

theorem runDeferred_head {d : Deferred} (hraw : d.isWt = false) {sweep : Bool} {v : ResetView} :
    (s.ctxs d.sc).sc.txBuf.head < ((s.runDeferred sweep d v).ctxs d.sc).sc.txBuf.head ↔
    s.FreesDeferred d v := by
  rw [runDeferred, FreesDeferred]
  split
  · rename_i hwait
    exact iff_of_false (lt_irrefl _) fun h => hwait.1 h.1
  split
  · rename_i hwait
    exact iff_of_false (lt_irrefl _) fun h => hwait.2 h.1
  rename_i hgone
  have hsend := sendDeferred_head (s := { s with deferred := s.deferred.erase d }) hraw (v := v)
  dsimp only at hsend ⊢
  rw [deferredResetFree_head]
  split
  · rename_i hready
    rw [record_head, hsend, and_iff_right hready]
    exact Iff.rfl
  · rename_i hready
    -- an entry that waits goes only with its connection, and no reset is sent
    rw [hsend]
    exact iff_of_false (fun h => hgone ⟨h.1, hready⟩) fun h => hready h.1

/-! ## A reset queues no event -/

theorem abandon_rx : (s.abandon x).rx = s.rx := by
  rw [abandon]
  dsimp only
  split <;> rfl

theorem destroy_rx : (s.destroy x).rx = s.rx := by
  rw [destroy]
  split <;> rfl

theorem sendReset_rx {v : ResetView} {reliable : ℕ} : (s.sendReset x v reliable).rx = s.rx := by
  rw [sendReset]
  split
  · exact abandon_rx
  · rfl

theorem streamReset_rx {requested : ℕ} {v : ResetView} :
    (s.streamReset x requested v).rx = s.rx := by
  rw [streamReset]
  split
  · rfl
  split
  · rfl
  split
  · rfl
  · exact sendReset_rx

theorem runDeferred_rx {d : Deferred} (hraw : d.isWt = false) {sweep : Bool} {v : ResetView} :
    (s.runDeferred sweep d v).rx = s.rx := by
  have hsend : ∀ u : TxPool, (u.sendDeferred d v).rx = u.rx := by
    intro u
    rw [sendDeferred]
    split
    · dsimp only
      rw [if_neg (by simp [hraw])]
      exact sendReset_rx
    · rfl
  rw [runDeferred]
  split
  · rfl
  split
  · rfl
  rw [deferredResetFree, destroy_rx]
  split
  · exact hsend _
  · exact hsend _

end TxPool

namespace ResetWake

variable {s t : ResetWake} {x : ℕ}

/-! ## Runs -/

/-- The drain flag is down when a reset is about to make room. -/
def Ok (s : ResetWake) : Act → Prop
  | .popReset v => ∀ r ∈ s.tx.head?, s.pool.deleted (s.pool.ctxs r.1).cnx = false →
    s.pool.Frees r.1 r.2 v →
      (s.pool.ctxs r.1).sc.txDrainPending = false
  | .pool (.afterSend k _ v) => ∀ d ∈ s.pool.deferred[k]?, d.isWt = false →
    s.pool.FreesDeferred d v →
      (s.pool.ctxs d.sc).sc.txDrainPending = false
  | _ => True

instance (s : ResetWake) : ∀ act, Decidable (s.Ok act)
  | .popReset v => inferInstanceAs (Decidable (∀ r ∈ s.tx.head?, _ → s.pool.Frees r.1 r.2 v → _))
  | .pool (.afterSend k _ v) =>
    inferInstanceAs (Decidable (∀ d ∈ s.pool.deferred[k]?, _ → s.pool.FreesDeferred d v → _))
  | .pool (.create _ _ _ _) | .pool (.ref _) | .pool (.destroy _) | .pool (.send _ _ _ _ _) |
      .pool (.arm _)
  | .pool (.pull _ _ _ _) | .pool (.streamReset _ _ _) | .pool (.wtResetStream _ _ _) | .pool
      (.sessionCleanup _ _)
  | .pool (.deregister _) | .pool (.free _) | .pool (.disconnect _) | .pool (.close _) | .pool
      (.delete _)
  | .resetStream _ _ _ | .attempt _ _ _ _ _ | .route | .setDrainEvents _ =>
      inferInstanceAs (Decidable True)

/-- What a record keeps: the writer is woken at each entry of it, and no `reset_stream` has set a
drain event. -/
def Clean (s : ResetWake) : Prop := s.WakesWriter ∧ ∀ x, s.resetSet x = false

/-- A reset that queues no event is as it should be exactly if it makes room only while the flag is
down. -/
theorem record_clean {pool : TxPool} (hrx : pool.rx = s.pool.rx) {Frees : Prop}
    (hfrees : (s.pool.ctxs x).sc.txBuf.head < (pool.ctxs x).sc.txBuf.head ↔ Frees) :
    (s.record x pool).Clean ↔ s.Clean ∧ (Frees → (s.pool.ctxs x).sc.txDrainPending = false) := by
  have hset : (s.record x pool).resetSet = s.resetSet := rfl
  rw [Clean, Clean, hset, and_assoc, and_comm (a := ∀ y, s.resetSet y = false), ← and_assoc]
  refine and_congr_left fun hnone => ?_
  have hfreed : (s.record x pool).freed = s.freed ++
      if (s.pool.ctxs x).sc.txBuf.head < (pool.ctxs x).sc.txBuf.head then
        [⟨x, (s.pool.ctxs x).sc.txDrainPending, [], false⟩] else [] := by
    rw [record]
    dsimp only
    rw [hrx, List.drop_length, hnone x]
    rfl
  rw [WakesWriter, WakesWriter, hfreed]
  simp only [List.mem_append, or_imp, forall_and]
  refine and_congr_right fun _ => ?_
  by_cases hlt : (s.pool.ctxs x).sc.txBuf.head < (pool.ctxs x).sc.txBuf.head
  · rw [if_pos hlt]
    simp [hfrees.1 hlt]
  · have hnot : ¬ Frees := fun h => hlt (hfrees.2 h)
    rw [if_neg hlt]
    simp [hnot]

theorem resetStream_drainEvent {reliableSize : ℕ} {room : Bool} :
    (s.resetStream x reliableSize room).drainEvent x = s.drainEvent x := by
  rw [resetStream]
  split
  · have hcnx : ((s.pool.ref x).ctxs x).cnx = (s.pool.ctxs x).cnx :=
      TxPool.modifyCtx_keeps (g := TxCtx.cnx) rfl x
    have hid : ((s.pool.ref x).ctxs x).streamId = (s.pool.ctxs x).streamId :=
      TxPool.modifyCtx_keeps (g := TxCtx.streamId) rfl x
    rw [drainEvent, drainEvent, hcnx, hid]
  · rfl

theorem clean_of_same (hfreed : t.freed = s.freed) (hset : t.resetSet = s.resetSet) :
    t.Clean ↔ s.Clean := by
  rw [Clean, Clean, WakesWriter, WakesWriter, hfreed, hset]

/-- The step makes no room by a reset. -/
theorem clean_of_ok {act : Act} (hok : s.Ok act) (h : t.Clean ↔ s.Clean) :
    t.Clean ↔ s.Clean ∧ s.Ok act :=
  h.trans (and_iff_left hok).symm

theorem step_resetSet {act : Act} (hs : s.step act = some t) : t.resetSet = s.resetSet := by
  cases act with
  | popReset v =>
    cases hs
    rw [popReset]
    cases s.tx with
    | nil => rfl
    | cons r rest =>
      dsimp only
      split <;> rfl
  | route =>
    cases hs
    rw [route]
    cases s.pool.rx with
    | nil => rfl
    | cons e rest =>
      dsimp only
      split <;> rfl
  | setDrainEvents cnx =>
    cases hs
    rfl
  | attempt x data capacity setFin hash =>
    simp only [step, Option.ite_none_right_eq_some, Option.some.injEq] at hs
    obtain ⟨-, rfl⟩ := hs
    rfl
  | resetStream x reliableSize room =>
    simp only [step, Option.ite_none_right_eq_some, Option.some.injEq] at hs
    obtain ⟨-, rfl⟩ := hs
    dsimp only
    rw [resetStream_drainEvent]
    simp
  | pool act =>
    cases act with
    | streamReset x requested v => exact absurd hs (by simp [step])
    | afterSend k sweep v =>
      simp only [step, Option.map_eq_some_iff] at hs
      obtain ⟨d, -, rfl⟩ := hs
      split <;> rfl
    | _ =>
      simp only [step, Option.map_eq_some_iff] at hs
      obtain ⟨pool, -, rfl⟩ := hs
      rfl

theorem popReset_clean {v : ResetView} : (s.popReset v).Clean ↔ s.Clean ∧ s.Ok (.popReset v) := by
  rw [popReset, Ok]
  cases htx : s.tx with
  | nil => simp
  | cons r rest =>
    simp only [List.head?_cons, Option.mem_def, Option.some.injEq, forall_eq']
    split
    · rename_i hdeleted
      refine (clean_of_same (s := s) rfl rfl).trans ?_
      simp [hdeleted]
    · rename_i hdeleted
      have hrecord := @record_clean { s with tx := rest } r.1 (s.pool.streamReset r.1 r.2 v)
        TxPool.streamReset_rx _ TxPool.streamReset_head
      have hsame : Clean { s with tx := rest } ↔ s.Clean := clean_of_same rfl rfl
      refine (clean_of_same (s := record { s with tx := rest } r.1 (s.pool.streamReset r.1 r.2 v))
        rfl rfl).trans ?_
      rw [hrecord, hsame]
      simp [hdeleted]

theorem step_clean {act : Act} (hs : s.step act = some t) : t.Clean ↔ s.Clean ∧ s.Ok act := by
  have hstep := hs
  cases act with
  | popReset v =>
    cases hs
    exact popReset_clean
  | route =>
    cases hs
    refine clean_of_ok trivial ?_
    cases hrx : s.pool.rx with
    | nil => simp [route, hrx]
    | cons e rest =>
      rw [route, hrx]
      dsimp only
      split <;> exact clean_of_same rfl rfl
  | setDrainEvents cnx =>
    cases hs
    refine clean_of_ok trivial ?_
    exact clean_of_same rfl rfl
  | attempt x data capacity setFin hash =>
    simp only [step, Option.ite_none_right_eq_some, Option.some.injEq] at hs
    obtain ⟨-, rfl⟩ := hs
    refine clean_of_ok trivial ?_
    exact clean_of_same rfl rfl
  | resetStream x reliableSize room =>
    simp only [step, Option.ite_none_right_eq_some, Option.some.injEq] at hs
    obtain ⟨-, rfl⟩ := hs
    refine clean_of_ok trivial ?_
    refine clean_of_same ?_ ?_
    · show (s.resetStream x reliableSize room).freed = s.freed
      rw [resetStream]
      split <;> rfl
    · exact step_resetSet hstep
  | pool act =>
    cases act with
    | streamReset x requested v => exact absurd hs (by simp [step])
    | afterSend k sweep v =>
      simp only [step, Option.map_eq_some_iff] at hs
      obtain ⟨d, hd, rfl⟩ := hs
      simp only [Ok, hd, Option.mem_def, Option.some.injEq, forall_eq']
      split
      · rename_i hwt
        refine (clean_of_same (s := s) rfl rfl).trans ?_
        simp [hwt]
      · rename_i hraw
        have hraw : d.isWt = false := by simpa using hraw
        rw [record_clean (TxPool.runDeferred_rx hraw) (TxPool.runDeferred_head hraw)]
        simp [hraw]
    | _ =>
      simp only [step, Option.map_eq_some_iff] at hs
      obtain ⟨pool, -, rfl⟩ := hs
      refine clean_of_ok trivial ?_
      exact clean_of_same rfl rfl

/-- In every run, a reset that makes room for an armed writer wakes it exactly if no reset makes
room for one. -/
theorem reset_wakes_writer {acts : List Act} (hrun : Steps.run step {} acts = some s) :
    s.WakesWriter ↔ Steps.Along step Ok {} acts := by
  have hclean := Steps.record_iff (I := Clean) (fun _ _ _ => step_clean) hrun
  have hinit : Clean {} := ⟨fun _ hf => absurd hf List.not_mem_nil, fun _ => rfl⟩
  have hnone : ∀ x, s.resetSet x = false :=
    Steps.preserved (I := fun s => ∀ x, s.resetSet x = false)
      (fun _ _ _ hs hstep x => (congrFun (step_resetSet hstep) x).trans (hs x)) (fun _ => rfl) hrun
  rw [and_iff_right hinit, Clean, and_iff_left hnone] at hclean
  exact hclean

/-- A stream's ring is filled, and the stream is reset; with `parked` a writer waits for room by
then. -/
def fullActs (parked : Bool) : List Act :=
  [.pool (.create 16 4 false 0), .attempt 0 [1, 2, 3, 4] 4 false false] ++
    (if parked then [.attempt 0 [5] 4 false false] else []) ++ [.resetStream 0 0 true, .popReset {}]

theorem reset_wakes_writer_idle : ∃ s, Steps.run step {} (fullActs false) = some s ∧
    s.freed = [⟨0, false, [], false⟩] ∧ s.WakesWriter := by
  refine ⟨_, rfl, by decide +kernel, ?_⟩
  exact (reset_wakes_writer (rfl : Steps.run step {} (fullActs false) = some _)).2
    (by decide +kernel)

/-- The reset makes room for the writer that waits, and nothing tells it. -/
theorem reset_wakes_writer_parked : ∃ s, Steps.run step {} (fullActs true) = some s ∧
    s.freed = [⟨0, true, [], false⟩] ∧ s.pool.rx = [] ∧ s.drainEvent 0 = false ∧
    ¬ s.WakesWriter := by
  refine ⟨_, rfl, by decide +kernel, by decide +kernel, by decide +kernel, fun h => ?_⟩
  have := h ⟨0, true, [], false⟩ (by decide +kernel) rfl
  exact absurd this (by simp)

end ResetWake

end Aiopquic
