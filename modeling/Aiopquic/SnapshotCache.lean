import Aiopquic.Drains

/-!
# The cache of connection snapshots (`_transport.pyx`)

`SnapCache` is what the drains keep of the snapshots: the cached ones, the drops put off until the
next drain cycle, and the connections for which a refresh is posted. Both drains treat an entry of
the RX ring in the same way as far as the cache is concerned (`drainRxEntry_cache`,
`drainRxCallbackEntry_cache`).
-/

namespace Aiopquic

open Interleave Circular Traced

/-- `size` is `sizeof(aiopquic_cnx_snapshot_t)`, and `objects` counts the `bytes` objects made. -/
structure SnapCache where
  size : ℕ
  snapshots : ℕ → Option Snapshot := fun _ => none
  drops : List (ℕ × Snapshot) := []
  posted : List ℕ := []
  objects : ℕ := 0

namespace SnapCache

variable (c : SnapCache)

/-- `_store_snapshot`. -/
def store (cnx : ℕ) (buf : List UInt8) (length : ℕ) : SnapCache :=
  if length = c.size then
    { c with
      snapshots := Function.update c.snapshots cnx (some ⟨c.objects, buf⟩)
      objects := c.objects + 1 }
  else c

/-- `_forget_snapshot`. -/
def forget (cnx : ℕ) : SnapCache :=
  match c.snapshots cnx with
  | some snap => { c with drops := c.drops ++ [(cnx, snap)] }
  | none => c

/-- One deferred drop. -/
def drop (d : ℕ × Snapshot) : SnapCache :=
  if (c.snapshots d.1).map (·.object) = some d.2.object then
    { c with snapshots := Function.update c.snapshots d.1 none }
  else c

/-- `_begin_drain_cycle`. -/
def beginCycle : SnapCache := { c.drops.foldl drop { c with posted := [] } with drops := [] }

/-- The payload of a snapshot-bearing entry goes into the cache. -/
def fill (e : Entry) : SnapCache :=
  if 0 < e.dataLength ∧ e.dataBuf ≠ .null then c.store e.cnx e.payload e.dataLength else c

/-- What a drain does with the cache for an entry. -/
def entry (e : Entry) : SnapCache :=
  if e.eventType = .cnxSnapshot then c.fill e
  else
    let c := if DrainCtx.CarriesSnapshot e.eventType then c.fill e else c
    if DrainCtx.Ends e.eventType then c.forget e.cnx else c

/-- The entry brings a snapshot of the size `n`. -/
def Bears (n : ℕ) (e : Entry) : Prop :=
  (e.eventType = .cnxSnapshot ∨ DrainCtx.CarriesSnapshot e.eventType) ∧
    (0 < e.dataLength ∧ e.dataBuf ≠ .null) ∧ e.dataLength = n

instance (n : ℕ) (e : Entry) : Decidable (Bears n e) := inferInstanceAs (Decidable (_ ∧ _))

variable {c : SnapCache} {e : Entry}

theorem fill_of_bears (h : Bears c.size e) : c.fill e =
    { c with
      snapshots := Function.update c.snapshots e.cnx (some ⟨c.objects, e.payload⟩)
      objects := c.objects + 1 } := by
  rw [fill, if_pos h.2.1, store, if_pos h.2.2]

theorem fill_of_not_bears
    (htype : e.eventType = .cnxSnapshot ∨ DrainCtx.CarriesSnapshot e.eventType)
    (h : ¬ Bears c.size e) : c.fill e = c := by
  unfold fill
  split
  · have hlen : ¬ e.dataLength = c.size := fun hlen => h ⟨htype, ‹_›, hlen⟩
    exact if_neg hlen
  · rfl

/-- No entry both brings a snapshot and ends its connection. -/
theorem not_ends_of_bears {n : ℕ} (h : Bears n e) : ¬ DrainCtx.Ends e.eventType := by
  obtain ⟨h | h | h | h | h, -⟩ := h
  all_goals simp [DrainCtx.Ends, h]

theorem entry_of_bears (h : Bears c.size e) : c.entry e =
    { c with
      snapshots := Function.update c.snapshots e.cnx (some ⟨c.objects, e.payload⟩)
      objects := c.objects + 1 } := by
  unfold entry
  split
  · exact fill_of_bears h
  · have hcarries := h.1.resolve_left ‹_›
    rw [if_pos hcarries, if_neg (not_ends_of_bears h)]
    exact fill_of_bears h

theorem entry_of_not_bears (h : ¬ Bears c.size e) :
    c.entry e = if DrainCtx.Ends e.eventType then c.forget e.cnx else c := by
  unfold entry
  split
  · have hends : ¬ DrainCtx.Ends e.eventType := by simp [DrainCtx.Ends, *]
    rw [if_neg hends, fill_of_not_bears (.inl ‹_›) h]
  · have hfill : (if DrainCtx.CarriesSnapshot e.eventType then c.fill e else c) = c := by
      split
      · exact fill_of_not_bears (.inr ‹_›) h
      · rfl
    rw [hfill]

theorem entry_size : (c.entry e).size = c.size := by
  by_cases h : Bears c.size e
  · rw [entry_of_bears h]
  · rw [entry_of_not_bears h]
    unfold forget
    split
    · split <;> rfl
    · rfl

theorem forget_snapshots (cnx : ℕ) : (c.forget cnx).snapshots = c.snapshots := by
  unfold forget
  split <;> rfl

/-- A drop that finds its own snapshot takes it out. -/
def Drops (c : SnapCache) (drops : List (ℕ × Snapshot)) (a : ℕ) : Prop :=
  ∃ d ∈ drops, d.1 = a ∧ (c.snapshots a).map (·.object) = some d.2.object

instance (c : SnapCache) (drops : List (ℕ × Snapshot)) (a : ℕ) : Decidable (c.Drops drops a) :=
  inferInstanceAs (Decidable (∃ _ ∈ _, _))

theorem drop_snapshots (d : ℕ × Snapshot) (a : ℕ) : (c.drop d).snapshots a =
    if d.1 = a ∧ (c.snapshots a).map (·.object) = some d.2.object then none else c.snapshots a := by
  unfold drop
  by_cases ha : d.1 = a
  · subst ha
    split
    · simp [*]
    · simp [*]
  · split
    · simp [Function.update_of_ne (Ne.symm ha), ha]
    · simp [ha]

theorem foldl_drop_snapshots (drops : List (ℕ × Snapshot)) (a : ℕ) :
    (drops.foldl drop c).snapshots a = if c.Drops drops a then none else c.snapshots a := by
  induction drops generalizing c with
  | nil => simp [Drops]
  | cons d drops ih =>
    rw [List.foldl_cons, ih]
    have hdrop := drop_snapshots (c := c) d a
    by_cases hd : d.1 = a ∧ (c.snapshots a).map (·.object) = some d.2.object
    · have hall : c.Drops (d :: drops) a := ⟨d, List.mem_cons_self, hd⟩
      rw [hdrop, if_pos hd, if_pos hall, ite_self]
    · rw [if_neg hd] at hdrop
      have hall : c.Drops (d :: drops) a ↔ (c.drop d).Drops drops a := by
        simp only [Drops, hdrop, List.mem_cons, exists_eq_or_imp]
        exact or_iff_right hd
      rw [hdrop]
      simp only [hall]

theorem foldl_drop_objects (drops : List (ℕ × Snapshot)) :
    (drops.foldl drop c).objects = c.objects := by
  induction drops generalizing c with
  | nil => rfl
  | cons d drops ih =>
    rw [List.foldl_cons, ih]
    unfold drop
    split <;> rfl

theorem foldl_drop_size (drops : List (ℕ × Snapshot)) : (drops.foldl drop c).size = c.size := by
  induction drops generalizing c with
  | nil => rfl
  | cons d drops ih =>
    rw [List.foldl_cons, ih]
    unfold drop
    split <;> rfl

@[simp] theorem beginCycle_drops : c.beginCycle.drops = [] := rfl

@[simp] theorem beginCycle_objects : c.beginCycle.objects = c.objects := foldl_drop_objects c.drops

@[simp] theorem beginCycle_size : c.beginCycle.size = c.size := foldl_drop_size c.drops

theorem beginCycle_snapshots (a : ℕ) :
    c.beginCycle.snapshots a = if c.Drops c.drops a then none else c.snapshots a :=
    foldl_drop_snapshots c.drops a

end SnapCache

namespace DrainCtx

/-- The cache of a context. -/
def cache (s : DrainCtx) : SnapCache :=
  { size := s.snapshotSize
    snapshots := s.cnxSnapshots
    drops := s.snapshotDrops
    posted := s.refreshPosted
    objects := s.objects }

theorem storeSnapshot_cache (cnx : ℕ) (buf : List UInt8) (length : ℕ) (s : DrainCtx) :
    (storeSnapshot cnx buf length s).cache = s.cache.store cnx buf length := by
  unfold storeSnapshot SnapCache.store
  by_cases h : length = s.snapshotSize
  · rw [if_pos h, if_pos (show length = s.cache.size from h)]
    rfl
  · rw [if_neg h, if_neg (show ¬ length = s.cache.size from h)]

theorem forgetSnapshot_cache (cnx : ℕ) (s : DrainCtx) :
    (forgetSnapshot cnx s).cache = s.cache.forget cnx := by
  unfold forgetSnapshot SnapCache.forget
  have hsame : s.cache.snapshots cnx = s.cnxSnapshots cnx := rfl
  rw [hsame]
  cases s.cnxSnapshots cnx with
  | none => rfl
  | some snap => rfl

theorem dropSnapshot_cache (s : DrainCtx) (d : ℕ × Snapshot) :
    (s.dropSnapshot d).cache = s.cache.drop d := by
  unfold dropSnapshot SnapCache.drop
  have hsame : s.cache.snapshots = s.cnxSnapshots := rfl
  rw [hsame]
  split
  · rfl
  · rfl

/-! ### The start of a drain -/

theorem dgramRingReleasePost_cache (s : DrainCtx) (cnx db : ℕ) :
    (s.dgramRingReleasePost cnx db).2.cache = s.cache := by
  unfold dgramRingReleasePost wakeWorker txPush
  dsimp only
  split
  · split <;> rfl
  · rfl

theorem postReleases_cache (s : DrainCtx) (owed : List (ℕ × ℕ)) :
    (s.postReleases owed).2.cache = s.cache := by
  induction owed generalizing s with
  | nil => rfl
  | cons o owed ih =>
    unfold postReleases
    dsimp only
    split
    · rw [ih, dgramRingReleasePost_cache]
    · exact dgramRingReleasePost_cache s o.1 o.2

theorem flushReleases_cache (fuel : ℕ) (s : DrainCtx) : (flushReleases fuel s).cache = s.cache := by
  induction fuel generalizing s with
  | zero => rfl
  | succ fuel ih =>
    have hposted := s.postReleases_cache s.dgramReleaseOwed
    unfold flushReleases
    dsimp only
    split
    · exact hposted
    · split
      · exact hposted
      · rw [ih]
        exact hposted

theorem foldl_dropSnapshot_cache (drops : List (ℕ × Snapshot)) (s : DrainCtx) :
    (drops.foldl dropSnapshot s).cache = drops.foldl SnapCache.drop s.cache := by
  induction drops generalizing s with
  | nil => rfl
  | cons d drops ih =>
    rw [List.foldl_cons, List.foldl_cons, ih, dropSnapshot_cache]

theorem beginDrainCycle_cache (s : DrainCtx) : s.beginDrainCycle.cache = s.cache.beginCycle := by
  have hflush : (if s.dgramReleaseOwed = [] then s else s.dgramRingReleaseFlush).cache =
    s.cache := by
    unfold dgramRingReleaseFlush
    split
    · rfl
    · split
      · exact flushReleases_cache _ s
      · rfl
  unfold beginDrainCycle SnapCache.beginCycle
  dsimp only
  generalize (if s.dgramReleaseOwed = [] then s else s.dgramRingReleaseFlush) = t at hflush
  have hdrops : t.snapshotDrops = s.cache.drops := congrArg SnapCache.drops hflush
  have hfold := foldl_dropSnapshot_cache t.snapshotDrops { t with refreshPosted := [] }
  have hstart : ({ t with refreshPosted := [] } : DrainCtx).cache =
    { s.cache with posted := [] } := by
    rw [← hflush]
    rfl
  rw [hstart, hdrops] at hfold
  rw [← hfold, ← hdrops]
  rfl

/-! ### One entry -/

/-- A program leaves the cache alone. -/
abbrev Spares {α : Type} (x : Drain α) : Prop := Acts cache id x

theorem onRx_spares {α : Type} (p : Prog RxQueue α) : Spares (onRx p) := Acts.compute fun _ => rfl

theorem takeData_spares (e : Entry) : Spares (takeData e) := by
  unfold takeData
  apply Acts.after
  · split
    · exact Acts.emit _
    · exact Acts.pure _
  · intro _
    exact (onRx_spares _).after fun _ => Acts.pure _

theorem pendingFcAdd_spares (sc cnx streamId : ℕ) : Spares (pendingFcAdd sc cnx streamId) :=
  Acts.get.after fun _ => Acts.ite (fun _ => Acts.pure _) fun _ =>
    (Acts.emit _).after fun _ => Acts.modify fun _ => rfl

theorem setSc_spares (sc : ℕ) (f : StreamCtx → StreamCtx) : Spares (modify fun s => s.setSc sc f) :=
  Acts.modify fun _ => rfl

theorem popChunk_spares (sc cnx streamId : ℕ) : Spares (popChunk sc cnx streamId) := by
  unfold popChunk
  refine (Acts.emit _).after fun _ => (setSc_spares sc _).after fun _ => Acts.get.after fun s => ?_
  cases (s.scs sc).rx with
  | none => exact Acts.pure _
  | some rx =>
    have hmalloc : Spares malloc := Acts.compute fun _ => rfl
    refine Acts.ite (fun _ => Acts.pure _) fun _ => hmalloc.after fun buf => ?_
    refine Acts.ite (fun _ => Acts.pure _) fun _ => ?_
    refine (setSc_spares sc _).after fun _ => (Acts.emit _).after fun _ => ?_
    refine (setSc_spares sc _).after fun _ => (setSc_spares sc _).after fun _ => ?_
    exact (setSc_spares sc _).after fun _ => (pendingFcAdd_spares _ _ _).after fun _ => Acts.pure _

theorem rxEventRelease_spares (e : Entry) : Spares (rxEventRelease e) :=
  Acts.ite (fun _ => Acts.emit _) fun _ => Acts.pure _

theorem clearData_spares (v : CallbackLoop) : Spares v.clearData := by
  unfold CallbackLoop.clearData
  apply Acts.after
  · split
    · exact Acts.emit _
    · exact Acts.pure _
  · exact fun _ => Acts.pure _

theorem takeData_result (e : Entry) (s : DrainCtx) : (takeData e s).1 = e.payload := rfl

theorem storeSnapshot_acts (e : Entry) (h : 0 < e.dataLength ∧ e.dataBuf ≠ .null) :
    Acts cache (·.fill e) (modify (storeSnapshot e.cnx e.payload e.dataLength) : Drain Unit) := by
  apply Acts.modify
  intro s
  rw [storeSnapshot_cache, SnapCache.fill, if_pos h]

/-- The snapshot an entry carries goes into the cache with its data. -/
def fillCarried (e : Entry) (c : SnapCache) : SnapCache := if CarriesSnapshot e.eventType
    then c.fill e else c

theorem fillCarried_of_bare {e : Entry} (h : ¬ (0 < e.dataLength ∧ e.dataBuf ≠ .null)) :
    fillCarried e = id := by
  funext c
  have hfill : c.fill e = c := if_neg h
  rw [fillCarried, hfill, ite_self]
  rfl

theorem drainRxData_cache (e : Entry) : Acts cache (fillCarried e) (drainRxData e) := by
  unfold drainRxData
  apply Acts.ite
  · intro h
    apply Acts.afterValue (takeData_spares e) (takeData_result e)
    unfold fillCarried
    by_cases hcarries : CarriesSnapshot e.eventType
    · simp only [if_pos hcarries]
      exact (storeSnapshot_acts e h).before fun _ => Acts.pure _
    · simp only [if_neg hcarries]
      exact Acts.pure _
  · intro h
    rw [fillCarried_of_bare h]
    refine Acts.ite (fun _ => (popChunk_spares _ _ _).after fun _ => Acts.pure _) fun _ => ?_
    split
    · exact Acts.pure _
    · exact (Acts.emit _).after fun _ => Acts.pure _
    · refine Acts.ite (fun _ => Acts.pure _) fun _ => ?_
      exact Acts.ite (fun _ => (popChunk_spares _ _ _).after fun _ => Acts.pure _) fun _ =>
        Acts.pure _

/-- What both drains do with an entry whose snapshot is the answer to a refresh. -/
theorem cnxSnapshot_acts (e : Entry) :
    Acts cache (·.fill e) (if 0 < e.dataLength ∧ e.dataBuf ≠ .null then do
        let buf ← takeData e
        modify (storeSnapshot e.cnx buf e.dataLength)
      else pure () : Drain Unit) := by
  apply Acts.ite
  · intro h
    exact Acts.afterValue (takeData_spares e) (takeData_result e) (storeSnapshot_acts e h)
  · intro h s
    exact (if_neg h).symm

/-- The snapshot of a connection that an entry ends is noted for the next drain. -/
def forgetEnded (e : Entry) (c : SnapCache) : SnapCache := if Ends e.eventType
    then c.forget e.cnx else c

theorem forgetEnded_of_not {e : Entry} (h : ¬ Ends e.eventType) : forgetEnded e = id := by
  funext c
  exact if_neg h

theorem forgetSnapshot_acts (e : Entry) : Acts cache (forgetEnded e)
    (if Ends e.eventType then modify (forgetSnapshot e.cnx) else pure () : Drain Unit) := by
  by_cases h : Ends e.eventType
  · rw [if_pos h]
    apply Acts.modify
    intro s
    rw [forgetSnapshot_cache, forgetEnded, if_pos h]
  · rw [forgetEnded_of_not h, if_neg h]
    exact Acts.pure _

/-- The entries of which the drains pass on at most the bare event, or nothing. -/
def PassedOver (t : EventType) : Prop :=
  t = .wtStreamLinkRelease ∨ t = .wtStreamDestroy ∨ t = .streamDestroy ∨ t = .txEventRingDrained

theorem entry_of_passedOver {e : Entry} (h : PassedOver e.eventType) :
    (·.entry e : SnapCache → SnapCache) = id := by
  funext c
  obtain h | h | h | h := h
  all_goals simp [SnapCache.entry, CarriesSnapshot, Ends, h]

theorem entry_of_cnxSnapshot {e : Entry} (h : e.eventType = .cnxSnapshot) :
    (·.entry e : SnapCache → SnapCache) = (·.fill e) := by
  funext c
  exact if_pos h

theorem entry_of_not_cnxSnapshot {e : Entry} (h : e.eventType ≠ .cnxSnapshot) :
    (·.entry e : SnapCache → SnapCache) = forgetEnded e ∘ fillCarried e := by
  funext c
  exact if_neg h

/-- Entries of stream bytes end nothing. -/
theorem not_ends_of_streamData {t : EventType} (h : t = .streamData ∨ t = .wtStreamData) :
    ¬ Ends t := by
  obtain rfl | rfl := h
  · decide
  · decide

/-- A drain that tells the types of entries apart as both drains do, from what it does for each. -/
theorem acts_byType {α : Type} {e : Entry} {link wtStream stream drained answer event : Drain α}
    (hlink : Spares link)
    (hwt : Spares wtStream) (hstream : Spares stream) (hdrained : Spares drained)
    (hanswer : Acts cache (·.fill e) answer)
    (hevent : Acts cache (forgetEnded e ∘ fillCarried e) event) :
    Acts cache (·.entry e)
      (if e.eventType = .wtStreamLinkRelease then link
      else if e.eventType = .wtStreamDestroy then wtStream
      else if e.eventType = .streamDestroy then stream
      else if e.eventType = .txEventRingDrained then drained
      else if e.eventType = .cnxSnapshot then answer
      else event) := by
  refine Acts.ite (fun h => ?_) fun _ => Acts.ite (fun h => ?_) fun _ =>
    Acts.ite (fun h => ?_) fun _ =>
    Acts.ite (fun h => ?_) fun _ => Acts.ite (fun h => ?_) fun h => ?_
  · rw [entry_of_passedOver (.inl h)]
    exact hlink
  · rw [entry_of_passedOver (.inr (.inl h))]
    exact hwt
  · rw [entry_of_passedOver (.inr (.inr (.inl h)))]
    exact hstream
  · rw [entry_of_passedOver (.inr (.inr (.inr h)))]
    exact hdrained
  · rw [entry_of_cnxSnapshot h]
    exact hanswer
  · rw [entry_of_not_cnxSnapshot h]
    exact hevent

/-- The entry is popped at last. -/
theorem pop_spares {α : Type} (a : α) : Spares (onRx RxQueue.pop >>= fun _ => pure a) :=
  (onRx_spares _).after fun _ => Acts.pure _

theorem setDrainEvent_spares : Spares (modify setDrainEvent : Drain Unit) := Acts.modify
    fun _ => rfl

theorem drainRxEntry_cache (e : Entry) : Acts cache (·.entry e) (drainRxEntry e) := by
  apply acts_byType
  · apply Acts.after
    · split
      · exact Acts.pure _
      · exact Acts.emit _
      · exact Acts.emit _
    · exact fun _ => pop_spares _
  · exact pop_spares _
  · exact Acts.after (Acts.ite (fun _ => Acts.emit _) fun _ => Acts.pure _) fun _ => pop_spares _
  · exact setDrainEvent_spares.after fun _ => pop_spares _
  · exact (cnxSnapshot_acts e).before fun _ => pop_spares _
  · apply (drainRxData_cache e).bind
    rintro ⟨data, scPtr⟩
    apply Acts.ite
    · rintro ⟨_, hstream⟩
      rw [forgetEnded_of_not (not_ends_of_streamData hstream)]
      exact (rxEventRelease_spares e).after fun _ => pop_spares _
    · intro _
      refine (forgetSnapshot_acts e).before fun _ => ?_
      exact Acts.after (Acts.ite (fun _ => Acts.emit _) fun _ => Acts.pure _) fun _ => pop_spares _

theorem drainRxCallbackEntry_cache (keeps : List DrainedEvent → Bool) (e : Entry)
    (v : CallbackLoop) :
    Acts cache (·.entry e) (drainRxCallbackEntry keeps e v) := by
  apply acts_byType
  · apply Acts.after
    · split
      · exact Acts.pure _
      · exact Acts.emit _
      · exact Acts.emit _
    · exact fun _ => pop_spares _
  · exact pop_spares _
  · exact Acts.after (Acts.ite (fun _ => Acts.emit _) fun _ => Acts.pure _) fun _ => pop_spares _
  · exact setDrainEvent_spares.after fun _ => pop_spares _
  · exact (cnxSnapshot_acts e).before fun _ => pop_spares _
  · refine (clearData_spares v).after fun v => ?_
    rw [drainRxCallbackData_eq]
    apply (drainRxData_cache e).bind
    rintro ⟨data, scPtr⟩
    apply Acts.ite
    · rintro ⟨_, hstream⟩
      rw [forgetEnded_of_not (not_ends_of_streamData hstream)]
      exact (rxEventRelease_spares e).after fun _ => pop_spares _
    · intro _
      exact (forgetSnapshot_acts e).before fun _ => (rxEventRelease_spares e).after fun _ =>
        pop_spares _

/-! ### A whole drain -/

theorem pushFcCredit_spares (cnx streamId sc : ℕ) : Spares (pushFcCredit cnx streamId sc) := by
  unfold pushFcCredit pushFcCreditEvent
  refine (Acts.emit _).after fun _ => Acts.get.after fun s => Acts.ite (fun _ => Acts.pure _)
    fun _ => ?_
  refine (setSc_spares sc _).after fun _ => Acts.ite (fun _ => Acts.pure _) fun _ =>
    (Acts.emit _).after fun _ => ?_
  have hpush (e : Entry) : Spares (compute (·.txPush e)) := Acts.compute fun _ => rfl
  refine (hpush _).after fun rc => Acts.ite (fun _ => Acts.modify fun s => ?_) fun _ => Acts.emit _
  unfold wakeWorker
  split
  · split <;> rfl
  · rfl

theorem flushNotes_spares (notes : List (ℕ × ℕ × ℕ)) : Spares (flushNotes notes) := by
  induction notes with
  | nil => exact Acts.pure _
  | cons note notes ih =>
    exact (pushFcCredit_spares _ _ _).after fun _ => (Acts.emit _).after fun _ => ih

theorem flushPendingFc_spares : Spares flushPendingFc := by
  have hclear : Spares (modify fun s => { s with pendingFc := [] } : Drain Unit) := Acts.modify
    fun _ => rfl
  exact Acts.get.after fun s => (flushNotes_spares _).after fun _ => hclear

theorem clearRx_spares : Spares (modify clearRx : Drain Unit) := Acts.modify fun _ => rfl

/-- All that a program does to the cache is what some entries do, one after another. -/
def ByEntries {α : Type} (x : Drain α) : Prop :=
  ∀ s, ∃ entries : List Entry, (x s).2.1.cache = entries.foldl SnapCache.entry s.cache

namespace ByEntries

variable {α β : Type} {x : Drain α} {k : α → Drain β}

theorem of_spares (h : Spares x) : ByEntries x := fun s => ⟨[], h s⟩

theorem of_entry {e : Entry} (h : Acts cache (·.entry e) x) : ByEntries x := fun s => ⟨[e], h s⟩

theorem bind (hx : ByEntries x) (hk : ∀ a, ByEntries (k a)) : ByEntries (x >>= k) := by
  intro s
  obtain ⟨first, hfirst⟩ := hx s
  obtain ⟨rest, hrest⟩ := hk (x s).1 (x s).2.1
  refine ⟨first ++ rest, ?_⟩
  rw [bind_apply, hrest, hfirst, List.foldl_append]

end ByEntries

theorem drainRxLoop_byEntries (n : ℕ) (events : List DrainedEvent) :
    ByEntries (drainRxLoop n events) := by
  induction n generalizing events with
  | zero => exact .of_spares (Acts.pure _)
  | succ n ih =>
    apply (ByEntries.of_spares (onRx_spares _)).bind
    rintro (_ | e)
    · apply (ByEntries.of_spares (onRx_spares _)).bind
      intro moved
      split
      · exact .of_spares (Acts.pure _)
      · exact ih events
    · exact (ByEntries.of_entry (drainRxEntry_cache e)).bind fun _ => ih _

theorem drainRxCallbackLoop_byEntries (keeps : List DrainedEvent → Bool) (n : ℕ)
    (v : CallbackLoop) :
    ByEntries (drainRxCallbackLoop keeps n v) := by
  induction n generalizing v with
  | zero => exact .of_spares (Acts.pure _)
  | succ n ih =>
    apply (ByEntries.of_spares (onRx_spares _)).bind
    rintro (_ | e)
    · apply (ByEntries.of_spares (onRx_spares _)).bind
      intro moved
      split
      · exact .of_spares (Acts.pure _)
      · exact ih v
    · exact (ByEntries.of_entry (drainRxCallbackEntry_cache keeps e v)).bind ih

/-- A drain starts a cycle and then goes through entries. -/
theorem cycle_byEntries {α : Type} {x : Drain α} (hx : ByEntries x) (s : DrainCtx) :
    ∃ entries : List Entry,
      (((modify fun s => { s with pendingFc := [] } : Drain Unit) >>= fun _ =>
        (modify beginDrainCycle : Drain Unit) >>= fun _ => x) s).2.1.cache =
        entries.foldl SnapCache.entry s.cache.beginCycle := by
  obtain ⟨entries, h⟩ := hx (beginDrainCycle { s with pendingFc := [] })
  rw [beginDrainCycle_cache] at h
  exact ⟨entries, h⟩

theorem drainRx_cache (maxEvents : ℤ) (s : DrainCtx) : ∃ entries : List Entry,
    (drainRx maxEvents s).2.1.cache = entries.foldl SnapCache.entry s.cache.beginCycle := by
  apply cycle_byEntries
  refine (ByEntries.of_spares (onRx_spares _)).bind fun _ => (drainRxLoop_byEntries _ _).bind
    fun events => ?_
  exact .of_spares (flushPendingFc_spares.after fun _ => clearRx_spares.after fun _ => Acts.pure _)

theorem drainRxCallback_cache (keeps : List DrainedEvent → Bool) (maxEvents : ℤ) (s : DrainCtx) :
    ∃ entries : List Entry,
      (drainRxCallback keeps maxEvents s).2.1.cache = entries.foldl SnapCache.entry
      s.cache.beginCycle := by
  apply cycle_byEntries
  refine (ByEntries.of_spares (onRx_spares _)).bind fun _ =>
    (drainRxCallbackLoop_byEntries _ _ _).bind fun v => ?_
  exact .of_spares (flushPendingFc_spares.after fun _ => clearRx_spares.after fun _ =>
    clearData_spares v)

end DrainCtx

end Aiopquic
