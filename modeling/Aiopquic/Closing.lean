import Aiopquic.Connection

/-!
# What a close does to a connection

A `CLOSE` or `APP_CLOSE` event closes the `QuicConnection`, reports `ConnectionTerminated` once,
wakes its writers and gives back what it holds (`Ended`). No other event, and nothing the
application does, undoes that (`Keeps`), and nothing the connection held is lost on the way
(`Accounts`).
-/

namespace Aiopquic

/-! ## The application -/

/-- What the application of an open connection does to it between two events. -/
inductive AppStep
  /-- `_get_or_create_stream_ctx`, with the context that the allocator would return -/
  | openStream (streamId sc : ℕ)
  /-- `get_tx_data_drain_event` and `tx_event_ring_drain_event` of a send -/
  | getEvents (streamId : ℕ)
  /-- the two clears before a send -/
  | clearEvents (streamId : ℕ)
  /-- `send_datagram_frame` that made a record ring, or found it full, or left its mark owed -/
  | openDgramRing (ring : ℕ)
  | dgramFull
  | dgramMarkOwed
  /-- `close` -/
  | close

/-- A step of the application; after a close it does nothing. -/
def QuicConnection.app (c : QuicConnection) (t : Transport) (step : AppStep) :
    QuicConnection × Transport :=
  if c.closed then (c, t)
  else
    match step with
    | .openStream streamId sc =>
      if c.streamCtxs streamId = none then
        ({ c with
          streamCtxs := Function.update c.streamCtxs streamId (some sc)
          scOwned := insert sc c.scOwned }, t)
      else (c, t)
    | .getEvents streamId =>
      ({ c with
        streamTxDrainEvents := if c.streamTxDrainEvents streamId = none then
          Function.update c.streamTxDrainEvents streamId (some false) else c.streamTxDrainEvents },
        { t with ringDrainEvent := some (t.ringDrainEvent.getD false) })
    | .clearEvents streamId =>
      if c.streamTxDrainEvents streamId = none then (c, t)
      else
        ({ c with streamTxDrainEvents := Function.update c.streamTxDrainEvents streamId (some false) },
          { t with ringDrainEvent := t.ringDrainEvent.map fun _ => false })
    | .openDgramRing ring => if c.dgramRing = 0 then ({ c with dgramRing := ring }, t) else (c, t)
    | .dgramFull => ({ c with dgramTxDrainEvent := false }, t)
    | .dgramMarkOwed => ({ c with dgramMarkOwed := true }, t)
    | .close => ({ c with closed := true }, t)
/-! ## Events -/

/-- The number of `ConnectionTerminated` events. -/
def terminations (events : List QuicEvent) : ℕ := events.countP (·.isTerminated)

@[simp] theorem terminations_nil : terminations [] = 0 := rfl

@[simp] theorem terminations_append (l l' : List QuicEvent) :
    terminations (l ++ l') = terminations l + terminations l' := List.countP_append

namespace QuicConnection

/-- The connection is closed, its writers are woken, and its contexts and datagram ring are given
back. -/
structure Released (c : QuicConnection) : Prop where
  closed : c.closed = true
  dropped : c.streamCtxsDropped = true
  streamCtxs : ∀ sid, c.streamCtxs sid = none
  scOwned : c.scOwned = ∅
  dgramRing : c.dgramRing = 0
  woken : ∀ sid b, c.streamTxDrainEvents sid = some b → b = true
  dgramWoken : c.dgramTxDrainEvent = true

variable {c : QuicConnection} {t : Transport} {a : Answers} {ev : RawEvent}

/-- What an event other than a close leaves as it is. -/
structure Keeps (c c' : QuicConnection) : Prop where
  terminated : c'.terminated = c.terminated
  events : terminations c'.events = terminations c.events
  released : c.Released → c'.Released

theorem Keeps.refl (c : QuicConnection) : Keeps c c := ⟨rfl, rfl, id⟩

theorem Keeps.append {c' : QuicConnection} {event : QuicEvent} (h : Keeps c c')
    (he : event.isTerminated = false) : Keeps c (c'.append event) := by
  refine ⟨h.terminated, ?_, fun hr => ?_⟩
  · have hone : terminations [event] = 0 := by simp [terminations, he]
    rw [QuicConnection.append, terminations_append, hone, h.events, Nat.add_zero]
  · exact ⟨(h.released hr).closed, (h.released hr).dropped, (h.released hr).streamCtxs,
      (h.released hr).scOwned, (h.released hr).dgramRing, (h.released hr).woken,
        (h.released hr).dgramWoken⟩

theorem keeps_adoptStreamCtx (c : QuicConnection) (sid sc : ℕ) :
    Keeps c (c.adoptStreamCtx sid sc) := by
  unfold adoptStreamCtx
  split
  · rename_i hsc
    refine ⟨rfl, rfl, fun hr => ?_⟩
    exact absurd (hsc.2.symm.trans hr.dropped) (by simp)
  · exact .refl c

/-- Updating one stream's drain event to a set one, or taking it out. -/
theorem Released.update (h : c.Released) (sid : ℕ) {o : Option Bool}
    (ho : ∀ b, o = some b → b = true) :
    ∀ k b, Function.update c.streamTxDrainEvents sid o k = some b → b = true := by
  intro k b hb
  by_cases hk : k = sid
  · subst hk
    rw [Function.update_self] at hb
    exact ho b hb
  · rw [Function.update_of_ne hk] at hb
    exact h.woken k b hb

/-- An event other than a close, in the branches the two handlers share. -/
theorem handleCommon_keeps (hcl : ev.isClose = false) :
    Keeps c (c.handleCommon t a ev).1 ∧ (c.handleCommon t a ev).2 = t := by
  unfold handleCommon
  split
  · exact ⟨(keeps_adoptStreamCtx c _ _).append rfl, rfl⟩
  · exact ⟨(keeps_adoptStreamCtx c _ _).append rfl, rfl⟩
  · exact ⟨(keeps_adoptStreamCtx c _ _).append rfl, rfl⟩
  · exact ⟨(keeps_adoptStreamCtx c _ _).append rfl, rfl⟩
  · rename_i h
    simp [RawEvent.isClose, h] at hcl
  · rename_i h
    simp [RawEvent.isClose, h] at hcl
  · exact ⟨(Keeps.refl c).append rfl, rfl⟩
  · refine ⟨⟨rfl, rfl, fun hr => ?_⟩, rfl⟩
    exact ⟨hr.closed, hr.dropped, hr.streamCtxs, hr.scOwned, hr.dgramRing,
      hr.update _ (by simp), hr.dgramWoken⟩
  · refine ⟨⟨rfl, rfl, fun hr => ?_⟩, rfl⟩
    exact ⟨hr.closed, hr.dropped, hr.streamCtxs, hr.scOwned, hr.dgramRing, hr.woken, rfl⟩
  · exact ⟨⟨rfl, rfl, fun hr => ⟨hr.closed, hr.dropped, hr.streamCtxs, hr.scOwned, hr.dgramRing,
      hr.woken, hr.dgramWoken⟩⟩, rfl⟩
  · exact ⟨⟨rfl, rfl, fun hr => ⟨hr.closed, hr.dropped, hr.streamCtxs, hr.scOwned, hr.dgramRing,
      hr.woken, hr.dgramWoken⟩⟩, rfl⟩
  · refine ⟨⟨rfl, rfl, fun hr => ?_⟩, rfl⟩
    refine ⟨hr.closed, hr.dropped, fun sid => ?_, ?_, hr.dgramRing, hr.update _ (by simp),
      hr.dgramWoken⟩
    · by_cases hk : sid = ev.streamId
      · subst hk
        exact Function.update_self _ _ _
      · exact (Function.update_of_ne hk _ _).trans (hr.streamCtxs sid)
    · simp [handleStreamDestroy, hr.scOwned]
  · exact ⟨.refl c, rfl⟩

theorem enqueueRaw_keeps (hcl : ev.isClose = false) :
    Keeps c (c.enqueueRaw t a ev).1 ∧ (c.enqueueRaw t a ev).2 = t := by
  unfold enqueueRaw
  split
  · exact ⟨((Keeps.refl c).append rfl).append rfl, rfl⟩
  · exact handleCommon_keeps hcl

theorem handleRawEvent_keeps (hcl : ev.isClose = false) :
    Keeps c (c.handleRawEvent t a ev).1 ∧ (c.handleRawEvent t a ev).2 = t := by
  have hset : ∀ p b b', Keeps c { c with cnxPtr := p, connected := b, created := b' } :=
    fun p b b' =>
    ⟨rfl, rfl, fun hr => ⟨hr.closed, hr.dropped, hr.streamCtxs, hr.scOwned, hr.dgramRing, hr.woken,
      hr.dgramWoken⟩⟩
  unfold handleRawEvent
  split
  · split
    · exact ⟨.refl c, rfl⟩
    · exact ⟨((hset _ _ _).append rfl).append rfl, rfl⟩
  · split
    · exact ⟨.refl c, rfl⟩
    · exact ⟨hset _ c.connected true, rfl⟩
  · exact handleCommon_keeps hcl

/-- A close is reported once. -/
theorem terminations_appendTerminated (c : QuicConnection) (ev : RawEvent) :
    (c.appendTerminated ev).terminated = true ∧ terminations (c.appendTerminated ev).events =
      if c.terminated then terminations c.events else terminations c.events + 1 := by
  unfold appendTerminated
  cases h : c.terminated with
  | true => exact ⟨h, rfl⟩
  | false =>
    refine ⟨rfl, ?_⟩
    simp only [QuicConnection.append, Bool.false_eq_true, if_false, terminations_append]
    rfl

/-- What a close leaves of a connection. -/
structure Ended (c : QuicConnection) (t : Transport) (c' : QuicConnection) (t' : Transport) :
    Prop where
  released : c'.Released
  terminated : c'.terminated = true
  events : terminations c'.events = if c.terminated then terminations c.events else terminations
    c.events + 1
  ring : t'.ringDrainEvent ≠ some false

theorem handleClose_ended (c : QuicConnection) (t : Transport) (ev : RawEvent) :
    Ended c t (c.handleClose t ev).1 (c.handleClose t ev).2 := by
  have hterm := terminations_appendTerminated { c with closed := true } ev
  have hclosed : ({ c with closed := true }.appendTerminated ev).closed = true := by
    unfold appendTerminated
    split <;> rfl
  have hwoken : ∀ (f : ℕ → Option Bool) sid b, setAll f sid = some b → b = true := by
    intro f sid b hb
    simp only [setAll, Option.map_eq_some_iff] at hb
    obtain ⟨-, -, rfl⟩ := hb
    rfl
  have hring : ∀ o : Option Bool, (o.map fun _ => true) ≠ some false := by
    intro o
    cases o <;> simp
  simp only [handleClose, releaseDgramRing_fst]
  refine ⟨⟨hclosed, rfl, fun _ => rfl, rfl, rfl, hwoken _, rfl⟩, hterm.1, hterm.2, ?_⟩
  rw [releaseDgramRing_ringDrainEvent]
  exact hring _

theorem handleCommon_close (hcl : ev.isClose = true) :
    c.handleCommon t a ev = c.handleClose t ev := by
  have h : ev.evtType = .close ∨ ev.evtType = .appClose := of_decide_eq_true hcl
  rcases h with h | h <;> simp [handleCommon, h]

theorem enqueueRaw_close (hcl : ev.isClose = true) : c.enqueueRaw t a ev = c.handleClose t ev := by
  have h : ev.evtType = .close ∨ ev.evtType = .appClose := of_decide_eq_true hcl
  rw [← handleCommon_close (a := a) hcl]
  rcases h with h | h <;> simp [enqueueRaw, h]

theorem handleRawEvent_close (hcl : ev.isClose = true) :
    c.handleRawEvent t a ev = c.handleClose t ev := by
  have h : ev.evtType = .close ∨ ev.evtType = .appClose := of_decide_eq_true hcl
  rw [← handleCommon_close (a := a) hcl]
  rcases h with h | h <;> simp [handleRawEvent, h]

/-- The application does not undo a close, and neither reports nor hides one. -/
theorem app_keeps (c : QuicConnection) (t : Transport) (step : AppStep) :
    (c.app t step).1.terminated = c.terminated ∧ (c.app t step).1.events = c.events ∧
      (c.closed = true → c.app t step = (c, t)) := by
  unfold app
  split
  · exact ⟨rfl, rfl, fun _ => rfl⟩
  · rename_i hopen
    refine ⟨?_, ?_, fun h => absurd h hopen⟩
    · cases step <;> dsimp only <;> split_ifs <;> rfl
    · cases step <;> dsimp only <;> split_ifs <;> rfl

/-- Nothing that the connection held is lost: a context is still held, or its reference was given
up, or its stream was destroyed, and the datagram ring is still held or was given back. -/
structure Accounts (gone : ℕ → Prop) (c : QuicConnection) (t : Transport) (c' : QuicConnection)
    (t' : Transport) : Prop where
  owned : ∀ sc ∈ c.scOwned, sc ∈ c'.scOwned ∨ sc ∈ t'.scDestroyed ∨ gone sc
  ring : c.dgramRing ≠ 0 → c'.dgramRing = c.dgramRing ∨ ∃ p, (c.dgramRing, p) ∈ t'.dgramReleased
  destroyed : t.scDestroyed ⊆ t'.scDestroyed
  released : t.dgramReleased ⊆ t'.dgramReleased

variable {gone : ℕ → Prop}

theorem Accounts.trans {c' c'' : QuicConnection} {t' t'' : Transport} (h : Accounts gone c t c' t')
    (h' : Accounts gone c' t' c'' t'') : Accounts gone c t c'' t'' := by
  refine ⟨fun sc hsc => ?_, fun hr => ?_, Finset.Subset.trans h.destroyed h'.destroyed,
    List.Subset.trans h.released h'.released⟩
  · rcases h.owned sc hsc with hsc | hsc | hsc
    · exact h'.owned sc hsc
    · exact .inr (.inl (h'.destroyed hsc))
    · exact .inr (.inr hsc)
  · rcases h.ring hr with hr' | ⟨p, hp⟩
    · rw [← hr'] at hr ⊢
      exact h'.ring hr
    · exact .inr ⟨p, h'.released hp⟩

theorem Accounts.of_subset {c' : QuicConnection} (ho : c.scOwned ⊆ c'.scOwned)
    (hr : c'.dgramRing = c.dgramRing) : Accounts gone c t c' t :=
  ⟨fun _ hsc => .inl (ho hsc), fun _ => .inl hr, subset_rfl, List.Subset.refl _⟩

theorem adoptStreamCtx_accounts (c : QuicConnection) (t : Transport) (sid sc : ℕ)
    (event : QuicEvent) :
    Accounts gone c t ((c.adoptStreamCtx sid sc).append event) t := by
  unfold adoptStreamCtx
  split
  · exact .of_subset (Finset.subset_insert _ _) rfl
  · exact .of_subset subset_rfl rfl

theorem handleClose_accounts (c : QuicConnection) (t : Transport) (ev : RawEvent) :
    Accounts gone c t (c.handleClose t ev).1 (c.handleClose t ev).2 := by
  have hkeep : ({ c with closed := true }.appendTerminated ev).scOwned = c.scOwned ∧
      ({ c with closed := true }.appendTerminated ev).dgramRing = c.dgramRing := by
    unfold appendTerminated
    split <;> exact ⟨rfl, rfl⟩
  unfold handleClose releaseDgramRing destroyStreamCtxs
  dsimp only
  rw [hkeep.1, hkeep.2]
  split
  · refine ⟨fun sc hsc => .inr (.inl (Finset.mem_union_right _ hsc)), fun _ => .inr ?_,
      Finset.subset_union_left, List.subset_append_left _ _⟩
    exact ⟨_, List.mem_append_right _ (List.mem_singleton_self _)⟩
  · rename_i h
    exact ⟨fun sc hsc => .inr (.inl (Finset.mem_union_right _ hsc)), fun hr => absurd hr h,
      Finset.subset_union_left, List.Subset.refl _⟩

theorem handleCommon_accounts (hgone : ev.evtType = .streamDestroy → gone ev.streamCtxPtr) :
    Accounts gone c t (c.handleCommon t a ev).1 (c.handleCommon t a ev).2 := by
  unfold handleCommon
  split
  · exact adoptStreamCtx_accounts c t _ _ _
  · exact adoptStreamCtx_accounts c t _ _ _
  · exact adoptStreamCtx_accounts c t _ _ _
  · exact adoptStreamCtx_accounts c t _ _ _
  · exact handleClose_accounts c t ev
  · exact handleClose_accounts c t ev
  · exact .of_subset subset_rfl rfl
  · exact .of_subset subset_rfl rfl
  · exact .of_subset subset_rfl rfl
  · exact .of_subset subset_rfl rfl
  · exact .of_subset subset_rfl rfl
  · rename_i h
    refine ⟨fun sc hsc => ?_, fun _ => .inl rfl, subset_rfl, List.Subset.refl _⟩
    by_cases hs : sc = ev.streamCtxPtr
    · exact .inr (.inr (hs ▸ hgone h))
    · exact .inl (Finset.mem_erase.2 ⟨hs, hsc⟩)
  · exact .of_subset subset_rfl rfl

theorem enqueueRaw_accounts (hgone : ev.evtType = .streamDestroy → gone ev.streamCtxPtr) :
    Accounts gone c t (c.enqueueRaw t a ev).1 (c.enqueueRaw t a ev).2 := by
  unfold enqueueRaw
  split
  · exact .of_subset subset_rfl rfl
  · exact handleCommon_accounts hgone

theorem handleRawEvent_accounts (hgone : ev.evtType = .streamDestroy → gone ev.streamCtxPtr) :
    Accounts gone c t (c.handleRawEvent t a ev).1 (c.handleRawEvent t a ev).2 := by
  unfold handleRawEvent
  split
  · split <;> exact .of_subset subset_rfl rfl
  · split <;> exact .of_subset subset_rfl rfl
  · exact handleCommon_accounts hgone

theorem app_accounts (c : QuicConnection) (t : Transport) (step : AppStep) :
    Accounts gone c t (c.app t step).1 (c.app t step).2 := by
  have hkeep : c.scOwned ⊆ (c.app t step).1.scOwned ∧
      (c.dgramRing ≠ 0 → (c.app t step).1.dgramRing = c.dgramRing) ∧
      (c.app t step).2.scDestroyed = t.scDestroyed ∧ (c.app t step).2.dgramReleased =
        t.dgramReleased := by
    unfold app
    split
    · exact ⟨subset_rfl, fun _ => rfl, rfl, rfl⟩
    · cases step <;> dsimp only
      case openStream =>
        split
        · exact ⟨Finset.subset_insert _ _, fun _ => rfl, rfl, rfl⟩
        · exact ⟨subset_rfl, fun _ => rfl, rfl, rfl⟩
      case openDgramRing =>
        split
        · rename_i h
          exact ⟨subset_rfl, fun hr => absurd h hr, rfl, rfl⟩
        · exact ⟨subset_rfl, fun _ => rfl, rfl, rfl⟩
      case clearEvents => split <;> exact ⟨subset_rfl, fun _ => rfl, rfl, rfl⟩
      all_goals exact ⟨subset_rfl, fun _ => rfl, rfl, rfl⟩
  obtain ⟨ho, hr, hd, hl⟩ := hkeep
  refine ⟨fun sc hsc => .inl (ho hsc), fun h => .inl (hr h), ?_, ?_⟩
  · rw [hd]
  · rw [hl]
    exact List.Subset.refl _

end QuicConnection

end Aiopquic
