import Aiopquic.ScRefsFlight

/-!
# A drain keeps the references

The reference of a drained event moves to the batch, or is given back with the event. A
`STREAM_DESTROY` moves the stream's own reference there. Bytes that are delivered take one for their
chunk and one for the credit note of their stream, unless the drain owes one already.
-/

namespace Aiopquic

open Counted

namespace ScRefs

variable {s s' : ScRefs} {l : List ℕ} {ev : RawEvent} {rx : List RawEvent}

/-- The bytes popped from a stream's ring become a chunk. -/
theorem wrap_holders (s : ScRefs) (ev : RawEvent) :
    ∃ chunks notes, (s.wrap ev).toScHolders =
    { s.toScHolders with chunks := chunks, notes := notes } ∧
      ∀ e ∈ notes, e ∈ s.notes ∨ e.eventType = .txOpenFlowControl := by
  simp only [wrap]
  split
  · exact ⟨_, s.notes, rfl, fun e he => .inl he⟩
  · refine ⟨_, _, rfl, fun e he => ?_⟩
    rcases List.mem_append.1 he with he | he
    · exact .inl he
    · rw [List.mem_singleton.1 he]
      exact .inr rfl

theorem Flight.wrap (h : s.Flight l)
    (hpos : 0 < s.holders ev.streamCtxPtr + l.count ev.streamCtxPtr)
    (hroom : s.holders ev.streamCtxPtr + l.count ev.streamCtxPtr + 2 < word) :
    (s.wrap ev).Flight l := by
  have hchunk : Flight
    { s.take (some ev.streamCtxPtr) with chunks := s.chunks ++ [ev.streamCtxPtr] } l := by
    refine (h.take ⟨hpos, by omega⟩).move rfl rfl fun y => ?_
    show ScHolders.holders { s.toScHolders with chunks := s.chunks ++ [ev.streamCtxPtr] } y + _ =
      s.holders y + _
    simp only [ScHolders.holders, List.count_append, List.count_cons, List.count_nil]
    omega
  simp only [ScRefs.wrap]
  split
  · exact hchunk
  · have hone : ScHolders.holders { s.toScHolders with chunks := s.chunks ++ [ev.streamCtxPtr] }
      ev.streamCtxPtr =
        s.holders ev.streamCtxPtr + 1 := by
      simp only [ScHolders.holders, List.count_append, List.count_cons_self, List.count_nil]
      omega
    refine (hchunk.take (?_ : ScRefs.Takes _ _ ev.streamCtxPtr)).move rfl rfl fun y => ?_
    · show 0 < ScHolders.holders { s.toScHolders with chunks := s.chunks ++ [ev.streamCtxPtr] } _ +
        _ ∧
        ScHolders.holders { s.toScHolders with chunks := s.chunks ++ [ev.streamCtxPtr] } _ +
          _ + 1 < word
      rw [hone]
      constructor <;> omega
    · show ScHolders.holders { s.toScHolders with
        chunks := s.chunks ++ [ev.streamCtxPtr]
        notes := s.notes ++ [_] } y + _ =
          ScHolders.holders { s.toScHolders with chunks := s.chunks ++ [ev.streamCtxPtr] } y + _
      simp only [ScHolders.holders, List.map_append, List.count_append, List.map_cons, List.map_nil,
        List.count_cons, List.count_nil]
      omega

/-- A `STREAM_DESTROY` is drained. -/
theorem Inv.drainDestroy (h : s.Inv) (hphase : s.phase = .running) (hrx : s.rx = ev :: rx)
    (hd : ev.evtType = .streamDestroy) :
    Inv { s with
      rx := rx
      events := s.events ++ [ev]
      batch := s.batch ++ if ev.streamCtxPtr ≠ 0 then [ev.streamCtxPtr] else []
      lifetime := s.lifetime.erase ev.streamCtxPtr } := by
  obtain ⟨hp, hr⟩ := h.facts hphase
  have hret : ∀ sc, s.Retired sc → ScHolders.Retired { s.toScHolders with
      events := s.events ++ [ev]
      batch := s.batch ++ if ev.streamCtxPtr ≠ 0 then [ev.streamCtxPtr] else [] } sc := by
    rintro sc ⟨hb, e, he, hrest⟩
    exact ⟨List.mem_append_left _ hb, e, List.mem_append_left _ he, hrest⟩
  have hp' := hp.setQueue hphase (s.events ++ [ev]) rx _ hret
  have hr' := hr.setQueue (s.events ++ [ev]) rx _ (by simp [hrx]) hret
  by_cases h0 : ev.streamCtxPtr = 0
  · have hsame : s.lifetime.erase ev.streamCtxPtr = s.lifetime :=
      Finset.erase_eq_of_notMem (h0 ▸ hp.zero)
    rw [hsame]
    refine .of_running (h.balanced.congr fun y => ?_) hp' hr'
    simp [ScHolders.holders, hrx, RawEvent.ref, h0]
  · have hnow : ScHolders.Retired { s.toScHolders with
        rx := rx
        events := s.events ++ [ev]
        batch := s.batch ++ if ev.streamCtxPtr ≠ 0 then [ev.streamCtxPtr] else [] }
          ev.streamCtxPtr := by
      refine ⟨?_, ev, by simp, ⟨h0, .inr hd⟩, hd, rfl⟩
      simp [h0]
    refine .of_running (h.balanced.congr fun y => ?_) (hp'.eraseLifetime hnow)
      (hr'.eraseLifetime hnow)
    have hlife := hr.destroy_lifetime hrx hd h0
    have href : ev.ref = none := by
      simp [RawEvent.ref, rxEventOwnsSc, hd]
    show ScHolders.holders { s.toScHolders with
      rx := rx
      batch := s.batch ++ if ev.streamCtxPtr ≠ 0 then [ev.streamCtxPtr] else []
      lifetime := s.lifetime.erase ev.streamCtxPtr } y = s.holders y
    simp only [ScHolders.holders, hrx, List.filterMap_cons, href, ne_eq, h0, not_false_iff, if_true,
      List.count_append, List.count_cons, List.count_nil, Finset.mem_erase]
    by_cases hy : y = ev.streamCtxPtr
    · subst hy
      simp [hlife]
      omega
    · simp [hy, Ne.symm hy]

/-- The reference of a popped entry is in flight. -/
theorem Flight.popRx (h : s.Flight []) (hrx : s.rx = ev :: rx) :
    Flight { s with rx := rx } ev.ref.toList := by
  refine h.move rfl rfl fun y => ?_
  show ScHolders.holders { s.toScHolders with rx := rx } y + _ = s.holders y + _
  simp only [ScHolders.holders, hrx, List.filterMap_cons]
  cases ev.ref with
  | none => simp
  | some sc =>
    simp only [Option.toList_some, List.count_cons, List.count_nil]
    omega

/-- The state after the bytes of an entry were read, if it has any. -/
def read (s : ScRefs) (ev : RawEvent) (reads popped : Prop) [Decidable reads] [Decidable popped] :
    ScRefs :=
  if reads ∧ popped then (if reads then s.touch (some ev.streamCtxPtr) else s).wrap ev
  else if reads then s.touch (some ev.streamCtxPtr) else s

theorem read_holders (s : ScRefs) (ev : RawEvent) (reads popped : Prop) [Decidable reads]
    [Decidable popped] :
    ∃ chunks notes, (s.read ev reads popped).toScHolders =
        { s.toScHolders with chunks := chunks, notes := notes } ∧
      ∀ e ∈ notes, e ∈ s.notes ∨ e.eventType = .txOpenFlowControl := by
  have htouch : (if reads then s.touch (some ev.streamCtxPtr) else s).toScHolders =
    s.toScHolders := by
    split <;> rfl
  rw [read]
  split
  · obtain ⟨chunks, notes, hsame, hnotes⟩ :=
      wrap_holders (if reads then s.touch (some ev.streamCtxPtr) else s) ev
    rw [htouch] at hsame hnotes
    exact ⟨chunks, notes, hsame, hnotes⟩
  · exact ⟨s.chunks, s.notes, htouch, fun e he => .inl he⟩

/-- Bytes are read only while the entry's reference is in flight. -/
theorem Flight.read (h : s.Flight []) (hroom : s.Room) (hrx : s.rx = ev :: rx) (reads popped : Prop)
    [Decidable reads] [Decidable popped] (hreads : reads → ev.ref = some ev.streamCtxPtr) :
    (ScRefs.read { s with rx := rx } ev reads popped).Flight ev.ref.toList := by
  have hpop := h.popRx hrx
  by_cases hr : reads
  · have href := hreads hr
    have hheld : ScHolders.holders { s.toScHolders with rx := rx } ev.streamCtxPtr + 1 =
        s.holders ev.streamCtxPtr := by
      simp only [ScHolders.holders, hrx, List.filterMap_cons, href, List.count_cons_self]
      omega
    rw [href] at hpop ⊢
    have htouch := hpop.touch (r := some ev.streamCtxPtr) <| by
      rintro sc hsc
      obtain rfl := Option.some.inj hsc
      simp
    simp only [ScRefs.read, hr, true_and, if_true]
    split
    · apply htouch.wrap
      · simp
      · have := hroom ev.streamCtxPtr
          (h.le_made (by simpa using (by omega : 0 < s.holders ev.streamCtxPtr)))
        show ScHolders.holders { s.toScHolders with rx := rx } _ + [ev.streamCtxPtr].count _ + 2 <
          word
        rw [List.count_cons_self, List.count_nil]
        omega
    · exact htouch
  · simp only [ScRefs.read, hr, false_and, if_false]
    exact hpop

/-- What draining an entry does: a `STREAM_DESTROY` goes to the batch with the stream's reference;
any other entry is read, and then dropped or delivered. -/
theorem drainEntry_cases {popped : Bool} (hs : s.drainEntry popped = some s') :
    ∃ ev rx, s.rx = ev :: rx ∧ s.phase = .running ∧
      (ev.evtType = .streamDestroy ∧
          s' = { s with
            rx := rx
            events := s.events ++ [ev]
            batch := s.batch ++ if ev.streamCtxPtr ≠ 0 then [ev.streamCtxPtr] else []
            lifetime := s.lifetime.erase ev.streamCtxPtr } ∨
        ∃ reads : Prop, ∃ _ : Decidable reads, (reads → ev.ref = some ev.streamCtxPtr) ∧
          ∃ t, t = ScRefs.read { s with rx := rx } ev reads (popped = true) ∧
            (s' = t.drop ev.ref ∨
              s' = { t with events := t.events ++ [ev], batch := t.batch ++ ev.ref.toList })) := by
  simp only [ScRefs.drainEntry] at hs
  split at hs
  · exact nomatch hs
  rename_i ev rx hrx
  split at hs
  · exact nomatch hs
  rename_i hphase
  refine ⟨ev, rx, hrx, by simpa using hphase, ?_⟩
  split at hs
  · rename_i hd
    exact .inl ⟨hd, (Option.some.inj hs).symm⟩
  · refine .inr ⟨(ev.evtType = .streamData ∨ ev.evtType = .streamFin) ∧ ev.streamCtxPtr ≠ 0,
      inferInstance, ?_,
      _, rfl, ?_⟩
    · rintro ⟨hev | hev, hne⟩ <;> simp [RawEvent.ref, rxEventOwnsSc, hev, hne]
    · split at hs
      · exact .inl (Option.some.inj hs).symm
      · exact .inr (Option.some.inj hs).symm

/-- `drain_rx` for one entry. -/
theorem Inv.drainEntry {popped : Bool} (h : s.Inv) (hroom : s.Room)
    (hs : s.drainEntry popped = some s') :
    s'.Inv := by
  obtain ⟨ev, rx, hrx, hphase, ⟨hd, rfl⟩ | ⟨reads, _, hreads, t, ht, hs⟩⟩ := drainEntry_cases hs
  · exact h.drainDestroy hphase hrx hd
  obtain ⟨hp, hr⟩ := h.facts hphase
  have hflight := h.flight.read hroom hrx reads (popped = true) hreads
  obtain ⟨chunks, notes, hsame, hnotes⟩ := read_holders { s with rx := rx } ev reads (popped = true)
  rw [← ht] at hflight hsame
  have hnotes' : ∀ e ∈ notes, e.eventType = .txOpenFlowControl :=
    fun e he => (hnotes e he).elim (hr.notes e) id
  have hret : ∀ batch sc, s.Retired sc →
      ScHolders.Retired { s.toScHolders with events := s.events ++ [ev], batch := s.batch ++ batch }
        sc := by
    rintro batch sc ⟨hb, e, he, hrest⟩
    exact ⟨List.mem_append_left _ hb, e, List.mem_append_left _ he, hrest⟩
  rcases hs with rfl | rfl
  · -- a data event whose bytes an earlier one delivered
    have hpop : t.Midway ev.ref.toList := by
      have hrun := hr.setQueue s.events rx s.batch (by simp [hrx]) fun _ => id
      constructor
      · exact hflight
      all_goals rw [hsame]
      · exact hphase
      · exact { hp with }
      · exact { hrun with notes := hnotes' }
    apply Midway.inv
    apply Midway.dropRef
    rw [List.append_nil]
    exact hpop
  · have hp' := hp.setQueue hphase (s.events ++ [ev]) rx _ (hret ev.ref.toList)
    have hr' := hr.setQueue (s.events ++ [ev]) rx _ (by simp [hrx]) (hret ev.ref.toList)
    have hdone :
      Flight { t with events := t.events ++ [ev], batch := t.batch ++ ev.ref.toList } [] := by
      refine hflight.move rfl rfl fun y => ?_
      simp only [ScHolders.holders, List.count_append, List.count_nil]
      omega
    refine .of_running hdone.balanced ?_ ?_
    · rw [hsame]
      exact { hp' with }
    · rw [hsame]
      exact { hr' with notes := hnotes' }

/-- The references of a batch are given back once all its events are routed. -/
theorem Inv.releaseBatch (h : s.Inv) (hev : s.events = []) : s.releaseBatch.Inv := by
  have hnone : ∀ sc, ¬ s.Retired sc := by
    rintro sc ⟨-, e, he, -⟩
    rw [hev] at he
    exact absurd he List.not_mem_nil
  refine ⟨?_, fun hphase => ?_, fun hphase => ?_⟩
  · apply h.balanced.dropAll
    intro y
    show s.holders y = ScHolders.holders { s.toScHolders with batch := [] } y + _
    simp only [ScHolders.holders, List.count_nil, Nat.add_zero]
  · have hp := h.python hphase
    exact { hp with owned := fun i sc hsc => .inl ((hp.owned i sc hsc).resolve_right (hnone sc)) }
  · have hr := h.running hphase
    exact { hr with queue := fun e he hc => ⟨(hr.queue e he hc).1, (hr.queue e he hc).2.1,
      .inl ((hr.queue e he hc).2.2.resolve_right (hnone _))⟩ }

/-! ## Chunks and notes -/

/-- `_flush_pending_fc` for one note. -/
theorem Inv.flush {pushes : Bool} (h : s.Inv) (hroom : s.Room) (hs : s.flush pushes = some s') :
    s'.Inv := by
  simp only [ScRefs.flush] at hs
  split at hs
  · exact nomatch hs
  rename_i e notes hnotes
  simp only [Option.ite_none_right_eq_some, Option.some.injEq] at hs
  obtain ⟨hphase, rfl⟩ := hs
  have hmem : e ∈ s.notes := hnotes ▸ List.mem_cons_self
  have hpos := ScHolders.holders_pos_of_notes hmem
  have htouch := h.touch (r := some e.streamCtx) <| by
    rintro sc hsc
    obtain rfl := Option.some.inj hsc
    exact hpos
  have hpushed : ∃ t : ScRefs, (if pushes then (s.touch (some e.streamCtx)).txPush e
      else s.touch (some e.streamCtx)) = t ∧ t.Inv ∧ t.notes = e :: notes := by
    refine ⟨_, rfl, ?_⟩
    split
    · refine ⟨htouch.txPush (Takes.ref ?_) ?_, ?_⟩
      · rw [Takes, touch_holders]
        exact takes_of_room hroom (h.balanced.exists_of_held hpos).2 hpos
      · rintro - ⟨-, hev | hev | hev⟩ <;> simp [(h.running hphase).notes e hmem] at hev
      · rw [txPush_holders]
        split <;> exact hnotes
    · exact ⟨htouch, hnotes⟩
  obtain ⟨t, ht, hinv, hnotes'⟩ := hpushed
  rw [ht]
  have hpopped : Flight { t with notes := notes } [e.streamCtx] := by
    refine hinv.flight.move rfl rfl fun y => ?_
    simp only [ScHolders.holders, hnotes', List.map_cons, List.count_cons, List.count_nil]
    omega
  refine ⟨hpopped.drop.balanced, fun hphase => ?_, fun hphase => ?_⟩
  · exact { hinv.python hphase with }
  · have hr := hinv.running hphase
    exact { hr with notes := fun f hf => hr.notes f (hnotes' ▸ List.mem_cons_of_mem e hf) }

/-- `StreamChunk.__dealloc__`. -/
theorem Inv.dropChunk {k : ℕ} (h : s.Inv) (hs : s.dropChunk k = some s') : s'.Inv := by
  simp only [ScRefs.dropChunk] at hs
  split at hs
  · exact nomatch hs
  rename_i sc hsc
  obtain rfl := Option.some.inj hs
  have herased : Flight { s with chunks := s.chunks.eraseIdx k } [sc] := by
    refine h.flight.move rfl rfl fun y => ?_
    have hcount := count_eraseIdx id hsc y
    simp only [List.map_id, id_eq] at hcount
    simp only [ScHolders.holders, hcount, List.count_nil]
    omega
  refine ⟨herased.drop.balanced, fun hphase => ?_, fun hphase => ?_⟩
  · exact { h.python hphase with }
  · exact { h.running hphase with }

end ScRefs

end Aiopquic
