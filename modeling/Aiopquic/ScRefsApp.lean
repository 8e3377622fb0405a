import Aiopquic.ScRefsFlight

/-!
# The application keeps the references

It makes contexts, queues commands for the contexts of its streams, and stops the transport. A
command finds its stream's context referenced, since the connection owns it.
-/

namespace Aiopquic

open Counted

namespace ScHolders

variable {s : ScHolders} {i streamId sc : ℕ}

/-- A connection gets a context of its own for a stream. -/
theorem Python.own (h : s.Python) (hi : i < s.engine.made)
    (hopen : (s.engine.conns i).closed = false)
    (hnone : (s.engine.conns i).streamCtxs streamId = none) (hsc : sc ∈ s.lifetime) :
    Python { s with engine := { s.engine with
      conns := Function.update s.engine.conns i
        ((s.engine.conns i).getOrCreateStreamCtx streamId sc) } } := by
  rw [QuicConnection.getOrCreateStreamCtx, if_pos hnone]
  constructor
  case owned =>
    intro j x hx
    by_cases hj : j = i
    · subst hj
      simp only [conn, QuicConnection.scs, Function.update_self, Finset.mem_insert] at hx
      rcases hx with rfl | hx
      · exact .inl hsc
      · exact h.owned j x hx
    · simp only [conn, Function.update_of_ne hj] at hx
      exact h.owned j x hx
  case ctxs =>
    intro j k x hx
    by_cases hj : j = i
    · subst hj
      simp only [conn, QuicConnection.scs, Function.update_self] at hx ⊢
      by_cases hk : k = streamId
      · subst hk
        simp only [Function.update_self, Option.some.injEq] at hx
        exact hx ▸ Finset.mem_insert_self ..
      · rw [Function.update_of_ne hk] at hx
        exact Finset.mem_insert_of_mem (h.ctxs j k x hx)
    · simp only [conn, Function.update_of_ne hj] at hx ⊢
      exact h.ctxs j k x hx
  case dropped =>
    intro j hd
    by_cases hj : j = i
    · subst hj
      simp only [conn, QuicConnection.scs, Function.update_self] at hd
      have := (h.dropped j hd).1
      simp [conn, QuicConnection.scs, hopen] at this
    · simp only [conn, Function.update_of_ne hj] at hd ⊢
      exact h.dropped j hd
  case unmade =>
    intro j hj
    have hlt : s.engine.made ≤ j := hj
    simp only [conn, Function.update_of_ne (show j ≠ i by omega)]
    exact h.unmade j hj
  case client => exact h.client
  case zero => exact h.zero
  case stopped => exact h.stopped

theorem Running.own (h : s.Running) (hhome : s.home sc = (s.keyOf i, streamId))
    (hnone : (s.engine.conns i).streamCtxs streamId = none) :
    Running { s with engine := { s.engine with
      conns := Function.update s.engine.conns i
        ((s.engine.conns i).getOrCreateStreamCtx streamId sc) } } := by
  rw [QuicConnection.getOrCreateStreamCtx, if_pos hnone]
  generalize hc : ({ s.engine.conns i with
    streamCtxs := _
    scOwned := _ } : QuicConnection) = c
  have hscs : c.scs = { s.conn i with
      owned := insert sc (s.conn i).owned
      ctxs := Function.update (s.conn i).ctxs streamId (some sc) } := by
    rw [← hc]
    rfl
  have hptr : ∀ j, (Function.update s.engine.conns i c j).cnxPtr = (s.engine.conns j).cnxPtr := by
    intro j
    by_cases hj : j = i
    · subst hj
      rw [Function.update_self, ← hc]
    · rw [Function.update_of_ne hj]
  have hdrop : ∀ j, (Function.update s.engine.conns i c j).scs.dropped = (s.conn j).dropped := by
    intro j
    by_cases hj : j = i
    · subst hj
      rw [Function.update_self, hscs]
    · rw [Function.update_of_ne hj]
  refine { h with homes := ?homes, ctxHomes := ?ctxHomes, table := ?table, entry := ?entry }
  case homes =>
    intro j x hx
    show (s.home x).1 = s.role.key (Function.update s.engine.conns i c j).cnxPtr
    rw [hptr j]
    by_cases hj : j = i
    · subst hj
      simp only [conn, Function.update_self, hscs, Finset.mem_insert] at hx
      rcases hx with rfl | hx
      · rw [hhome]
        rfl
      · exact h.homes j x hx
    · simp only [conn, Function.update_of_ne hj] at hx
      exact h.homes j x hx
  case ctxHomes =>
    intro j k x hx
    show s.home x = (s.role.key (Function.update s.engine.conns i c j).cnxPtr, k)
    rw [hptr j]
    by_cases hj : j = i
    · subst hj
      simp only [conn, Function.update_self, hscs] at hx
      by_cases hk : k = streamId
      · subst hk
        rw [Function.update_self, Option.some.injEq] at hx
        exact hx ▸ hhome
      · rw [Function.update_of_ne hk] at hx
        exact h.ctxHomes j k x hx
    · simp only [conn, Function.update_of_ne hj] at hx
      exact h.ctxHomes j k x hx
  case table =>
    intro hserver j hj hd
    show s.engine.connections (Function.update s.engine.conns i c j).cnxPtr = some j
    rw [hptr j]
    exact h.table hserver j hj (hdrop j ▸ hd)
  case entry =>
    intro hserver k j hk
    obtain ⟨hlt, hold⟩ := h.entry hserver k j hk
    exact ⟨hlt, fun hd => (hptr j).trans (hold (hdrop j ▸ hd))⟩

/-- Two connections own the same contexts; the first is closed if the second is. -/
structure SameScs (c d : QuicConnection) : Prop where
  owned : c.scs.owned = d.scs.owned
  ctxs : c.scs.ctxs = d.scs.ctxs
  dropped : c.scs.dropped = d.scs.dropped
  closed : d.scs.closed = true → c.scs.closed = true
  cnxPtr : c.cnxPtr = d.cnxPtr

theorem Python.setConns (h : s.Python) (g : QuicEngine) (hmade : g.made = s.engine.made)
    (hsame : ∀ j, SameScs (g.conns j) (s.engine.conns j)) : Python { s with engine := g } := by
  constructor
  case owned =>
    intro j x hx
    exact h.owned j x ((hsame j).owned ▸ hx)
  case ctxs =>
    intro j k x hx
    show x ∈ (g.conns j).scs.owned
    rw [(hsame j).owned]
    exact h.ctxs j k x ((hsame j).ctxs ▸ hx)
  case dropped =>
    intro j hd
    obtain ⟨hcl, how⟩ := h.dropped j ((hsame j).dropped ▸ hd)
    exact ⟨(hsame j).closed hcl, (hsame j).owned.trans how⟩
  case unmade =>
    intro j hj
    exact (hsame j).owned.trans (h.unmade j (hmade ▸ hj))
  case client => exact fun hc => hmade.trans (h.client hc)
  case zero => exact h.zero
  case stopped => exact h.stopped

theorem Running.setConns (h : s.Running) (g : QuicEngine) (hmade : g.made = s.engine.made)
    (hconnections : g.connections = s.engine.connections)
    (hsame : ∀ j, SameScs (g.conns j) (s.engine.conns j)) : Running { s with engine := g } := by
  refine { h with homes := ?homes, ctxHomes := ?ctxHomes, table := ?table, entry := ?entry }
  case homes =>
    intro j x hx
    show (s.home x).1 = s.role.key (g.conns j).cnxPtr
    rw [(hsame j).cnxPtr]
    exact h.homes j x ((hsame j).owned ▸ hx)
  case ctxHomes =>
    intro j k x hx
    show s.home x = (s.role.key (g.conns j).cnxPtr, k)
    rw [(hsame j).cnxPtr]
    exact h.ctxHomes j k x ((hsame j).ctxs ▸ hx)
  case table =>
    intro hserver j hj hd
    show g.connections (g.conns j).cnxPtr = some j
    rw [hconnections, (hsame j).cnxPtr]
    exact h.table hserver j (hmade ▸ hj) ((hsame j).dropped ▸ hd)
  case entry =>
    intro hserver k j hk
    obtain ⟨hlt, hold⟩ := h.entry hserver k j (hconnections ▸ hk)
    exact ⟨hmade.symm ▸ hlt, fun hd => (hsame j).cnxPtr.trans (hold ((hsame j).dropped ▸ hd))⟩

/-- A client's connection gives up its contexts. -/
theorem Python.clear (h : s.Python) (hrole : s.role = .client)
    {c : QuicConnection} (hc : c.scs = ⟨∅, fun _ => none, true, true⟩) (t : Transport) :
    Python { s with
      engine := { s.engine with conns := Function.update s.engine.conns 0 c, transport := t }
      lifetime := s.lifetime \ (s.conn 0).owned } := by
  have hmade := h.client hrole
  have hother : ∀ j, j ≠ 0 → Function.update s.engine.conns 0 c j = s.engine.conns j := fun j hj =>
    Function.update_of_ne hj ..
  constructor
  case owned =>
    intro j x hx
    by_cases hj : j = 0
    · subst hj
      simp only [conn, Function.update_self, hc] at hx
      exact absurd hx (Finset.notMem_empty x)
    · simp only [conn, hother j hj] at hx
      rw [h.unmade j (by omega)] at hx
      exact absurd hx (Finset.notMem_empty x)
  case ctxs =>
    intro j k x hx
    by_cases hj : j = 0
    · subst hj
      simp only [conn, Function.update_self, hc] at hx
      exact nomatch hx
    · simp only [conn, hother j hj] at hx ⊢
      exact h.ctxs j k x hx
  case dropped =>
    intro j hd
    by_cases hj : j = 0
    · subst hj
      simp only [conn, Function.update_self, hc, and_self]
    · simp only [conn, hother j hj] at hd ⊢
      exact h.dropped j hd
  case unmade =>
    intro j hj
    have hlt : s.engine.made ≤ j := hj
    simp only [conn, hother j (show j ≠ 0 by omega)]
    exact h.unmade j hlt
  case client => exact h.client
  case zero => exact fun h0 => h.zero (Finset.mem_sdiff.1 h0).1
  case stopped => exact h.stopped

end ScHolders

namespace ScRefs

variable {s s' : ScRefs} {i streamId : ℕ}

/-! ## The application -/

/-- A stream's context, if it has one, is referenced, and fits the stream's commands. -/
theorem Inv.command (h : s.Inv) (hphase : s.phase ≠ .gone) (t : EventType)
    (hne : s.ctxOf i streamId ≠ 0) :
    0 < s.holders (s.ctxOf i streamId) ∧
    (s.phase = .running → s.Fits (s.command i t streamId)) := by
  have hp := h.python hphase
  have hsome : (s.conn i).ctxs streamId = some (s.ctxOf i streamId) := by
    have hne' := hne
    simp only [ScHolders.ctxOf, ScHolders.conn, QuicConnection.scs] at hne' ⊢
    cases hc : (s.engine.conns i).streamCtxs streamId with
    | none => simp [hc] at hne'
    | some sc => rfl
  have hcov := hp.owned i _ (hp.ctxs i streamId _ hsome)
  refine ⟨ScHolders.holders_pos_of_covered hcov, fun hrunning => ?_⟩
  have hr := h.running hrunning
  have hhome := hr.ctxHomes i streamId _ hsome
  refine ⟨hhome, fun hu => hcov.resolve_right fun hret => ?_⟩
  exact hr.retired_not_usable hret hhome (ScHolders.usable_of_usableAt hu)

/-- A command for a stream is queued. -/
theorem Inv.pushCommand (h : s.Inv) (hphase : s.phase ≠ .gone) (t : EventType) (i streamId : ℕ)
    (hroom : s.holders (s.ctxOf i streamId) + 1 < word) :
    (s.txPush (s.command i t streamId)).Inv := by
  apply h.txPush
  · intro sc hsc
    have hne : s.ctxOf i streamId ≠ 0 := by
      intro h0
      simp [Entry.ref, ScHolders.command, h0] at hsc
    refine Takes.ref (e := s.command i t streamId) ⟨?_, by simpa [ScHolders.command] using hroom⟩ sc
      hsc
    simpa [ScHolders.command] using (h.command hphase t hne).1
  · intro hrunning ha
    exact (h.command hphase t ha.1).2 hrunning

theorem Inv.getOrCreate (h : s.Inv) (hphase : s.phase ≠ .gone) (hi : i < s.engine.made)
    (hopen : (s.engine.conns i).closed = false) : (s.getOrCreate i streamId).Inv := by
  by_cases hnone : (s.engine.conns i).streamCtxs streamId = none
  · have hinv := h.create (s.keyOf i, streamId)
    simp only [ScRefs.getOrCreate, if_pos hnone]
    refine ⟨hinv.balanced, fun _ => ?_, fun hrunning => ?_⟩
    · exact (hinv.python hphase).own hi hopen hnone (Finset.mem_insert_self ..)
    · exact (hinv.running hrunning).own (Function.update_self ..) hnone
  · simp only [ScRefs.getOrCreate, if_neg hnone, QuicConnection.getOrCreateStreamCtx,
      Function.update_eq_self]
    exact h

theorem Room.getOrCreate (hroom : s.Room) (h : s.Inv) (i streamId : ℕ) :
    (s.getOrCreate i streamId).holders ((s.getOrCreate i streamId).ctxOf i streamId) +
    1 < word := by
  by_cases hnone : (s.engine.conns i).streamCtxs streamId = none
  · have hctx : (s.getOrCreate i streamId).ctxOf i streamId = s.made + 1 := by
      simp [ScHolders.ctxOf, ScRefs.getOrCreate, QuicConnection.getOrCreateStreamCtx, hnone]
    have hone := create_holders_made h (s.keyOf i, streamId)
    rw [hctx, ScRefs.getOrCreate]
    simp only [if_pos hnone]
    show (s.create (s.keyOf i, streamId)).holders (s.made + 1) + 1 < word
    rw [hone]
    decide
  · have hsame : (s.getOrCreate i streamId).toScHolders = s.toScHolders := by
      simp only [ScRefs.getOrCreate, if_neg hnone, QuicConnection.getOrCreateStreamCtx,
        Function.update_eq_self]
    rw [hsame]
    by_cases hpos : 0 < s.holders (s.ctxOf i streamId)
    · have := hroom _ (h.balanced.exists_of_held hpos).2
      omega
    · have : 1 < word := by decide
      omega

/-- `send_stream_data`. -/
theorem Inv.send {answer : SendAnswer} (h : s.Inv) (hroom : s.Room)
    (hs : s.send i streamId answer = some s') :
    s'.Inv := by
  simp only [ScRefs.send, Option.ite_none_right_eq_some] at hs
  obtain ⟨⟨⟨hi, hpushes⟩, hopen⟩, hs⟩ := hs
  have hphase : s.phase ≠ .gone := by
    rcases hpushes with hp | ⟨hp, -⟩ <;> simp [hp]
  have hinv : (s.getOrCreate i streamId).Inv := h.getOrCreate hphase hi hopen
  have hroom' := hroom.getOrCreate h i streamId
  have hphase' : (s.getOrCreate i streamId).phase ≠ .gone := by
    simp only [ScRefs.getOrCreate]
    split <;> exact hphase
  generalize s.getOrCreate i streamId = t at hs hinv hroom' hphase'
  have htouch : (t.touch (t.command i .txMarkActive streamId).ref).Inv := by
    apply hinv.touch
    intro sc hsc
    obtain ⟨rfl, hne⟩ := Entry.eq_of_ref hsc
    exact (hinv.command hphase' .txMarkActive hne).1
  cases answer with
  | eventRingFull =>
    obtain rfl := Option.some.inj hs
    exact hinv
  | streamRingFull =>
    obtain rfl := Option.some.inj hs
    exact htouch
  | committed =>
    obtain rfl := Option.some.inj hs
    have hpush := htouch.pushCommand (by rwa [touch_holders]) .txMarkActive i streamId
      (by rwa [touch_holders])
    rw [touch_holders] at hpush
    exact hpush

/-- `reset_stream` and `stop_stream`. -/
theorem Inv.request {t : EventType} (h : s.Inv) (hroom : s.Room)
    (hs : s.request i t streamId = some s') :
    s'.Inv := by
  simp only [ScRefs.request, Option.ite_none_right_eq_some, Option.some.injEq] at hs
  obtain ⟨⟨-, hpushes⟩, rfl⟩ := hs
  apply h.pushCommand
  · rcases hpushes with hp | ⟨hp, -⟩ <;> simp [hp]
  · by_cases hpos : 0 < s.holders (s.ctxOf i streamId)
    · have := hroom _ (h.balanced.exists_of_held hpos).2
      omega
    · have : 1 < word := by decide
      omega

/-- A command without a context is queued. -/
theorem Inv.pushPlain (h : s.Inv) {e : Entry} (href : e.ref = none) :
    Inv { s with tx := s.tx ++ [e] } := by
  refine ⟨h.balanced.congr fun y => ?_, fun hphase => { h.python hphase with }, fun hphase => ?_⟩
  · simp [ScHolders.holders, href]
  · refine (h.running hphase).setTx _ fun f hf ha => ?_
    rcases List.mem_append.1 hf with hf | hf
    · exact .inl hf
    · rw [List.mem_singleton.1 hf] at ha
      rw [ScHolders.ref_of_attaches ha] at href
      cases href

/-- `QuicConnection.close`. -/
theorem Inv.close (h : s.Inv) (hs : s.close i = some s') : s'.Inv := by
  simp only [ScRefs.close, Option.ite_none_right_eq_some, Option.some.injEq] at hs
  obtain ⟨-, rfl⟩ := hs
  have hclosed : Inv { s with
      engine := { s.engine with
        conns := Function.update s.engine.conns i { s.engine.conns i with closed := true } } } := by
    have hsame : ∀ j, ScHolders.SameScs
      (Function.update s.engine.conns i { s.engine.conns i with closed := true } j)
        (s.engine.conns j) := by
      intro j
      by_cases hj : j = i
      · subst hj
        rw [Function.update_self]
        exact ⟨rfl, rfl, rfl, fun _ => rfl, rfl⟩
      · rw [Function.update_of_ne hj]
        exact ⟨rfl, rfl, rfl, id, rfl⟩
    exact ⟨h.balanced, fun hphase => (h.python hphase).setConns _ rfl hsame,
      fun hphase => (h.running hphase).setConns _ rfl rfl hsame⟩
  exact hclosed.pushPlain rfl

/-! ## Teardown -/

theorem swept_ref (l : List Entry) : (l.map swept).filterMap Entry.ref = [] := by
  rw [List.filterMap_map, List.filterMap_eq_nil_iff]
  intro e _
  simp only [Function.comp_apply, swept]
  split
  · simp [Entry.ref]
  · rename_i hown
    simp [Entry.ref, hown]

/-- The holders after `_shutdown`. -/
theorem Inv.shutdown_balanced (h : s.Inv) :
    Balanced word s.shutdown.refs s.shutdown.made s.shutdown.holders := by
  have hswept : Balanced word (Counted.dropAll word s.refs (s.tx.filterMap Entry.ref)) s.made
      (ScHolders.holders { s.toScHolders with tx := s.tx.map swept }) := by
    apply h.balanced.dropAll
    intro y
    simp only [ScHolders.holders, swept_ref, List.count_nil]
    omega
  have hbatch : Balanced word
      (Counted.dropAll word (Counted.dropAll word s.refs (s.tx.filterMap Entry.ref)) s.batch) s.made
      (ScHolders.holders { s.toScHolders with tx := s.tx.map swept, batch := [] }) := by
    apply hswept.dropAll
    intro y
    simp only [ScHolders.holders, List.count_nil]
    omega
  refine hbatch.dropAll (l := (s.deferred.filter (·.cnx ∈ s.live)).map (·.streamCtx)) fun y => ?_
  have hsplit := count_filter_map s.deferred (fun e => decide (e.cnx ∈ s.live)) y
  have hclose : (s.live.map fun cnx => ({ evtType := .close, cnxPtr := cnx } : RawEvent)).filterMap
    RawEvent.ref =
      [] := by
    rw [List.filterMap_map, List.filterMap_eq_nil_iff]
    intro cnx _
    simp [RawEvent.ref]
  simp only [← decide_not] at hsplit
  show ScHolders.holders { s.toScHolders with tx := s.tx.map swept, batch := [] } y =
    ScHolders.holders { s.toScHolders with
      tx := s.tx.map swept
      batch := []
      deferred := s.deferred.filter (·.cnx ∉ s.live)
      rx := s.rx ++ s.live.map fun cnx => { evtType := .close, cnxPtr := cnx } } y + _
  simp only [ScHolders.holders, List.filterMap_append, hclose, List.append_nil]
  rw [hsplit]
  omega

/-- The Python side after `_shutdown`: the batch is empty, and so are the events. -/
theorem Inv.shutdown_python (h : s.Inv) (hphase : s.phase = .running) (hev : s.events = []) :
    s.shutdown.toScHolders.Python := by
  have hp := h.python (by simp [hphase])
  have hnone : ∀ sc, ¬ s.Retired sc := by
    rintro sc ⟨-, e, he, -⟩
    rw [hev] at he
    exact absurd he List.not_mem_nil
  exact { hp with
    owned := fun i sc hsc => .inl ((hp.owned i sc hsc).resolve_right (hnone sc))
    stopped := fun _ => hev }

theorem Inv.shutdown (h : s.Inv) (hphase : s.phase = .running) (hev : s.events = []) :
    s.shutdown.Inv :=
  ⟨h.shutdown_balanced, fun _ => h.shutdown_python hphase hev, fun hrunning => nomatch hrunning⟩

theorem Inv.closeServer (h : s.Inv) (hphase : s.phase = .stopped) : s.closeServer.Inv := by
  refine ⟨h.balanced, fun _ => ?_, fun hrunning => nomatch hphase.symm.trans hrunning⟩
  refine (h.python (by simp [hphase])).setConns _ rfl fun j => ?_
  show ScHolders.SameScs (if s.engine.connections (s.engine.conns j).cnxPtr = some j then
    { s.engine.conns j with dgramRing := 0 } else s.engine.conns j) (s.engine.conns j)
  split <;> exact ⟨rfl, rfl, rfl, id, rfl⟩

theorem Inv.closeClient (h : s.Inv) (hphase : s.phase = .stopped) (hrole : s.role = .client) :
    s.closeClient.Inv := by
  have hp := h.python (by simp [hphase])
  have hnone : ∀ sc, ¬ s.Retired sc := by
    rintro sc ⟨-, e, he, -⟩
    rw [hp.stopped hphase] at he
    exact absurd he List.not_mem_nil
  have hlife : ∀ sc ∈ (s.conn 0).owned, sc ∈ s.lifetime := fun sc hsc =>
    (hp.owned 0 sc hsc).resolve_right (hnone sc)
  have hgiven : (∅ ∪ (s.engine.conns 0).scOwned : Finset ℕ) = (s.conn 0).owned := by
    rw [Finset.empty_union]
    rfl
  simp only [ScRefs.closeClient, QuicConnection.destroyStreamCtxs, handlerTransport, hgiven]
  refine ⟨?_, fun _ => ?_, fun hrunning => absurd (hphase.symm.trans hrunning) (by simp)⟩
  · apply h.balanced.dropSet
    intro y
    show s.holders y = ScHolders.holders
      { s.toScHolders with lifetime := s.lifetime \ (s.conn 0).owned } y + _
    by_cases hy : y ∈ (s.conn 0).owned
    · simp only [ScHolders.holders, Finset.mem_sdiff, hlife y hy, hy]
      simp
      omega
    · simp only [ScHolders.holders, Finset.mem_sdiff, hy]
      simp
  · exact hp.clear hrole rfl _

/-- `stop()` or `close()`, with no drained event left to route. -/
theorem Inv.stop (h : s.Inv) (hev : s.events = []) (hs : s.stop = some s') : s'.Inv := by
  simp only [ScRefs.stop, Option.ite_none_right_eq_some] at hs
  obtain ⟨hphase, hs⟩ := hs
  have hinv := h.shutdown hphase hev
  split at hs
  · obtain rfl := Option.some.inj hs
    exact hinv.closeServer rfl
  · rename_i hrole
    obtain rfl := Option.some.inj hs
    exact hinv.closeClient rfl hrole

/-- `TransportContext.__dealloc__`. -/
theorem Inv.dealloc (h : s.Inv) (hs : s.dealloc = some s') : s'.Inv := by
  simp only [ScRefs.dealloc, Option.ite_none_left_eq_some, Option.some.injEq] at hs
  obtain ⟨-, rfl⟩ := hs
  refine ⟨?_, fun hgone => absurd rfl hgone, fun hrunning => nomatch hrunning⟩
  apply h.shutdown_balanced.dropAll
  intro y
  show s.shutdown.holders y = ScHolders.holders
    { s.shutdown.toScHolders with rx := [], deferred := [] } y + _
  simp only [ScHolders.holders, List.count_append, List.filterMap_nil, List.map_nil, List.count_nil]
  omega

end ScRefs

end Aiopquic
