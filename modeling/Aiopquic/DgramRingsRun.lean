import Aiopquic.DgramRingsInv

/-!
# Every run of the datagram rings

The drains and the worker's commands keep the invariant, so datagrams stay with their connection.
-/

namespace Aiopquic

open QuicEngine (Tagged)

namespace DgramRings

variable {home : ℕ → ℕ} {s s' : DgramRings}

/-! Drains. -/

/-- The ring of a connection that has ended is released. -/
theorem Inv.releaseRing (h : s.Inv home) {cnx inst : ℕ} (hh : s.held cnx = some inst)
    (he : ∀ a, s.cnxs a = some inst → inst ∈ s.ended) (posts : Bool) :
    (s.releaseRing cnx inst posts).Inv home := by
  have hset : (s.setDgram cnx {}).Inv home := by
    refine { h with dgram := fun a ha => ?_, only := fun a j r hj hne hr ho => ?_ }
    · by_cases hac : a = cnx
      · subst hac
        simp [DgramRings.setDgram] at ha
      · simp only [DgramRings.setDgram, Function.update_of_ne hac] at ha ⊢
        exact h.dgram a ha
    · have hac : a ≠ cnx := by
        rintro rfl
        -- the connection at this address has ended
        have hj' : j = inst := h.base.held a inst hh j hj
        exact hne (hj' ▸ he a (hj' ▸ hj))
      simp only [DgramRings.setDgram, Function.update_of_ne hac]
      exact h.only a j r hj hne hr ho
  have hrel : (s.dgram cnx).ring ≠ 0 → s.IsRing (s.dgram cnx).ring ∧
      ∀ a, s.cnxs a = some (s.owner (s.dgram cnx).ring) → s.owner (s.dgram cnx).ring ∈ s.ended := by
    intro h0
    obtain ⟨hring, hheld⟩ := h.dgram cnx h0
    have hown : s.owner (s.dgram cnx).ring = inst := Option.some.inj (hheld.symm.trans hh)
    exact ⟨hring, fun a ha => hown ▸ he a (hown ▸ ha)⟩
  unfold DgramRings.releaseRing
  dsimp only
  split
  · exact hset
  rename_i h0
  split
  · exact hset.append (hset.base.release rfl) (fun hty => by simp [releaseEntry] at hty)
      fun _ => hrel h0
  · refine { hset with releases := fun q hq hty => ?_, releaseOwed := fun q hq => ?_ }
    · rw [← List.append_assoc] at hq
      rcases List.mem_append.1 hq with hq | hq
      · exact hset.releases q hq hty
      · cases List.mem_singleton.1 hq
        exact hrel h0
    · rcases List.mem_append.1 hq with hq | hq
      · exact hset.releaseOwed q hq
      · cases List.mem_singleton.1 hq
        rfl

/-- The queue and the table of connections after an event. -/
theorem Inv.drain (h : s.Inv home) {e : Tagged} {rx : List Tagged} (hrx : s.rx = e :: rx)
    (hd : ∀ a, (s.dgram a).ring ≠ 0 → TxCommands.drained .server s.held e a = s.held a) :
    Inv home { s with rx := rx, held := TxCommands.drained s.role s.held e } := by
  have hmem : ∀ e' ∈ rx, e' ∈ s.rx := fun e' he' => hrx ▸ List.mem_cons_of_mem _ he'
  refine
    { h with
      base := h.base.drain hrx
      held := fun a i hi => ?_
      rx := fun e' he' => h.rx e' (hmem e' he')
      closes := fun e' he' => h.closes e' (hmem e' he')
      dgram := fun a ha => ⟨(h.dgram a ha).1, ?_⟩ }
  · rcases TxCommands.drained_cases hi with hi | ⟨rfl, rfl⟩
    · exact h.held a i hi
    · exact h.rx e (hrx ▸ List.mem_cons_self)
  · show TxCommands.drained s.role s.held e a = _
    rw [h.server, hd a ha]
    exact (h.dgram a ha).2

theorem releaseRing_frame (s : DgramRings) (cnx inst : ℕ) (posts : Bool) :
    (s.releaseRing cnx inst posts).held = s.held ∧ (s.releaseRing cnx inst posts).rx = s.rx ∧
      (s.releaseRing cnx inst posts).dgram = Function.update s.dgram cnx {} := by
  unfold DgramRings.releaseRing
  dsimp only
  split
  · exact ⟨rfl, rfl, rfl⟩
  · split <;> exact ⟨rfl, rfl, rfl⟩

/-- What draining an event does to the datagram side: everything is as before, or the connection at
the event's address has no ring any more. -/
theorem Inv.drainDgram (h : s.Inv home) {e : Tagged} (he : e ∈ s.rx) (posts : Bool) :
    (s.drainDgram e posts).Inv home ∧ (s.drainDgram e posts).held = s.held ∧
      (s.drainDgram e posts).rx = s.rx ∧ ∀ a, ((s.drainDgram e posts).dgram a).ring ≠ 0 →
        TxCommands.drained .server s.held e a = s.held a := by
  have hother : ∀ a, a ≠ e.ev.cnxPtr → TxCommands.drained .server s.held e a = s.held a := by
    intro a ha
    simp only [TxCommands.drained]
    split
    · exact Function.update_of_ne ha _ _
    · split
      · exact Function.update_of_ne ha _ _
      · rfl
  have hclear : ∀ a, ((Function.update s.dgram e.ev.cnxPtr {}) a).ring ≠ 0 →
      TxCommands.drained .server s.held e a = s.held a := by
    intro a ha
    refine hother a ?_
    rintro rfl
    simp at ha
  unfold DgramRings.drainDgram
  cases hh : s.held e.ev.cnxPtr with
  | none =>
    -- a connection that Python does not have has no ring
    have hzero : (s.dgram e.ev.cnxPtr).ring = 0 := by
      by_contra h0
      exact absurd ((h.dgram _ h0).2.symm.trans hh) (by simp)
    dsimp only
    split
    · refine ⟨h, rfl, rfl, fun a ha => hother a ?_⟩
      rintro rfl
      exact ha hzero
    · exact ⟨h.setDgram hzero.symm, rfl, rfl, hclear⟩
  | some inst =>
    have hsame : e.ev.isClose = false → TxCommands.drained .server s.held e = s.held := by
      intro hcl
      simp [TxCommands.drained, hcl, hh]
    dsimp only
    split
    · rename_i hcl
      obtain ⟨hheld, hrx, hdgram⟩ := releaseRing_frame s e.ev.cnxPtr inst posts
      refine ⟨h.releaseRing hh (fun a ha => ?_) posts, hheld, hrx, ?_⟩
      · -- wherever the connection is, it is the one whose close is drained
        have hac : a = e.ev.cnxPtr := (h.cnxs a inst ha).1.symm.trans (h.held _ inst hh).1
        subst hac
        rw [h.base.rx e he inst ha]
        exact h.closes e he hcl
      · rw [hdgram]
        exact hclear
    · rename_i hcl
      have hcl' : e.ev.isClose = false := by simpa using hcl
      split
      · exact ⟨h.repost hh posts, repost_held _ _ _ _, by unfold DgramRings.repost; split <;> rfl,
          fun a _ => congrFun (hsame hcl') a⟩
      · exact ⟨h, rfl, rfl, fun a _ => congrFun (hsame hcl') a⟩

/-! The worker's commands. -/

theorem Inv.popDgram (h : s.Inv home) {q : Command} (hq : q ∈ s.ring) {allocates : Bool}
    (ha : allocates = true) : (s.popDgram q allocates).Inv home := by
  unfold DgramRings.popDgram
  split
  · exact h
  rename_i h0
  split
  · rename_i hty
    obtain ⟨hring, hend⟩ := h.releases q (List.mem_append_left _ hq) hty
    unfold removeRing
    split
    · rename_i ht
      refine h.remove fun j hj => ?_
      have hown := (h.table _ _ ht).2 j hj
      exact hown ▸ hend _ (hown ▸ hj)
    · exact h
  · split
    · rename_i hty
      obtain ⟨j, hj⟩ := Option.ne_none_iff_exists'.1 hty.2
      have hji : j = q.inst := h.base.ring q hq (by simp [hty.1]) j hj
      subst hji
      obtain ⟨hring, hown⟩ := h.marks q hq hty.1 h0
      have hput : ∀ a, put s.table q.entry.cnx q.entry.streamCtx allocates a = s.table a ∨
          a = q.entry.cnx ∧ put s.table q.entry.cnx q.entry.streamCtx allocates a =
            some q.entry.streamCtx := by
        intro a
        unfold put
        split
        · by_cases hac : a = q.entry.cnx
          · subst hac
            exact .inr ⟨rfl, Function.update_self _ _ _⟩
          · exact .inl (Function.update_of_ne hac _ _)
        · exact .inl rfl
      have hsome : put s.table q.entry.cnx q.entry.streamCtx allocates q.entry.cnx ≠ none := by
        unfold put
        split
        · simp
        · rename_i hn
          exact fun ht => hn ⟨ha, ht⟩
      refine
        { h with
          table := fun a r hr => ?_
          markedLt := fun i hi => ?_
          marked := fun a i hi hne hm => ?_ }
      · rcases hput a with heq | ⟨rfl, heq⟩
        · exact h.table a r (heq.symm.trans hr)
        · obtain rfl := Option.some.inj (heq.symm.trans hr)
          exact ⟨hring, fun i hi => hown.trans (Option.some.inj (hj.symm.trans hi))⟩
      · rcases List.mem_append.1 hi with hi | hi
        · exact h.markedLt i hi
        · rw [List.mem_singleton.1 hi]
          exact (h.cnxs _ _ hj).2
      · rcases List.mem_append.1 hm with hm | hm
        · have hold := h.marked a i hi hne hm
          rcases hput a with heq | ⟨rfl, -⟩
          · exact fun hn => hold (heq.symm.trans hn)
          · exact hsome
        · have hac : a = q.entry.cnx := by
            have hiq : i = q.inst := List.mem_singleton.1 hm
            rw [← (h.cnxs a i hi).1, ← (h.cnxs _ _ hj).1, hiq]
          rw [hac]
          exact hsome
    · exact h

theorem popDgram_base (s : DgramRings) (q : Command) (allocates : Bool) :
    (s.popDgram q allocates).toTxCommands = s.toTxCommands := by
  unfold DgramRings.popDgram
  split
  · rfl
  · split
    · rfl
    · split <;> rfl

theorem Inv.pop (h : s.Inv home) {q : Command} {ring : List Command} (hring : s.ring = q :: ring)
    {v : CnxView} (hs : s.lift (.pop v) = some s') : s'.Inv home := by
  obtain ⟨b, hb, rfl⟩ := Option.map_eq_some_iff.1 hs
  have hbase := h.base.step (show s.toTxCommands.Forgotten (.pop v) from trivial) hb
  simp only [TxCommands.step, hring, Option.some.injEq] at hb
  have hsame := TxCommands.handle_same { s.toTxCommands with ring := ring } v q
  rw [hb] at hsame
  refine h.ofBase hbase ⟨hsame.role, hsame.cnxs, hsame.created, hsame.held, hsame.rx⟩
    fun p hp => .inl ?_
  rw [hsame.ring] at hp
  exact hring ▸ List.mem_cons_of_mem _ hp

theorem Inv.prepareDatagram (h : s.Inv home) {cnx inst : ℕ} (hc : s.cnxs cnx = some inst)
    (length : ℕ)
    (buffer : Bool) : (s.prepareDatagram cnx inst length buffer).Inv home := by
  unfold DgramRings.prepareDatagram
  cases ht : s.table cnx with
  | none => exact h
  | some r =>
    dsimp only
    cases hr : s.rings r with
    | nil => exact h
    | cons rec rest =>
      dsimp only
      split
      · have hown : s.owner r = inst := (h.table cnx r ht).2 inst hc
        have hrec : rec ∈ s.rings r := hr ▸ List.mem_cons_self
        refine
          { h with
            rings := fun r' rec' hmem => h.rings r' rec' ?_
            kept := fun r' rec' hmem => ?_
            handed := fun i rec' hmem => ?_ }
        · by_cases hrr : r' = r
          · subst hrr
            simp only [Function.update_self] at hmem
            exact hr ▸ List.mem_cons_of_mem _ hmem
          · simpa only [Function.update_of_ne hrr] using hmem
        · rcases h.kept r' rec' hmem with hk | hk
          · by_cases hrr : r' = r
            · subst hrr
              rw [hr] at hk
              rcases List.mem_cons.1 hk with rfl | hk
              · exact .inr (List.mem_append_right _ (by simp [hown]))
              · simp only [Function.update_self]
                exact .inl hk
            · simp only [Function.update_of_ne hrr]
              exact .inl hk
          · exact .inr (List.mem_append_left _ hk)
        · rcases List.mem_append.1 hmem with hmem | hmem
          · exact h.handed i rec' hmem
          · obtain ⟨rfl, rfl⟩ := Prod.mk.inj (List.mem_singleton.1 hmem)
            exact (h.accepted r _ (h.rings r _ hrec)).2.trans hown
      · exact h

theorem Inv.flush (h : s.Inv home) {q : Command} {owed : List Command} (ho : s.owed = q :: owed)
    (hs : { s with owed := owed }.lift (.release q.entry q.inst) = some s') : s'.Inv home := by
  have hty := h.releaseOwed q (ho ▸ List.mem_cons_self)
  have hsub : ∀ p ∈ s.ring ++ owed, p ∈ s.ring ++ s.owed := by
    intro p hp
    rcases List.mem_append.1 hp with hp | hp
    · exact List.mem_append_left _ hp
    · exact List.mem_append_right _ (ho ▸ List.mem_cons_of_mem _ hp)
  have hrest : Inv home { s with owed := owed } :=
    { h with
      releases := fun p hp => h.releases p (hsub p hp)
      releaseOwed := fun p hp => h.releaseOwed p (ho ▸ List.mem_cons_of_mem _ hp) }
  obtain ⟨b, hb, rfl⟩ := Option.map_eq_some_iff.1 hs
  simp only [TxCommands.step, hty, if_true, Option.some.injEq] at hb
  subst hb
  refine hrest.append (hrest.base.release hty) (fun hm => by simp [hty] at hm) fun _ => ?_
  exact h.releases q (List.mem_append_right _ (ho ▸ List.mem_cons_self)) hty

/-- A step that leaves the datagrams alone. -/
theorem Inv.other (h : s.Inv home) {act : TxCommands.Act} (hsp : Spares act)
    (hf : s.Fresh (.other act)) (hs : s.lift act = some s') : ∃ home', s'.Inv home' := by
  obtain ⟨b, hb, rfl⟩ := Option.map_eq_some_iff.1 hs
  have hbase := h.base.step hf.1 hb
  cases act with
  | create cnx =>
    simp only [TxCommands.step] at hb
    split at hb
    · rename_i hfree
      cases hb
      exact ⟨_, h.create hf.1 hf.2 hfree.2⟩
    · cases hb
  | free cnx =>
    simp only [TxCommands.step] at hb
    split at hb
    · cases hb
    · cases hb
      exact ⟨home, h.free cnx⟩
  | push entry =>
    simp only [TxCommands.step] at hb
    split at hb
    · cases hb
    · cases hb
      refine ⟨home, h.ofBase hbase ⟨rfl, rfl, rfl, rfl, rfl⟩ fun q hq => ?_⟩
      rcases List.mem_append.1 hq with hq | hq
      · exact .inl hq
      · cases List.mem_singleton.1 hq
        exact .inr hsp
  | afterSend k v =>
    simp only [TxCommands.step] at hb
    split at hb
    · cases hb
    · rename_i q hq
      cases hb
      by_cases hcl : v.closing
      · rw [if_pos hcl] at hbase ⊢
        exact ⟨home, h.ofBase hbase ⟨rfl, rfl, rfl, rfl, rfl⟩ fun _ hp => .inl hp⟩
      · rw [if_neg hcl] at hbase ⊢
        have hsame := TxCommands.apply_same
          { s.toTxCommands with deferred := s.deferred.eraseIdx k } q
          (resetCalls v q.entry)
        exact ⟨home, h.ofBase hbase ⟨hsame.role, hsame.cnxs, hsame.created, hsame.held, hsame.rx⟩
          fun _ hp => .inl (hsame.ring ▸ hp)⟩
  | callback _ _ => exact hsp.elim
  | drain => exact hsp.elim
  | release _ _ => exact hsp.elim
  | pop _ => exact hsp.elim

theorem Inv.step {act : Act} (h : s.Inv home) (hf : s.Fresh act) (hs : s.step act = some s') :
    ∃ home', s'.Inv home' := by
  cases act with
  | other act =>
    simp only [DgramRings.step] at hs
    split at hs
    · rename_i hsp
      exact h.other hsp hf hs
    · cases hs
  | callback cnx cb =>
    simp only [DgramRings.step] at hs
    split at hs
    · cases hs
    · rename_i inst hc
      have hbase : (s.endDgram cnx inst cb.event).cnxs = s.cnxs := by
        unfold DgramRings.endDgram
        split
        · rfl
        · split <;> rfl
      refine ⟨home, (h.endDgram hc cb.event).callback (hbase ▸ hc) (fun hcl => ?_) hs⟩
      have hev : cb.event = .close ∨ cb.event = .applicationClose := of_decide_eq_true hcl
      unfold DgramRings.endDgram
      rw [if_pos hev]
      exact List.mem_append_right _ (List.mem_singleton_self inst)
  | drain posts =>
    simp only [DgramRings.step] at hs
    split at hs
    · cases hs
    · rename_i e rx hrx
      obtain ⟨hinv, hheld, hrx', hd⟩ := h.drainDgram (hrx ▸ List.mem_cons_self) posts
      obtain ⟨b, hb, rfl⟩ := Option.map_eq_some_iff.1 hs
      simp only [TxCommands.step, hrx', hrx, Option.some.injEq] at hb
      subst hb
      exact ⟨home, hinv.drain (hrx'.trans hrx) (by rwa [hheld])⟩
  | send cnx data answers =>
    simp only [DgramRings.step] at hs
    split at hs
    · cases hs
    · rename_i inst hh
      cases hs
      exact ⟨home, h.sendDatagramFrame hh data answers⟩
  | flush =>
    simp only [DgramRings.step] at hs
    split at hs
    · cases hs
    · rename_i q owed ho
      exact ⟨home, h.flush ho hs⟩
  | pop v allocates =>
    simp only [DgramRings.step] at hs
    split at hs
    · cases hs
    · rename_i q ring hring
      have hring' : (s.popDgram q allocates).ring = q :: ring := by
        rw [popDgram_base]
        exact hring
      exact ⟨home, (h.popDgram (hring ▸ List.mem_cons_self) hf).pop hring' hs⟩
  | prepare cnx length buffer =>
    simp only [DgramRings.step] at hs
    split at hs
    · cases hs
    · rename_i inst hc
      cases hs
      exact ⟨home, h.prepareDatagram hc length buffer⟩

theorem inv_init : Inv (fun _ => 0) {} where
  base := ⟨fun _ _ h => absurd h (by simp), fun _ h => absurd h (by simp), fun _ h =>
    absurd h (by simp),
    fun _ h => absurd h (by simp), fun _ h => absurd h (by simp)⟩
  server := rfl
  cnxs := fun _ _ h => absurd h (by simp)
  held := fun _ _ h => absurd h (by simp)
  rx := fun _ h => absurd h (by simp)
  closes := fun _ h => absurd h (by simp)
  accepted := fun _ _ h => absurd h (by simp)
  rings := fun _ _ h => absurd h (by simp)
  owner := fun _ h => absurd h.2 (by simpa using h.1)
  table := fun _ _ h => absurd h (by simp)
  marks := fun _ h => absurd h (by simp)
  dgram := fun _ h => absurd h (by simp)
  only := fun _ _ _ h => absurd h (by simp)
  releases := fun _ h => absurd h (by simp)
  releaseOwed := fun _ h => absurd h (by simp)
  markedLt := fun _ h => absurd h (by simp)
  marked := fun _ _ h => absurd h (by simp)
  kept := fun _ _ h => absurd h (by simp)
  handed := fun _ _ h => absurd h (by simp)

instance (s : DgramRings) : ∀ act, Decidable (s.Fresh act)
  | .other (.create cnx) =>
    inferInstanceAs (Decidable (s.toTxCommands.Forgotten (.create cnx) ∧ _ = none))
  | .other (.free _) | .other (.push _) | .other (.afterSend _ _) | .other (.callback _ _) |
      .other .drain
  | .other (.release _ _) | .other (.pop _) => .isTrue ⟨trivial, trivial⟩
  | .pop _ allocates => inferInstanceAs (Decidable (allocates = true))
  | .callback _ _ | .drain _ | .send _ _ _ | .flush | .prepare _ _ _ => .isTrue trivial

/-- A connection that ends with a stateless reset leaves its ring in the table. -/
def resetActs : List Act :=
  [.other (.create 16), .callback 16 { event := .ready }, .drain true, .send 16 [1] {},
    .pop {} true,
    .callback 16 { event := .statelessReset }, .other (.free 16), .other (.create 16),
      .prepare 16 1200 true]

end DgramRings

end Aiopquic
