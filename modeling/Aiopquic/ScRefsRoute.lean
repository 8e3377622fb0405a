import Aiopquic.ScRefsInv
import Mathlib.Data.Finset.Lattice.Lemmas

/-!
# Routing an event keeps the facts about contexts

An event reaches the connection that owns its contexts: homes tell the connections apart, and the
engine's table names a connection for as long as it owns any. So a `STREAM_DESTROY` takes its
context from the one that owns it, an adopted context still has its stream's reference, and a close
gives up references that are there.
-/

namespace Aiopquic

open Counted

namespace ConnScs

variable {c : ConnScs} {ev : RawEvent} {sc streamId : ℕ}

/-- A context that an event adopts. -/
def Adopts (c : ConnScs) (ev : RawEvent) (sc : ℕ) : Prop :=
  rxEventOwnsSc ev.evtType ∧ ev.streamCtxPtr ≠ 0 ∧ c.dropped = false ∧ sc = ev.streamCtxPtr

theorem Adopts.carries (h : c.Adopts ev sc) : ev.Carries := ⟨h.2.1, .inl h.1⟩

theorem Adopts.not_destroy (h : c.Adopts ev sc) : ev.evtType ≠ .streamDestroy := by
  intro hd
  simpa [rxEventOwnsSc, hd] using h.1

theorem not_owns_of_isClose (h : ev.isClose) :
    rxEventOwnsSc ev.evtType = false ∧ ev.evtType ≠ .streamDestroy := by
  rcases (by simpa [RawEvent.isClose] using h : ev.evtType = .close ∨ ev.evtType = .appClose) with
    h | h <;>
    simp [rxEventOwnsSc, h]

theorem handle_of_isClose (h : ev.isClose) :
    c.handle ev = { owned := ∅, ctxs := fun _ => none, dropped := true, closed := true } := by
  obtain ⟨hown, hd⟩ := not_owns_of_isClose h
  rw [handle, if_neg (by simp [hown]), if_neg hd, if_pos h]

/-- What is owned after an event was owned before, or adopted. -/
theorem mem_handle_owned (h : sc ∈ (c.handle ev).owned) : sc ∈ c.owned ∨ c.Adopts ev sc := by
  unfold handle at h
  split at h
  · rename_i hown
    split at h
    · rename_i hc
      rcases Finset.mem_insert.1 h with h | h
      · exact .inr ⟨hown, hc.1, hc.2, h⟩
      · exact .inl h
    · exact .inl h
  · split at h
    · exact .inl (Finset.mem_of_mem_erase h)
    · split at h
      · exact absurd h (Finset.notMem_empty sc)
      · exact .inl h

/-- Only a close leaves less than the event's own context. -/
theorem handle_owned_of_mem (h : sc ∈ c.owned) (hcl : ev.isClose = false)
    (hd : ev.evtType = .streamDestroy → sc ≠ ev.streamCtxPtr) : sc ∈ (c.handle ev).owned := by
  unfold handle
  split
  · split
    · exact Finset.mem_insert_of_mem h
    · exact h
  · split
    · rename_i hev
      exact Finset.mem_erase.2 ⟨hd hev, h⟩
    · rw [if_neg (by simp [hcl])]
      exact h

theorem handle_ctxs (h : (c.handle ev).ctxs streamId = some sc) :
    c.ctxs streamId = some sc ∧ (ev.evtType = .streamDestroy → streamId ≠ ev.streamId) ∧
    ev.isClose = false ∨
      c.Adopts ev sc ∧ streamId = ev.streamId := by
  cases hcl : ev.isClose with
  | true =>
    rw [handle_of_isClose hcl] at h
    cases h
  | false =>
    unfold handle at h
    split at h
    · rename_i hown
      have hnd : ev.evtType ≠ .streamDestroy := by
        intro hd
        simp [rxEventOwnsSc, hd] at hown
      split at h
      · rename_i hc
        simp only at h
        split at h
        · by_cases hst : streamId = ev.streamId
          · subst hst
            rw [Function.update_self, Option.some.injEq] at h
            exact .inr ⟨⟨hown, hc.1, hc.2, h.symm⟩, rfl⟩
          · rw [Function.update_of_ne hst] at h
            exact .inl ⟨h, fun hd => absurd hd hnd, rfl⟩
        · exact .inl ⟨h, fun hd => absurd hd hnd, rfl⟩
      · exact .inl ⟨h, fun hd => absurd hd hnd, rfl⟩
    · split at h
      · by_cases hst : streamId = ev.streamId
        · subst hst
          simp at h
        · simp only [Function.update_of_ne hst] at h
          exact .inl ⟨h, fun _ => hst, rfl⟩
      · rename_i hnd
        rw [if_neg (by simp [hcl])] at h
        exact .inl ⟨h, fun hd => absurd hd hnd, rfl⟩

/-- The flags change at a close only. -/
theorem handle_flags (hcl : ev.isClose = false) :
    (c.handle ev).dropped = c.dropped ∧ (c.handle ev).closed = c.closed := by
  unfold handle
  split
  · split <;> exact ⟨rfl, rfl⟩
  · split
    · exact ⟨rfl, rfl⟩
    · rw [if_neg (by simp [hcl])]
      exact ⟨rfl, rfl⟩

end ConnScs

namespace ScHolders

variable {s : ScHolders}

/-- The connection that the events of an address go to is `i`. -/
def Routes (s : ScHolders) (cnx i : ℕ) : Prop :=
  match s.role with
  | .server => s.engine.connections cnx = some i
  | .client => i = 0

theorem Routes.unique {cnx i j : ℕ} (hi : s.Routes cnx i) (hj : s.Routes cnx j) : i = j := by
  cases hrole : s.role with
  | server =>
    simp only [Routes, hrole] at hi hj
    exact Option.some.inj (hi.symm.trans hj)
  | client =>
    simp only [Routes, hrole] at hi hj
    rw [hi, hj]

/-- A connection that owns a context has the number of an existing one, and has not let go of its
contexts. -/
theorem Python.of_owned (h : s.Python) {i sc : ℕ} (hsc : sc ∈ (s.conn i).owned) :
    i < s.engine.made ∧ (s.conn i).dropped = false := by
  constructor
  · by_contra hlt
    rw [h.unmade i (by omega)] at hsc
    exact absurd hsc (Finset.notMem_empty sc)
  · cases hd : (s.conn i).dropped with
    | false => rfl
    | true =>
      rw [(h.dropped i hd).2] at hsc
      exact absurd hsc (Finset.notMem_empty sc)

/-- A context's home tells which connection owns it. -/
theorem Running.routes_of_owned (h : s.Running) (hp : s.Python) {i sc cnx : ℕ}
    (hsc : sc ∈ (s.conn i).owned) (hhome : (s.home sc).1 = s.role.key cnx) : s.Routes cnx i := by
  obtain ⟨hlt, hnd⟩ := hp.of_owned hsc
  have hkey : s.keyOf i = s.role.key cnx := (h.homes i sc hsc).symm.trans hhome
  cases hrole : s.role with
  | server =>
    simp only [Routes, hrole]
    simp only [keyOf, hrole, Role.key] at hkey
    rw [← hkey]
    exact h.table hrole i hlt hnd
  | client =>
    simp only [Routes, hrole]
    have := hp.client hrole
    omega

/-- The connection that an address is routed to has it for a key while it holds on to its
contexts. -/
theorem Running.keyOf_of_routes (h : s.Running) {cnx i : ℕ} (hr : s.Routes cnx i)
    (hnd : (s.conn i).dropped = false) : s.keyOf i = s.role.key cnx := by
  cases hrole : s.role with
  | server =>
    simp only [Routes, hrole] at hr
    simp only [keyOf, hrole, Role.key]
    exact (h.entry hrole cnx i hr).2 hnd
  | client => simp only [keyOf, hrole, Role.key]

/-- What a connection's handler leaves of the engine: connection `i` handled the event. -/
structure Handled (s : ScHolders) (ev : RawEvent) (i : ℕ) (g : QuicEngine) : Prop where
  self : (g.conns i).scs = (s.conn i).handle ev
  others : ∀ j, j ≠ i → (g.conns j).scs = s.conn j ∧ (g.conns j).cnxPtr = (s.engine.conns j).cnxPtr
  ptr : ev.isClose = false → s.role.key (g.conns i).cnxPtr = s.keyOf i
  made : g.made = s.engine.made
  connections : g.connections = s.engine.connections ∨
    ev.isClose ∧ g.connections = Function.update s.engine.connections ev.cnxPtr none

section Handled

variable {ev : RawEvent} {events : List RawEvent} {i : ℕ} {g : QuicEngine}

/-- The stream references that a handler gives up. -/
def given (s : ScHolders) (ev : RawEvent) (i : ℕ) : Finset ℕ := if ev.isClose then
    (s.conn i).owned else ∅

/-- The holders after connection `i` handled the first drained event. -/
def handled (s : ScHolders) (ev : RawEvent) (events : List RawEvent) (i : ℕ) (g : QuicEngine) :
    ScHolders :=
  { s with events := events, engine := g, lifetime := s.lifetime \ s.given ev i }

theorem given_home (h : s.Running) (hp : s.Python) (hr : s.Routes ev.cnxPtr i) {sc : ℕ}
    (hsc : sc ∈ s.given ev i) :
    ev.isClose ∧ sc ∈ (s.conn i).owned ∧ (s.home sc).1 = s.role.key ev.cnxPtr := by
  unfold given at hsc
  split at hsc
  · rename_i hcl
    rw [h.homes i sc hsc]
    exact ⟨hcl, hsc, h.keyOf_of_routes hr (hp.of_owned hsc).2⟩
  · exact absurd hsc (Finset.notMem_empty sc)

/-- An event later in the queue keeps its context covered. -/
theorem handled_covered (h : s.Running) (hp : s.Python) (hev : s.events = ev :: events)
    (hr : s.Routes ev.cnxPtr i) {later : RawEvent} (hmem : later ∈ events ++ s.rx)
    (hc : later.Carries)
    (hcov : later.streamCtxPtr ∈ s.lifetime ∨ s.Retired later.streamCtxPtr) :
    later.streamCtxPtr ∈ (s.handled ev events i g).lifetime ∨
      (s.handled ev events i g).Retired later.streamCtxPtr := by
  have hq : s.events ++ s.rx = ev :: (events ++ s.rx) := by
    rw [hev]
    rfl
  have hprec : Precedes s.role ev later := (List.pairwise_cons.1 (hq ▸ h.order)).1 later hmem
  rcases hcov with hl | ⟨hb, e, he, hce, hde, heq⟩
  · refine .inl (Finset.mem_sdiff.2 ⟨hl, fun hg => ?_⟩)
    obtain ⟨hcl, -, hhome⟩ := given_home h hp hr hg
    have hlater := (h.queue later (hq ▸ List.mem_cons_of_mem _ hmem) hc).2.1
    rw [hlater] at hhome
    exact hprec.1 hcl hhome.symm hc
  · rw [hev] at he
    rcases List.mem_cons.1 he with rfl | he
    · exact absurd heq.symm (hprec.2 hde hc)
    · exact .inr ⟨hb, e, he, hce, hde, heq⟩

theorem Running.handled (h : s.Running) (hp : s.Python) (hev : s.events = ev :: events)
    (hr : s.Routes ev.cnxPtr i) (hg : s.Handled ev i g) : (s.handled ev events i g).Running := by
  have hq : s.events ++ s.rx = ev :: (events ++ s.rx) := by
    rw [hev]
    rfl
  have hin : ev ∈ s.events ++ s.rx := hq ▸ List.mem_cons_self
  have hlater : ∀ e ∈ events ++ s.rx, e ∈ s.events ++ s.rx := fun e he =>
    hq ▸ List.mem_cons_of_mem _ he
  have hkeep : ∀ x k streamId, s.Usable k streamId → s.home x = (k, streamId) → x ∈ s.lifetime →
      x ∈ s.lifetime \ s.given ev i := by
    intro x k streamId hu hhome hx
    refine Finset.mem_sdiff.2 ⟨hx, fun hg => ?_⟩
    obtain ⟨hcl, -, hk⟩ := given_home h hp hr hg
    rw [hhome] at hk
    exact h.closed ev hin hcl streamId (hk ▸ hu)
  have hfits : ∀ e, s.Fits e → (s.handled ev events i g).Fits e := by
    intro e he
    exact ⟨he.1, fun hu => hkeep _ _ _ (usable_of_usableAt hu) he.1 (he.2 hu)⟩
  have hkey : ∀ j, j ≠ i → (s.handled ev events i g).keyOf j = s.keyOf j := by
    intro j hj
    show s.role.key (g.conns j).cnxPtr = s.keyOf j
    rw [(hg.others j hj).2]
    rfl
  have hopen : (g.conns i).scs.dropped = false → ev.isClose = false ∧ (s.conn i).dropped =
    false := by
    intro hnd
    rw [hg.self] at hnd
    have hcl : ev.isClose = false := by
      by_contra hcl
      rw [ConnScs.handle_of_isClose (by simpa using hcl)] at hnd
      exact nomatch hnd
    exact ⟨hcl, (ConnScs.handle_flags hcl).1 ▸ hnd⟩
  have hself : ∀ sc, (s.conn i).Adopts ev sc → (s.handled ev events i g).keyOf i =
    s.role.key ev.cnxPtr := by
    intro sc ha
    have hcl : ev.isClose = false := by
      by_contra hcl
      have := (ConnScs.not_owns_of_isClose (by simpa using hcl)).1
      simp [ha.1] at this
    exact (hg.ptr hcl).trans (h.keyOf_of_routes hr ha.2.2.1)
  constructor
  case pos => exact h.pos
  case inj => exact h.inj
  case attached =>
    intro a streamId hu hne
    obtain ⟨hhome, hlife⟩ := h.attached a streamId hu hne
    exact ⟨hhome, hkeep _ _ _ (usable_of_usableAt hu) hhome hlife⟩
  case tx => exact fun e he ha => hfits e (h.tx e he ha)
  case deferred => exact fun e he => hfits e (h.deferred e he)
  case notes => exact h.notes
  case queue =>
    intro e he hc
    obtain ⟨hpos, hhome, hcov⟩ := h.queue e (hlater e he) hc
    exact ⟨hpos, hhome, handled_covered h hp hev hr he hc hcov⟩
  case closed => exact fun e he => h.closed e (hlater e he)
  case destroyed => exact fun e he => h.destroyed e (hlater e he)
  case order => exact (List.pairwise_cons.1 (hq ▸ h.order)).2
  case homes =>
    intro j sc hsc
    by_cases hj : j = i
    · subst hj
      have hsc : sc ∈ ((s.conn j).handle ev).owned := hg.self ▸ hsc
      rcases ConnScs.mem_handle_owned hsc with hold | ha
      · have hcl : ev.isClose = false := by
          by_contra hcl
          rw [ConnScs.handle_of_isClose (by simpa using hcl)] at hsc
          exact absurd hsc (Finset.notMem_empty sc)
        exact (h.homes j sc hold).trans (hg.ptr hcl).symm
      · rw [hself sc ha, ha.2.2.2]
        show (s.home ev.streamCtxPtr).1 = _
        rw [(h.queue ev hin ha.carries).2.1]
    · have hsc : sc ∈ (s.conn j).owned := (hg.others j hj).1 ▸ hsc
      rw [hkey j hj]
      exact h.homes j sc hsc
  case ctxHomes =>
    intro j streamId sc hsc
    by_cases hj : j = i
    · subst hj
      have hsc : ((s.conn j).handle ev).ctxs streamId = some sc := hg.self ▸ hsc
      rcases ConnScs.handle_ctxs hsc with ⟨hold, -, hcl⟩ | ⟨ha, hst⟩
      · exact (h.ctxHomes j streamId sc hold).trans (by rw [← hg.ptr hcl]; rfl)
      · rw [hself sc ha, ha.2.2.2, hst]
        exact (h.queue ev hin ha.carries).2.1
    · have hsc : (s.conn j).ctxs streamId = some sc := (hg.others j hj).1 ▸ hsc
      rw [hkey j hj]
      exact h.ctxHomes j streamId sc hsc
  case table =>
    intro hserver j hlt hnd
    have hrole : s.role = .server := hserver
    have hj : j < s.engine.made := hg.made ▸ hlt
    clear hserver hlt
    show g.connections (g.conns j).cnxPtr = some j
    by_cases hji : j = i
    · subst hji
      obtain ⟨hcl, hold⟩ := hopen hnd
      have hptr : (g.conns j).cnxPtr = (s.engine.conns j).cnxPtr := by
        have := hg.ptr hcl
        rwa [keyOf, hrole] at this
      rw [hptr, (hg.connections.resolve_right fun hc => by simp [hcl] at hc)]
      exact h.table hrole j hj hold
    · obtain ⟨hscs, hptr⟩ := hg.others j hji
      have hold := h.table hrole j hj (hscs ▸ hnd)
      rw [hptr]
      rcases hg.connections with hsame | ⟨-, hforgot⟩
      · rw [hsame, hold]
      · -- another connection is in the table at another address
        rw [hforgot, Function.update_of_ne, hold]
        intro hptr
        simp only [Routes, hrole] at hr
        rw [hptr, hr] at hold
        exact hji (Option.some.inj hold).symm
  case entry =>
    intro hserver k j hkj
    have hrole : s.role = .server := hserver
    have hk : g.connections k = some j := hkj
    clear hserver hkj
    have hold : s.engine.connections k = some j := by
      rcases hg.connections with hsame | ⟨-, hforgot⟩
      · rwa [hsame] at hk
      · rw [hforgot] at hk
        by_cases hkc : k = ev.cnxPtr
        · subst hkc
          rw [Function.update_self] at hk
          exact nomatch hk
        · rwa [Function.update_of_ne hkc] at hk
    obtain ⟨hlt, hptr⟩ := h.entry hrole k j hold
    refine ⟨hg.made.symm ▸ hlt, fun hnd => ?_⟩
    show (g.conns j).cnxPtr = k
    by_cases hji : j = i
    · subst hji
      obtain ⟨hcl, hopen⟩ := hopen hnd
      have := hg.ptr hcl
      rw [keyOf, hrole] at this
      exact this.trans (hptr hopen)
    · obtain ⟨hscs, hsame⟩ := hg.others j hji
      rw [hsame]
      exact hptr (hscs ▸ hnd)

theorem Python.handled (h : s.Python) (hrun : s.Running) (hphase : s.phase = .running)
    (hev : s.events = ev :: events) (hr : s.Routes ev.cnxPtr i) (hi : i < s.engine.made)
    (hg : s.Handled ev i g) : (s.handled ev events i g).Python := by
  have hin : ev ∈ s.events ++ s.rx := by
    rw [hev]
    exact List.mem_cons_self
  -- who owns the context of a `STREAM_DESTROY` is the one that handles it
  have hretired : ∀ j sc, sc ∈ (s.conn j).owned →
      (j = i → ev.evtType = .streamDestroy → sc ≠ ev.streamCtxPtr) → s.Retired sc →
        (s.handled ev events i g).Retired sc := by
    rintro j sc hsc hself ⟨hb, e, he, hce, hde, rfl⟩
    rw [hev] at he
    rcases List.mem_cons.1 he with rfl | he
    · have hhome : (s.home e.streamCtxPtr).1 = s.role.key e.cnxPtr := by
        rw [(hrun.queue e hin hce).2.1]
      have hji := (hrun.routes_of_owned h hsc hhome).unique hr
      exact absurd rfl (hself hji hde)
    · exact ⟨hb, e, he, hce, hde, rfl⟩
  constructor
  case owned =>
    intro j sc hsc
    by_cases hj : j = i
    · subst hj
      have hsc : sc ∈ ((s.conn j).handle ev).owned := hg.self ▸ hsc
      have hcl : ev.isClose = false := by
        by_contra hcl
        rw [ConnScs.handle_of_isClose (by simpa using hcl)] at hsc
        exact absurd hsc (Finset.notMem_empty sc)
      have hlife : ∀ x ∈ s.lifetime, x ∈ (s.handled ev events j g).lifetime := by
        intro x hx
        simpa [ScHolders.handled, given, hcl] using hx
      rcases ConnScs.mem_handle_owned hsc with hold | ha
      · refine (h.owned j sc hold).imp (hlife sc) (hretired j sc hold fun _ hd => ?_)
        rintro rfl
        have hnot : ev.streamCtxPtr ∉ ((s.conn j).handle ev).owned := by
          simp [ConnScs.handle, rxEventOwnsSc, hd]
        exact hnot hsc
      · rw [ha.2.2.2]
        refine (hrun.queue ev hin ha.carries).2.2.imp (hlife _) ?_
        rintro ⟨hb, e, he, hce, hde, heq⟩
        rw [hev] at he
        rcases List.mem_cons.1 he with rfl | he
        · exact absurd hde ha.not_destroy
        · exact ⟨hb, e, he, hce, hde, heq⟩
    · have hsc : sc ∈ (s.conn j).owned := (hg.others j hj).1 ▸ hsc
      refine (h.owned j sc hsc).imp (fun hl => ?_) (hretired j sc hsc fun hji => absurd hji hj)
      refine Finset.mem_sdiff.2 ⟨hl, fun hgiven => hj ?_⟩
      exact (hrun.routes_of_owned h hsc (given_home hrun h hr hgiven).2.2).unique hr
  case ctxs =>
    intro j streamId sc hsc
    by_cases hj : j = i
    · subst hj
      have hsc : ((s.conn j).handle ev).ctxs streamId = some sc := hg.self ▸ hsc
      show sc ∈ (g.conns j).scs.owned
      rw [hg.self]
      rcases ConnScs.handle_ctxs hsc with ⟨hold, hst, hcl⟩ | ⟨ha, -⟩
      · have hown := h.ctxs j streamId sc hold
        refine ConnScs.handle_owned_of_mem hown hcl fun hd => ?_
        rintro rfl
        have hne : ev.streamCtxPtr ≠ 0 := by
          intro h0
          rw [h0] at hown
          rcases h.owned j 0 hown with hl | ⟨-, e, -, hce, -, heq⟩
          · exact h.zero hl
          · exact hce.1 heq
        have hhome := (hrun.queue ev hin ⟨hne, .inr hd⟩).2.1
        rw [hrun.ctxHomes j streamId _ hold, Prod.mk.injEq] at hhome
        exact hst hd hhome.2
      · simp [ConnScs.handle, ha.1, ha.2.1, ha.2.2.1, ha.2.2.2]
    · rw [show (s.handled ev events i g).conn j = s.conn j from (hg.others j hj).1] at hsc ⊢
      exact h.ctxs j streamId sc hsc
  case dropped =>
    intro j hd
    by_cases hj : j = i
    · subst hj
      rw [show (s.handled ev events j g).conn j = (s.conn j).handle ev from hg.self] at hd ⊢
      cases hcl : ev.isClose with
      | true =>
        rw [ConnScs.handle_of_isClose hcl]
        exact ⟨rfl, rfl⟩
      | false =>
        obtain ⟨hdropped, hclosed⟩ := ConnScs.handle_flags (c := s.conn j) hcl
        rw [hdropped] at hd
        obtain ⟨hc, hempty⟩ := h.dropped j hd
        refine ⟨hclosed.trans hc, Finset.eq_empty_of_forall_notMem fun sc hsc => ?_⟩
        rcases ConnScs.mem_handle_owned hsc with hold | ha
        · rw [hempty] at hold
          exact absurd hold (Finset.notMem_empty sc)
        · exact absurd (hd.symm.trans ha.2.2.1) (by simp)
    · rw [show (s.handled ev events i g).conn j = s.conn j from (hg.others j hj).1] at hd ⊢
      exact h.dropped j hd
  case unmade =>
    intro j hj
    have hj : s.engine.made ≤ j := hg.made ▸ hj
    rw [show (s.handled ev events i g).conn j = s.conn j from (hg.others j (by omega)).1]
    exact h.unmade j hj
  case client => exact fun hrole => hg.made.trans (h.client hrole)
  case zero => exact fun h0 => h.zero (Finset.mem_sdiff.1 h0).1
  case stopped => exact fun hst => absurd (hphase.symm.trans hst) (by simp)

end Handled

/-! An event that reaches no connection -/

section Dropped

variable {ev : RawEvent} {events : List RawEvent}

/-- An event goes by; if it is a `STREAM_DESTROY`, nobody owns its context. -/
theorem Running.dropEvent (h : s.Running) (hev : s.events = ev :: events) :
    Running { s with events := events } := by
  have hq : s.events ++ s.rx = ev :: (events ++ s.rx) := by
    rw [hev]
    rfl
  have hlater : ∀ e ∈ events ++ s.rx, e ∈ s.events ++ s.rx := fun e he =>
    hq ▸ List.mem_cons_of_mem _ he
  exact
    { h with
      queue := by
        intro e he hc
        obtain ⟨hpos, hhome, hcov⟩ := h.queue e (hlater e he) hc
        refine ⟨hpos, hhome, hcov.imp_right ?_⟩
        rintro ⟨hb, d, hd, hcd, hdd, heq⟩
        rw [hev] at hd
        rcases List.mem_cons.1 hd with rfl | hd
        · have hprec := (List.pairwise_cons.1 (hq ▸ h.order)).1 e he
          exact absurd heq.symm (hprec.2 hdd hc)
        · exact ⟨hb, d, hd, hcd, hdd, heq⟩
      closed := fun e he => h.closed e (hlater e he)
      destroyed := fun e he => h.destroyed e (hlater e he)
      order := (List.pairwise_cons.1 (hq ▸ h.order)).2 }

theorem Python.dropEvent (h : s.Python) (hrun : s.Running) (hphase : s.phase = .running)
    (hev : s.events = ev :: events) (hnone : ev.Carries → ∀ i, ¬ s.Routes ev.cnxPtr i) :
    Python { s with events := events } := by
  refine { h with owned := fun i sc hsc => (h.owned i sc hsc).imp_right ?_,
                  stopped := fun hst => absurd (hphase.symm.trans hst) (by simp) }
  rintro ⟨hb, d, hd, hcd, hdd, rfl⟩
  rw [hev] at hd
  rcases List.mem_cons.1 hd with rfl | hd
  · have hin : d ∈ s.events ++ s.rx := by
      rw [hev]
      exact List.mem_cons_self
    have hhome : (s.home d.streamCtxPtr).1 = s.role.key d.cnxPtr := by
      rw [(hrun.queue d hin hcd).2.1]
    exact absurd (hrun.routes_of_owned h hsc hhome) (hnone hcd i)
  · exact ⟨hb, d, hd, hcd, hdd, rfl⟩

end Dropped

/-! A connection that `route_event` makes -/

/-- The engine after the first event of an address it does not know. -/
theorem Python.spawn (h : s.Python) (hrole : s.role = .server) (cnxPtr : ℕ) :
    Python { s with engine := s.engine.spawn cnxPtr } := by
  have hconn : ∀ j, j ≠ s.engine.made →
      conn { s with engine := s.engine.spawn cnxPtr } j = s.conn j := by
    intro j hj
    simp [conn, QuicEngine.spawn, Function.update_of_ne hj]
  have hnew : conn { s with engine := s.engine.spawn cnxPtr } s.engine.made =
      { owned := ∅, ctxs := fun _ => none, dropped := false, closed := false } := by
    simp [conn, QuicEngine.spawn, QuicConnection.scs, QuicConnection.ofEngine]
  constructor
  case owned =>
    intro j sc hsc
    by_cases hj : j = s.engine.made
    · rw [hj, hnew] at hsc
      exact absurd hsc (Finset.notMem_empty sc)
    · rw [hconn j hj] at hsc
      exact h.owned j sc hsc
  case ctxs =>
    intro j streamId sc hsc
    by_cases hj : j = s.engine.made
    · rw [hj, hnew] at hsc
      cases hsc
    · rw [hconn j hj] at hsc ⊢
      exact h.ctxs j streamId sc hsc
  case dropped =>
    intro j hd
    by_cases hj : j = s.engine.made
    · rw [hj, hnew] at hd
      cases hd
    · rw [hconn j hj] at hd ⊢
      exact h.dropped j hd
  case unmade =>
    intro j hj
    have hj : s.engine.made + 1 ≤ j := hj
    rw [hconn j (by omega)]
    exact h.unmade j (by omega)
  case client => exact fun hc => absurd (hrole.symm.trans hc) (by simp)
  case zero => exact h.zero
  case stopped => exact h.stopped

theorem Running.spawn (h : s.Running) {cnxPtr : ℕ} (hnone : s.engine.connections cnxPtr = none) :
    Running { s with engine := s.engine.spawn cnxPtr } := by
  have hconn : ∀ j, j ≠ s.engine.made → (s.engine.spawn cnxPtr).conns j = s.engine.conns j := by
    intro j hj
    simp [QuicEngine.spawn, Function.update_of_ne hj]
  have hnew : (s.engine.spawn cnxPtr).conns s.engine.made = .ofEngine cnxPtr := by
    simp [QuicEngine.spawn]
  have hkey : ∀ j, j ≠ s.engine.made → keyOf { s with engine := s.engine.spawn cnxPtr } j =
    s.keyOf j := by
    intro j hj
    simp only [keyOf, hconn j hj]
  refine { h with homes := fun j sc hsc => ?_, ctxHomes := fun j streamId sc hsc => ?_,
                  table := fun hrole j hlt hd => ?_, entry := fun hrole k j hk => ?_ }
  · by_cases hj : j = s.engine.made
    · rw [conn, show (s.engine.spawn cnxPtr).conns j = _ from hj ▸ hnew] at hsc
      exact absurd hsc (Finset.notMem_empty sc)
    · rw [conn, show (s.engine.spawn cnxPtr).conns j = _ from hconn j hj] at hsc
      rw [hkey j hj]
      exact h.homes j sc hsc
  · by_cases hj : j = s.engine.made
    · rw [conn, show (s.engine.spawn cnxPtr).conns j = _ from hj ▸ hnew] at hsc
      cases hsc
    · rw [conn, show (s.engine.spawn cnxPtr).conns j = _ from hconn j hj] at hsc
      rw [hkey j hj]
      exact h.ctxHomes j streamId sc hsc
  · show Function.update s.engine.connections cnxPtr (some s.engine.made)
      ((s.engine.spawn cnxPtr).conns j).cnxPtr = some j
    by_cases hj : j = s.engine.made
    · rw [hj, hnew]
      exact Function.update_self ..
    · have hlt : j < s.engine.made + 1 := hlt
      rw [conn, show (s.engine.spawn cnxPtr).conns j = _ from hconn j hj] at hd
      have hold := h.table hrole j (by omega) hd
      rw [hconn j hj, Function.update_of_ne, hold]
      intro hptr
      rw [hptr, hnone] at hold
      cases hold
  · have hk : Function.update s.engine.connections cnxPtr (some s.engine.made) k = some j := hk
    show j < s.engine.made + 1 ∧ (_ → ((s.engine.spawn cnxPtr).conns j).cnxPtr = k)
    by_cases hkc : k = cnxPtr
    · subst hkc
      rw [Function.update_self, Option.some.injEq] at hk
      subst hk
      exact ⟨by omega, fun _ => by rw [hnew]; rfl⟩
    · rw [Function.update_of_ne hkc] at hk
      obtain ⟨hlt, hptr⟩ := h.entry hrole k j hk
      refine ⟨by omega, fun hd => ?_⟩
      have hj : j ≠ s.engine.made := by omega
      rw [hconn j hj]
      rw [conn, show (s.engine.spawn cnxPtr).conns j = _ from hconn j hj] at hd
      exact hptr hd

end ScHolders

namespace ScRefs

variable {s s' : ScRefs} {ev : RawEvent} {events : List RawEvent} {i : ℕ} {g : QuicEngine}

/-- A close gives up references that are there. -/
theorem given_lifetime {s : ScHolders} (h : s.Running) (hp : s.Python)
    (hev : s.events = ev :: events) (hr : s.Routes ev.cnxPtr i) {sc : ℕ} (hsc : sc ∈ s.given ev i) :
    sc ∈ s.lifetime := by
  obtain ⟨hcl, hown, hhome⟩ := ScHolders.given_home h hp hr hsc
  rcases hp.owned i sc hown with hl | ⟨-, e, he, hce, hde, rfl⟩
  · exact hl
  · have hq : s.events ++ s.rx = ev :: (events ++ s.rx) := by
      rw [hev]
      rfl
    rw [hev] at he
    rcases List.mem_cons.1 he with rfl | he
    · exact absurd hde (ConnScs.not_owns_of_isClose hcl).2
    · have he : e ∈ events ++ s.rx := List.mem_append_left _ he
      have hprec := (List.pairwise_cons.1 (hq ▸ h.order)).1 e he
      have hin := (h.queue e (hq ▸ List.mem_cons_of_mem _ he) hce).2.1
      rw [hin] at hhome
      exact absurd hce (hprec.1 hcl hhome.symm)

/-- A connection handles the first drained event. -/
theorem Inv.handled (h : s.Inv) (hphase : s.phase = .running) (hev : s.events = ev :: events)
    (hr : s.Routes ev.cnxPtr i) (hi : i < s.engine.made) (hg : s.Handled ev i g) :
    Inv ({ s with events := events, engine := g }.giveUp (s.given ev i)) := by
  obtain ⟨hp, hrun⟩ := h.facts hphase
  refine .of_running ?_ (hp.handled hrun hphase hev hr hi hg) (hrun.handled hp hev hr hg)
  apply h.balanced.dropSet
  intro y
  show s.holders y = (s.handled ev events i g).holders y + _
  by_cases hy : y ∈ s.given ev i
  · have hl := given_lifetime hrun hp hev hr hy
    simp only [ScHolders.holders, ScHolders.handled, Finset.mem_sdiff, hl, hy]
    simp
    omega
  · simp only [ScHolders.holders, ScHolders.handled, Finset.mem_sdiff, hy]
    simp

/-- An event reaches no connection. -/
theorem Inv.dropEvent (h : s.Inv) (hphase : s.phase = .running) (hev : s.events = ev :: events)
    (hnone : ev.Carries → ∀ i, ¬ s.Routes ev.cnxPtr i) : Inv { s with events := events } := by
  obtain ⟨hp, hrun⟩ := h.facts hphase
  exact .of_running h.balanced (hp.dropEvent hrun hphase hev hnone) (hrun.dropEvent hev)

theorem giveUp_empty (s : ScRefs) : s.giveUp ∅ = s := by
  cases s
  simp only [giveUp, Finset.sdiff_empty]
  congr

/-- The engine dispatches the first drained event to a connection of its table. -/
theorem Inv.dispatch (h : s.Inv) (hphase : s.phase = .running) (hrole : s.role = .server)
    {d : Drained}
    (hev : s.events = d.ev :: events) (hempty : s.engine.transport.scDestroyed = ∅)
    (hi : s.engine.connections d.ev.cnxPtr = some i) :
    Inv ({ s with events := events, engine := (s.engine.dispatch i d).1 }.giveUp
      (s.engine.dispatch i d).1.transport.scDestroyed) := by
  have hr : s.Routes d.ev.cnxPtr i := by
    simpa only [ScHolders.Routes, hrole] using hi
  have hd := QuicEngine.dispatch_scRouted (s := s.engine) (d := d) (i := i)
  have hgiven : (s.engine.dispatch i d).1.transport.scDestroyed = s.given d.ev i := by
    rw [hd.destroyed, hempty, Finset.empty_union]
    rfl
  rw [hgiven]
  apply h.handled hphase hev hr ((h.facts hphase).2.entry hrole _ i hi).1
  constructor
  · exact hd.self
  · exact hd.others
  · intro hcl
    rw [hd.cnxPtr, if_neg (by simp [hcl])]
    rfl
  · exact QuicEngine.dispatch_made
  · exact QuicEngine.dispatch_connections_cases

/-- `route_event` of the first drained event. -/
theorem Inv.routeEvent (h : s.Inv) (hphase : s.phase = .running) (hrole : s.role = .server)
    {d : Drained}
    (hev : s.events = d.ev :: events) (hempty : s.engine.transport.scDestroyed = ∅) :
    Inv ({ s with events := events, engine := (s.engine.routeEvent d).1 }.giveUp
      (s.engine.routeEvent d).1.transport.scDestroyed) := by
  obtain ⟨hp, hrun⟩ := h.facts hphase
  have hunrouted : s.engine.connections d.ev.cnxPtr = none → d.ev.Carries →
      ∀ i, ¬ s.Routes d.ev.cnxPtr i := by
    intro hc _ i hr
    simp only [ScHolders.Routes, hrole, hc] at hr
    exact nomatch hr
  by_cases h0 : d.ev.cnxPtr = 0
  · rw [QuicEngine.routeEvent_zero h0, hempty, giveUp_empty]
    refine h.dropEvent hphase hev fun hc => ?_
    have hin : d.ev ∈ s.events ++ s.rx := by
      rw [hev]
      exact List.mem_cons_self
    exact absurd h0 (hrun.queue d.ev hin hc).1
  cases hc : s.engine.connections d.ev.cnxPtr with
  | some i =>
    rw [QuicEngine.routeEvent_known h0 hc]
    exact h.dispatch hphase hrole hev hempty hc
  | none =>
    cases hcl : d.ev.isClose with
    | true =>
      rw [QuicEngine.routeEvent_close hc hcl, hempty, giveUp_empty]
      exact h.dropEvent hphase hev (hunrouted hc)
    | false =>
      rw [QuicEngine.routeEvent_new h0 hc hcl]
      split
      · -- `create_protocol` raised: the connection is stored, the event is gone
        show Inv ({ s with events := events, engine := s.engine.spawn d.ev.cnxPtr }.giveUp
          s.engine.transport.scDestroyed)
        rw [hempty, giveUp_empty]
        have hdrop := h.dropEvent hphase hev (hunrouted hc)
        obtain ⟨hp', hrun'⟩ := hdrop.facts hphase
        exact .of_running hdrop.balanced (hp'.spawn hrole _) (hrun'.spawn hc)
      · have hinv : Inv { s with engine := (s.engine.spawn d.ev.cnxPtr).bind d.ev.cnxPtr s.engine.made } :=
          .of_running h.balanced { hp.spawn hrole d.ev.cnxPtr with } { hrun.spawn hc with }
        exact hinv.dispatch hphase hrole hev hempty (Function.update_self ..)

/-- The next drained event is handled. -/
theorem Inv.route (h : s.Inv) {raises : Bool} {answers : Answers}
    (hs : s.route raises answers = some s') :
    s'.Inv := by
  unfold ScRefs.route at hs
  split at hs
  · exact nomatch hs
  · rename_i ev events hev
    simp only [ne_eq, ite_not, Option.ite_none_right_eq_some] at hs
    obtain ⟨hphase, hs⟩ := hs
    obtain ⟨hp, hrun⟩ := h.facts hphase
    have hinv : Inv { s with engine := { s.engine with transport := s.handlerTransport } } :=
      .of_running h.balanced { hp with } { hrun with }
    split at hs
    · rename_i hrole
      obtain rfl := Option.some.inj hs
      exact hinv.routeEvent (d := ⟨ev, raises, answers⟩) hphase hrole hev rfl
    · rename_i hrole
      obtain rfl := Option.some.inj hs
      set c := (s.engine.conns 0).handleRawEvent s.handlerTransport answers ev with hc
      have hgiven : c.2.scDestroyed = s.given ev 0 := by
        rw [hc, QuicConnection.handleRawEvent_scDestroyed]
        simp only [handlerTransport, Finset.empty_union]
        rfl
      show Inv ({ s with
        events := events
        engine := { s.engine with conns := Function.update s.engine.conns 0 c.1, transport := c.2 } }.giveUp
          c.2.scDestroyed)
      rw [hgiven]
      apply h.handled hphase hev
      · simp only [ScHolders.Routes, hrole]
      · have := hp.client hrole
        omega
      · constructor
        · simp [hc, QuicConnection.handleRawEvent_scs]
        · intro j hj
          simp [Function.update_of_ne hj]
        · intro _
          simp only [ScHolders.keyOf, hrole, Role.key]
        · rfl
        · exact .inl rfl

end ScRefs

end Aiopquic
