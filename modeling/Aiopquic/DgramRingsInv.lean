import Aiopquic.DgramRings

/-!
# The invariant of the datagram rings

A ring in the table, or in a queued mark, is of the connection it is for. Connections come and go,
and records are accepted, without changing that.
-/

namespace Aiopquic

open QuicEngine (Tagged)

namespace DgramRings

/-! ## The invariant -/

/-- A ring that was made. -/
def IsRing (s : DgramRings) (r : ℕ) : Prop := r ≠ 0 ∧ r ≤ s.made

/-- `home` is the address of a connection. A ring in the table, or in a queued mark, is of the
connection it is for; a connection that has not ended has made at most one ring, which its
`QuicConnection` still has; and no ring of such a connection has a release under way. -/
structure Inv (home : ℕ → ℕ) (s : DgramRings) : Prop where
  base : s.toTxCommands.Inv
  server : s.role = .server
  cnxs : ∀ a j, s.cnxs a = some j → home j = a ∧ j < s.created
  held : ∀ a i, s.held a = some i → home i = a ∧ i < s.created
  rx : ∀ e ∈ s.rx, home e.inst = e.ev.cnxPtr ∧ e.inst < s.created
  closes : ∀ e ∈ s.rx, e.ev.isClose = true → e.inst ∈ s.ended
  accepted : ∀ r rec, rec ∈ s.accepted r → s.IsRing r ∧ rec.inst = s.owner r
  rings : ∀ r rec, rec ∈ s.rings r → rec ∈ s.accepted r
  owner : ∀ r, s.IsRing r → s.owner r < s.created
  table : ∀ a r, s.table a = some r → s.IsRing r ∧ ∀ j, s.cnxs a = some j → s.owner r = j
  marks : ∀ q ∈ s.ring, q.entry.eventType = .txMarkDatagramReady → q.entry.streamCtx ≠ 0 →
    s.IsRing q.entry.streamCtx ∧ s.owner q.entry.streamCtx = q.inst
  dgram : ∀ a, (s.dgram a).ring ≠ 0 → s.IsRing (s.dgram a).ring ∧ s.held a =
    some (s.owner (s.dgram a).ring)
  only : ∀ a j r, s.cnxs a = some j → j ∉ s.ended → s.IsRing r → s.owner r = j →
    (s.dgram a).ring = r
  releases : ∀ q ∈ s.ring ++ s.owed, q.entry.eventType = .txDgramRingRelease →
    s.IsRing q.entry.streamCtx ∧ ∀ a, s.cnxs a = some (s.owner q.entry.streamCtx) →
      s.owner q.entry.streamCtx ∈ s.ended
  releaseOwed : ∀ q ∈ s.owed, q.entry.eventType = .txDgramRingRelease
  markedLt : ∀ j ∈ s.marked, j < s.created
  marked : ∀ a j, s.cnxs a = some j → j ∉ s.ended → j ∈ s.marked → s.table a ≠ none
  kept : ∀ r rec, rec ∈ s.accepted r → rec ∈ s.rings r ∨ (s.owner r, rec) ∈ s.handed
  handed : ∀ inst rec, (inst, rec) ∈ s.handed → rec.inst = inst

variable {home : ℕ → ℕ} {s s' : DgramRings}

theorem Inv.own (h : s.Inv home) : s.Own := by
  refine ⟨h.handed, fun cnx inst hc he hm r rec hrec hi => ?_⟩
  obtain ⟨hring, howner⟩ := h.accepted r rec hrec
  obtain ⟨r', hr'⟩ := Option.ne_none_iff_exists'.1 (h.marked cnx inst hc he hm)
  obtain ⟨hring', howner'⟩ := h.table cnx r' hr'
  -- both rings are the one that the connection made
  have hr : r' = r := by
    rw [← h.only cnx inst r' hc he hring' (howner' inst hc), h.only cnx inst r hc he hring
      (howner ▸ hi)]
  have hown : s.owner r = inst := howner.symm.trans hi
  refine ⟨hr ▸ hr', ?_⟩
  rw [← hown]
  exact h.kept r rec hrec

/-! picoquic makes and frees connections. -/

theorem Inv.create (h : s.Inv home) {cnx : ℕ} (hf : s.toTxCommands.Forgotten (.create cnx))
    (ht : s.table cnx = none) (hfree : s.cnxs cnx = none) :
    Inv (Function.update home s.created cnx)
      { s with cnxs := Function.update s.cnxs cnx (some s.created), created := s.created + 1 } := by
  have hhome : ∀ i, i < s.created → Function.update home s.created cnx i = home i := fun i hi =>
    Function.update_of_ne (Nat.ne_of_lt hi) _ _
  have hcnx : ∀ a j, Function.update s.cnxs cnx (some s.created) a = some j →
      a = cnx ∧ j = s.created ∨ a ≠ cnx ∧ s.cnxs a = some j := by
    intro a j hj
    by_cases ha : a = cnx
    · subst ha
      rw [Function.update_self] at hj
      exact .inl ⟨rfl, (Option.some.inj hj).symm⟩
    · rw [Function.update_of_ne ha] at hj
      exact .inr ⟨ha, hj⟩
  refine
    { base := h.base.create hf, server := h.server, cnxs := fun a j hj => ?_,
      held := fun a i hi => ?_, rx := fun e he => ?_, closes := h.closes, accepted := h.accepted,
      rings := h.rings, owner := fun r hr => Nat.lt_succ_of_lt (h.owner r hr), table :=
        fun a r hr => ?_,
      marks := h.marks, dgram := h.dgram, only := fun a j r hj he hr ho => ?_,
      releases := fun q hq hr => ⟨(h.releases q hq hr).1, fun a ha => ?_⟩,
      releaseOwed := h.releaseOwed, markedLt := fun j hj => Nat.lt_succ_of_lt (h.markedLt j hj),
      marked := fun a j hj he hm => ?_, kept := h.kept, handed := h.handed }
  · rcases hcnx a j hj with ⟨rfl, rfl⟩ | ⟨-, hj⟩
    · exact ⟨Function.update_self _ _ _, Nat.lt_succ_self _⟩
    · obtain ⟨hh, hlt⟩ := h.cnxs a j hj
      exact ⟨(hhome j hlt).trans hh, Nat.lt_succ_of_lt hlt⟩
  · obtain ⟨hh, hlt⟩ := h.held a i hi
    exact ⟨(hhome i hlt).trans hh, Nat.lt_succ_of_lt hlt⟩
  · obtain ⟨hh, hlt⟩ := h.rx e he
    exact ⟨(hhome _ hlt).trans hh, Nat.lt_succ_of_lt hlt⟩
  · refine ⟨(h.table a r hr).1, fun j hj => ?_⟩
    rcases hcnx a j hj with ⟨rfl, -⟩ | ⟨-, hj⟩
    · exact absurd (ht.symm.trans hr) (by simp)
    · exact (h.table a r hr).2 j hj
  · rcases hcnx a j hj with ⟨-, rfl⟩ | ⟨-, hj⟩
    · exact absurd ho (Nat.ne_of_lt (h.owner r hr))
    · exact h.only a j r hj he hr ho
  · rcases hcnx a _ ha with ⟨-, heq⟩ | ⟨-, ha⟩
    · exact absurd heq (Nat.ne_of_lt (h.owner _ (h.releases q hq hr).1))
    · exact (h.releases q hq hr).2 a ha
  · rcases hcnx a j hj with ⟨-, rfl⟩ | ⟨-, hj⟩
    · exact absurd (h.markedLt _ hm) (lt_irrefl _)
    · exact h.marked a j hj he hm

theorem Inv.free (h : s.Inv home) (cnx : ℕ) :
    Inv home { s with cnxs := Function.update s.cnxs cnx none } := by
  have hcnx : ∀ a j, Function.update s.cnxs cnx none a = some j → s.cnxs a = some j := by
    intro a j hj
    by_cases ha : a = cnx
    · subst ha
      rw [Function.update_self] at hj
      exact absurd hj (by simp)
    · rwa [Function.update_of_ne ha] at hj
  exact
    { h with
      base := h.base.free cnx
      cnxs := fun a j hj => h.cnxs a j (hcnx a j hj)
      table := fun a r hr => ⟨(h.table a r hr).1, fun j hj => (h.table a r hr).2 j (hcnx a j hj)⟩
      only := fun a j r hj => h.only a j r (hcnx a j hj)
      releases := fun q hq hr =>
        ⟨(h.releases q hq hr).1, fun a ha => (h.releases q hq hr).2 a (hcnx a _ ha)⟩
      marked := fun a j hj => h.marked a j (hcnx a j hj) }

/-- What a step on the commands leaves as it is. -/
structure SameTables (b b' : TxCommands) : Prop where
  role : b'.role = b.role
  cnxs : b'.cnxs = b.cnxs
  created : b'.created = b.created
  held : b'.held = b.held
  rx : b'.rx = b.rx

/-- A step that changes the commands and what was done with them only. -/
theorem Inv.ofBase (h : s.Inv home) {b : TxCommands} (hb : b.Inv)
    (hsame : SameTables s.toTxCommands b)
    (hring : ∀ q ∈ b.ring, q ∈ s.ring ∨ q.entry.eventType ≠ .txMarkDatagramReady ∧
      q.entry.eventType ≠ .txDgramRingRelease) :
    Inv home { s with toTxCommands := b } := by
  obtain ⟨hrole, hcnxs, hcreated, hheld, hrx⟩ := hsame
  have hold : ∀ q ∈ b.ring, (q.entry.eventType = .txMarkDatagramReady ∨
      q.entry.eventType = .txDgramRingRelease) → q ∈ s.ring := by
    intro q hq hty
    rcases hring q hq with hq | ⟨hm, hr⟩
    · exact hq
    · exact absurd hty (by simp [hm, hr])
  refine
    { h with
      base := hb
      server := hrole.trans h.server
      cnxs := ?_
      held := ?_
      rx := ?_
      closes := ?_
      owner := ?_
      table := ?_
      marks := fun q hq hty => h.marks q (hold q hq (.inl hty)) hty
      dgram := ?_
      only := ?_
      releases := fun q hq hty => ?_
      markedLt := ?_
      marked := ?_ }
  · rw [hcnxs, hcreated]
    exact h.cnxs
  · rw [hheld, hcreated]
    exact h.held
  · rw [hrx, hcreated]
    exact h.rx
  · rw [hrx]
    exact h.closes
  · rw [hcreated]
    exact h.owner
  · rw [hcnxs]
    exact h.table
  · rw [hheld]
    exact h.dgram
  · rw [hcnxs]
    exact h.only
  · rw [hcnxs]
    refine h.releases q ?_ hty
    rcases List.mem_append.1 hq with hq | hq
    · exact List.mem_append_left _ (hold q hq (.inr hty))
    · exact List.mem_append_right _ hq
  · rw [hcreated]
    exact h.markedLt
  · rw [hcnxs]
    exact h.marked

/-- A command is queued: a mark for the ring of its connection, or a release of a ring whose
connection has ended or is gone. -/
theorem Inv.append (h : s.Inv home) {q : Command}
    (hb : TxCommands.Inv { s.toTxCommands with ring := s.ring ++ [q] })
    (hm : q.entry.eventType = .txMarkDatagramReady → q.entry.streamCtx ≠ 0 →
      s.IsRing q.entry.streamCtx ∧ s.owner q.entry.streamCtx = q.inst)
    (hr : q.entry.eventType = .txDgramRingRelease → s.IsRing q.entry.streamCtx ∧
      ∀ a, s.cnxs a = some (s.owner q.entry.streamCtx) → s.owner q.entry.streamCtx ∈ s.ended) :
    Inv home { s with ring := s.ring ++ [q] } := by
  refine { h with base := hb, marks := fun p hp hty => ?_, releases := fun p hp hty => ?_ }
  · rcases List.mem_append.1 hp with hp | hp
    · exact h.marks p hp hty
    · cases List.mem_singleton.1 hp
      exact hm hty
  · rcases List.mem_append.1 hp with hp | hp
    · rcases List.mem_append.1 hp with hp | hp
      · exact h.releases p (List.mem_append_left _ hp) hty
      · cases List.mem_singleton.1 hp
        exact hr hty
    · exact h.releases p (List.mem_append_right _ hp) hty

/-! Callbacks. -/

theorem Inv.end (h : s.Inv home) (inst : ℕ) : Inv home { s with ended := s.ended ++ [inst] } := by
  have hsub : ∀ j, j ∉ s.ended ++ [inst] → j ∉ s.ended := fun j hj hmem =>
    hj (List.mem_append_left _ hmem)
  exact
    { h with
      closes := fun e he hcl => List.mem_append_left _ (h.closes e he hcl)
      only := fun a j r hj he => h.only a j r hj (hsub j he)
      releases := fun q hq hty => ⟨(h.releases q hq hty).1,
        fun a ha => List.mem_append_left _ ((h.releases q hq hty).2 a ha)⟩
      marked := fun a j hj he => h.marked a j hj (hsub j he) }

/-- An entry is taken out of the table for an address whose connection has ended. -/
theorem Inv.remove (h : s.Inv home) {cnx : ℕ} (he : ∀ j, s.cnxs cnx = some j → j ∈ s.ended) :
    Inv home { s with table := remove s.table cnx } := by
  have hother : ∀ a, a ≠ cnx → DgramRings.remove s.table cnx a = s.table a := fun a ha =>
    Function.update_of_ne ha _ _
  refine { h with table := fun a r hr => ?_, marked := fun a j hj hne hm => ?_ }
  · have ha : a ≠ cnx := by
      rintro rfl
      have hself : DgramRings.remove s.table a a = none := Function.update_self _ _ _
      exact absurd (hself.symm.trans hr) (by simp)
    exact h.table a r ((hother a ha).symm.trans hr)
  · have ha : a ≠ cnx := by
      rintro rfl
      exact hne (he j hj)
    show DgramRings.remove s.table cnx a ≠ none
    rw [hother a ha]
    exact h.marked a j hj hne hm

theorem Inv.endDgram (h : s.Inv home) {cnx inst : ℕ} (hc : s.cnxs cnx = some inst)
    (event : PicoquicCallback) : (s.endDgram cnx inst event).Inv home := by
  unfold DgramRings.endDgram
  split
  · refine (h.end inst).remove fun j hj => ?_
    have heq : inst = j := Option.some.inj (hc.symm.trans hj)
    subst heq
    exact List.mem_append_right _ (List.mem_singleton_self inst)
  · split
    · exact h.end inst
    · exact h

theorem Inv.callback (h : s.Inv home) {cnx inst : ℕ} {cb : Callback} (hc : s.cnxs cnx = some inst)
    (hend : cb.closes = true → inst ∈ s.ended) (hs : s.lift (.callback cnx cb) = some s') :
    s'.Inv home := by
  obtain ⟨b, hb, rfl⟩ := Option.map_eq_some_iff.1 hs
  have hbase := h.base.step (show s.toTxCommands.Forgotten (.callback cnx cb) from trivial) hb
  simp only [TxCommands.step, hc, Option.some.injEq] at hb
  subst hb
  refine { h with base := hbase, rx := fun e he => ?_, closes := fun e he hcl => ?_ }
  · rcases List.mem_append.1 he with he | he
    · exact h.rx e he
    · obtain ⟨ev, hev, rfl⟩ := Option.map_eq_some_iff.1 (Option.mem_toList.1 he)
      obtain ⟨hhome, hlt⟩ := h.cnxs cnx inst hc
      exact ⟨hhome.trans (streamCb_cnx hev).symm, hlt⟩
  · rcases List.mem_append.1 he with he | he
    · exact h.closes e he hcl
    · obtain ⟨ev, hev, rfl⟩ := Option.map_eq_some_iff.1 (Option.mem_toList.1 he)
      exact hend ((streamCb_isClose hev).symm.trans hcl)

/-! Sends. -/

/-- The datagram side of a connection, with the same ring. -/
theorem Inv.setDgram (h : s.Inv home) {cnx : ℕ} {c : DgramConn} (hc : c.ring = (s.dgram cnx).ring) :
    (s.setDgram cnx c).Inv home := by
  have hring : ∀ a, (Function.update s.dgram cnx c a).ring = (s.dgram a).ring := by
    intro a
    by_cases ha : a = cnx
    · subst ha
      rw [Function.update_self, hc]
    · rw [Function.update_of_ne ha]
  refine { h with dgram := fun a => ?_, only := fun a j r hj he hr ho => ?_ }
  · show (Function.update s.dgram cnx c a).ring ≠ 0 →
      s.IsRing (Function.update s.dgram cnx c a).ring ∧
      s.held a = some (s.owner (Function.update s.dgram cnx c a).ring)
    rw [hring a]
    exact h.dgram a
  · exact (hring a).trans (h.only a j r hj he hr ho)

theorem Inv.openRing (h : s.Inv home) {cnx inst : ℕ} (hh : s.held cnx = some inst) :
    (s.openRing cnx inst).Inv home := by
  unfold DgramRings.openRing
  split
  case isFalse => exact h
  rename_i h0
  obtain ⟨hhome, hlt⟩ := h.held cnx inst hh
  -- the rings made before keep their owners
  have howner : ∀ r, s.IsRing r → Function.update s.owner (s.made + 1) inst r = s.owner r := by
    intro r hr
    refine Function.update_of_ne ?_ _ _
    have := hr.2
    omega
  have hmade : ∀ r, r ≠ 0 ∧ r ≤ s.made + 1 → s.IsRing r ∨ r = s.made + 1 := by
    rintro r ⟨hr, hle⟩
    rcases Nat.lt_succ_iff_lt_or_eq.1 (Nat.lt_succ_of_le hle) with hlt | heq
    · exact .inl ⟨hr, Nat.le_of_lt_succ hlt⟩
    · exact .inr heq
  have hup : ∀ r, s.IsRing r → r ≠ 0 ∧ r ≤ s.made + 1 := fun r hr => ⟨hr.1, Nat.le_succ_of_le hr.2⟩
  refine
    { h with
      accepted := fun r rec hrec => ?_
      owner := fun r hr => ?_
      table := fun a r hr => ?_
      marks := fun q hq hty h0 => ?_
      dgram := fun a ha => ?_
      only := fun a j r hj he hr ho => ?_
      releases := fun q hq hty => ?_
      kept := fun r rec hrec => ?_ }
  · obtain ⟨hr, hi⟩ := h.accepted r rec hrec
    exact ⟨hup r hr, hi.trans (howner r hr).symm⟩
  · show Function.update s.owner (s.made + 1) inst r < s.created
    rcases hmade r hr with hr | rfl
    · rw [howner r hr]
      exact h.owner r hr
    · rw [Function.update_self]
      exact hlt
  · obtain ⟨hring, hown⟩ := h.table a r hr
    exact ⟨hup r hring, fun j hj => (howner r hring).trans (hown j hj)⟩
  · obtain ⟨hring, hown⟩ := h.marks q hq hty h0
    exact ⟨hup _ hring, (howner _ hring).trans hown⟩
  · by_cases hac : a = cnx
    · subst hac
      simp only [DgramRings.setDgram, Function.update_self]
      exact ⟨⟨Nat.succ_ne_zero _, le_rfl⟩, hh⟩
    · simp only [DgramRings.setDgram, Function.update_of_ne hac] at ha ⊢
      obtain ⟨hring, hheld⟩ := h.dgram a ha
      exact ⟨hup _ hring, hheld.trans (congrArg some (howner _ hring).symm)⟩
  · rcases hmade r hr with hring | rfl
    · have hold := h.only a j r hj he hring ((howner r hring).symm.trans ho)
      have hac : a ≠ cnx := by
        rintro rfl
        exact hring.1 (hold.symm.trans h0)
      simp only [DgramRings.setDgram, Function.update_of_ne hac]
      exact hold
    · -- the connection of the new ring is the one at `cnx`
      have hj' : inst = j := (Function.update_self (s.made + 1) inst s.owner).symm.trans ho
      have hac : a = cnx := (h.cnxs a j hj).1.symm.trans (hj' ▸ hhome)
      subst hac
      simp only [DgramRings.setDgram, Function.update_self]
  · obtain ⟨hring, hend⟩ := h.releases q hq hty
    refine ⟨hup _ hring, fun a ha => ?_⟩
    simp only [howner _ hring] at ha ⊢
    exact hend a ha
  · show rec ∈ s.rings r ∨ (Function.update s.owner (s.made + 1) inst r, rec) ∈ s.handed
    rw [howner r (h.accepted r rec hrec).1]
    exact h.kept r rec hrec

theorem Inv.mark (h : s.Inv home) {cnx inst : ℕ} (hh : s.held cnx = some inst) :
    (s.mark cnx inst).Inv home := by
  refine h.append (h.base.push hh) (fun _ h0 => ?_) (fun hty => ?_)
  · obtain ⟨hring, hheld⟩ := h.dgram cnx h0
    exact ⟨hring, Option.some.inj (hheld.symm.trans hh)⟩
  · simp [markEntry] at hty

theorem Inv.repost (h : s.Inv home) {cnx inst : ℕ} (hh : s.held cnx = some inst) (posts : Bool) :
    (s.repost cnx inst posts).Inv home := by
  unfold DgramRings.repost
  split
  · exact (h.mark hh).setDgram rfl
  · exact h

theorem Inv.commit (h : s.Inv home) {cnx inst : ℕ} (hh : s.held cnx = some inst)
    (h0 : (s.dgram cnx).ring ≠ 0) (data : List UInt8) : (s.commit cnx inst data).Inv home := by
  obtain ⟨hring, hheld⟩ := h.dgram cnx h0
  have hown : s.owner (s.dgram cnx).ring = inst := Option.some.inj (hheld.symm.trans hh)
  refine { h with
    accepted := fun r rec hrec => ?_
    rings := fun r rec hrec => ?_
    kept := fun r rec hrec => ?_ }
  all_goals
    simp only [DgramRings.commit] at hrec ⊢
    by_cases hr : r = (s.dgram cnx).ring
  · subst hr
    rw [Function.update_self] at hrec
    rcases List.mem_append.1 hrec with hrec | hrec
    · exact h.accepted _ rec hrec
    · cases List.mem_singleton.1 hrec
      exact ⟨hring, hown.symm⟩
  · rw [Function.update_of_ne hr] at hrec
    exact h.accepted r rec hrec
  · subst hr
    rw [Function.update_self] at hrec ⊢
    rcases List.mem_append.1 hrec with hrec | hrec
    · exact List.mem_append_left _ (h.rings _ rec hrec)
    · exact List.mem_append_right _ hrec
  · rw [Function.update_of_ne hr] at hrec ⊢
    exact h.rings r rec hrec
  · subst hr
    rw [Function.update_self] at hrec ⊢
    rcases List.mem_append.1 hrec with hrec | hrec
    · rcases h.kept _ rec hrec with hk | hk
      · exact .inl (List.mem_append_left _ hk)
      · exact .inr hk
    · exact .inl (List.mem_append_right _ hrec)
  · rw [Function.update_of_ne hr] at hrec ⊢
    exact h.kept r rec hrec

theorem openRing_ring (s : DgramRings) (cnx inst : ℕ) :
    ((s.openRing cnx inst).dgram cnx).ring ≠ 0 := by
  unfold DgramRings.openRing
  split
  · simp [DgramRings.setDgram]
  · rename_i h
    exact h

theorem repost_ring (s : DgramRings) (cnx inst : ℕ) (posts : Bool) :
    ((s.repost cnx inst posts).dgram cnx).ring = (s.dgram cnx).ring := by
  unfold DgramRings.repost
  split
  · simp [DgramRings.setDgram]
  · rfl

theorem openRing_held (s : DgramRings) (cnx inst : ℕ) : (s.openRing cnx inst).held = s.held := by
  unfold DgramRings.openRing
  split <;> rfl

theorem repost_held (s : DgramRings) (cnx inst : ℕ) (posts : Bool) :
    (s.repost cnx inst posts).held = s.held := by
  unfold DgramRings.repost
  split <;> rfl

theorem Inv.sendDatagramFrame (h : s.Inv home) {cnx inst : ℕ} (hh : s.held cnx = some inst)
    (data : List UInt8) (a : SendAnswers) : (s.sendDatagramFrame cnx inst data a).Inv home := by
  have hopen := h.openRing hh
  have hopenHeld : (s.openRing cnx inst).held cnx = some inst := by
    rw [openRing_held]
    exact hh
  have hpost := hopen.repost hopenHeld a.reposts
  have hpostHeld : ((s.openRing cnx inst).repost cnx inst a.reposts).held cnx = some inst := by
    rw [repost_held]
    exact hopenHeld
  have h0 : (((s.openRing cnx inst).repost cnx inst a.reposts).dgram cnx).ring ≠ 0 := by
    rw [repost_ring]
    exact openRing_ring s cnx inst
  have hcommit := hpost.commit hpostHeld h0 data
  unfold DgramRings.sendDatagramFrame
  dsimp only
  split
  · split
    · exact hcommit.mark hpostHeld
    · exact hcommit.setDgram rfl
  · exact hpost

end DgramRings

end Aiopquic
