import Aiopquic.DgramLifetime

/-!
# What keeps datagram rings alive

A ring's maker gives its reference up at most once, and the release is queued behind the marks that
name the ring, so that a mark never comes to the worker after the release of its ring. The same
holds of session structs and the commands that free them.

Within a call a reference can be in nobody's hands: `Flight` is the invariant with a list of rings
whose callers' references, and a list of structs, are on the way to their next holder.
-/

namespace Aiopquic

open Counted

namespace DgramHolders

variable {s : DgramHolders} {e : Entry} {db : ℕ}

/-- The releases that are queued are of rings. -/
theorem db_ne_zero_of_release {r : OwedRelease} (h : e.release = some r) : r.db ≠ 0 := by
  unfold Entry.release at h
  split at h
  · split at h
    · cases h
      assumption
    · cases h
  · cases h

theorem callers_of_ring {i : ℕ} (h : s.rings.lookup i = some db) : 0 < s.callers db := by
  have hmem : db ∈ s.rings.values := AList.mem_values.2 ⟨i, h⟩
  have := List.count_pos_iff.2 hmem
  rw [callers]
  omega

/-- A ring that its maker has is not in a release. -/
theorem notMem_releases_of_ring (hsingle : s.callers db ≤ 1) {i : ℕ}
    (h : s.rings.lookup i = some db) : ∀ r ∈ s.releases, r.db ≠ db := by
  rintro r hr rfl
  have hring := List.count_pos_iff.2 (AList.mem_values.2 ⟨i, h⟩)
  have hrel := List.count_pos_iff.2 (List.mem_map_of_mem (f := OwedRelease.db) hr)
  rw [callers] at hsingle
  omega

theorem release_mem_releases {r : OwedRelease} (he : e ∈ s.tx) (h : e.release = some r) :
    r ∈ s.releases :=
  List.mem_append_left _ (List.mem_filterMap.2 ⟨e, he, h⟩)

end DgramHolders

namespace DgramLife

/-- The invariant, with the rings of `fl` and the structs of `sf` in flight. -/
structure Flight (s : DgramLife) (fl sf : List ℕ) : Prop where
  balanced : Balanced word s.refs s.made fun db => s.holders db + fl.count db
  /-- A maker's reference is in one place. -/
  single : ∀ db, s.callers db + fl.count db ≤ 1
  /-- A mark that the worker will see names a ring that its maker has not given up. -/
  marked : s.running → ∀ e ∈ s.tx, ∀ db ∈ e.markRing, s.callers db + fl.count db = 1
  ordered : s.tx.Pairwise fun d e => ∀ r ∈ d.release, r.db ∉ e.markRing
  /-- With no worker there are no releases. -/
  swept : s.running = false → s.releases = []
  structs : ∀ a, s.structHolders a + sf.count a = if a ∈ s.structs then 1 else 0
  named : s.running → ∀ e ∈ s.tx, ∀ a ∈ e.markStruct, a ∈ s.structs
  structOrdered : s.tx.Pairwise fun d e => ∀ a ∈ d.freed, a ∉ e.markStruct
  slots : ∀ a db, s.slots.lookup a = some db → a ∈ s.structs
  tame : s.wild = false

/-- The invariant between steps. -/
def Inv (s : DgramLife) : Prop := s.Flight [] []

/-- The counters have room for another reference to any ring. -/
def Countable (s : DgramLife) : Prop := ∀ db ≤ s.made, s.holders db + 1 < word

instance (s : DgramLife) : Decidable s.Countable := inferInstanceAs (Decidable (∀ db ≤ _, _))

variable {s : DgramLife} {fl sf : List ℕ} {i a cnx db : ℕ} {e : Entry}

namespace Flight

theorem callers_pos (h : s.Flight fl sf) (hdb : 0 < s.callers db + fl.count db) :
    0 < db ∧ db ≤ s.made := by
  apply h.balanced.exists_of_held
  show 0 < s.callers db + s.workers db + fl.count db
  omega

theorem holders_pos_of_caller (hdb : 0 < s.callers db + fl.count db) :
    0 < s.holders db + fl.count db := by
  rw [DgramHolders.holders]
  omega

/-- A release has a ring. -/
theorem db_ne_zero (h : s.Flight fl sf) {r : OwedRelease} (hr : r ∈ s.releases) : r.db ≠ 0 := by
  have hpos := List.count_pos_iff.2 (List.mem_map_of_mem (f := OwedRelease.db) hr)
  have : 0 < r.db ∧ r.db ≤ s.made := h.callers_pos (by rw [DgramHolders.callers]; omega)
  omega

/-! ### Steps that change no reference -/

theorem setMaker (h : s.Flight fl sf) (i : ℕ) (m : RingMaker) : (s.setMaker i m).Flight fl sf :=
  ⟨h.balanced, h.single, h.marked, h.ordered, h.swept, h.structs, h.named, h.structOrdered, h.slots,
    h.tame⟩

theorem setCnxs (h : s.Flight fl sf) (l : List ℕ) : Flight { s with cnxs := l } fl sf :=
  ⟨h.balanced, h.single, h.marked, h.ordered, h.swept, h.structs, h.named, h.structOrdered, h.slots,
    h.tame⟩

theorem touch (h : s.Flight fl sf) (hdb : 0 < s.holders db + fl.count db) :
    (s.touch db).Flight fl sf :=
  ⟨h.balanced.touch hdb, h.single, h.marked, h.ordered, h.swept, h.structs, h.named, h.structOrdered,
    h.slots, h.tame⟩

theorem useStruct (h : s.Flight fl sf) (ha : a ∈ s.structs) : (s.useStruct a).Flight fl sf := by
  refine ⟨h.balanced, h.single, h.marked, h.ordered, h.swept, h.structs, h.named, h.structOrdered,
    h.slots, ?_⟩
  show (s.wild || decide (a ∉ s.structs)) = false
  simp [h.tame, ha]

/-! ### Pushes -/

/-- What is pushed takes over the references in flight that it names: a release, its ring's, if a
worker will come to it; a command that frees a struct, the struct. The ring of a mark is with its
maker still, and its struct is allocated. -/
theorem push (h : s.Flight fl sf) {fl' sf' : List ℕ}
    (hfl : ∀ x, (e.release.toList.map OwedRelease.db).count x + fl'.count x = fl.count x)
    (hsf : ∀ x, e.freed.toList.count x + sf'.count x = sf.count x)
    (hrun : s.running = false → e.release = none)
    (hring : ∀ db ∈ e.markRing, s.callers db + fl.count db = 1 ∧ ∀ r ∈ s.releases, r.db ≠ db)
    (hstruct : ∀ a ∈ e.markStruct, a ∈ s.structs ∧ ∀ d ∈ s.tx, a ∉ d.freed) :
    (s.push e).Flight fl' sf' := by
  have hone : ∀ {β : Type} (f : Entry → Option β), [e].filterMap f = (f e).toList := by
    intro β f
    cases hf : f e <;> simp [hf]
  have hcallers : ∀ x, (s.push e).callers x + fl'.count x = s.callers x + fl.count x := by
    intro x
    simp only [DgramHolders.callers, DgramHolders.releases, DgramLife.push, List.filterMap_append,
      hone, List.map_append, List.count_append, ← hfl x]
    omega
  have hholders : ∀ x, (s.push e).holders x + fl'.count x = s.holders x + fl.count x := by
    intro x
    have := hcallers x
    simp only [DgramHolders.holders, DgramHolders.workers] at this ⊢
    show _ + (s.table.values.count x + s.slots.values.count x) + _ = _
    omega
  have hlast : ∀ {d : Entry}, d ∈ (s.push e).tx → d ∈ s.tx ∨ d = e := fun hd =>
    (List.mem_append.1 hd).imp_right List.mem_singleton.1
  constructor
  · exact h.balanced.congr hholders
  · intro x
    rw [hcallers x]
    exact h.single x
  · intro hr d hd db hdb
    rw [hcallers db]
    rcases hlast hd with hd | rfl
    · exact h.marked hr d hd db hdb
    · exact (hring db hdb).1
  · refine List.pairwise_append.2 ⟨h.ordered, List.pairwise_singleton _ _, ?_⟩
    intro d hd e' he' r hr hmark
    cases List.mem_singleton.1 he'
    exact (hring r.db hmark).2 r (DgramHolders.release_mem_releases hd hr) rfl
  · intro hr
    have hsome := hrun hr
    have hswept := h.swept hr
    simpa [DgramHolders.releases, DgramLife.push, hsome] using hswept
  · intro x
    refine .trans ?_ (h.structs x)
    simp only [DgramHolders.structHolders, DgramLife.push, List.filterMap_append, hone,
      List.count_append, ← hsf x]
    omega
  · intro hr d hd a ha
    rcases hlast hd with hd | rfl
    · exact h.named hr d hd a ha
    · exact (hstruct a ha).1
  · refine List.pairwise_append.2 ⟨h.structOrdered, List.pairwise_singleton _ _, ?_⟩
    intro d hd e' he' a ha hmark
    cases List.mem_singleton.1 he'
    exact (hstruct a hmark).2 d hd ha
  · exact h.slots
  · exact h.tame

theorem pushRelease (h : s.Flight (db :: fl) sf) (hrun : s.running) (cnx : ℕ) :
    (s.push (releaseEntry cnx db)).Flight fl sf := by
  have hdb : db ≠ 0 := by
    have : 0 < db ∧ db ≤ s.made := h.callers_pos (by rw [List.count_cons_self]; omega)
    omega
  have hrel : (releaseEntry cnx db).release = some ⟨cnx, db⟩ := if_pos hdb
  apply h.push
  · intro x
    rw [hrel, List.count_cons]
    simp [List.count_cons, Nat.add_comm]
  · intro x
    simp [releaseEntry, Entry.freed]
  · intro hstop
    rw [hrun] at hstop
    cases hstop
  · simp [releaseEntry, Entry.markRing]
  · simp [releaseEntry, Entry.markStruct]

theorem pushDeregister (h : s.Flight fl (a :: sf)) : (s.push (deregisterEntry a)).Flight fl sf := by
  apply h.push
  · intro x
    simp [deregisterEntry, Entry.release]
  · intro x
    rw [List.count_cons]
    simp [deregisterEntry, Entry.freed, List.count_cons, Nat.add_comm]
  · intro _
    rfl
  · simp [deregisterEntry, Entry.markRing]
  · simp [deregisterEntry, Entry.markStruct]

/-- A mark is pushed by the maker of its ring, which has its struct. -/
theorem pushMark (h : s.Flight fl sf) (hring : s.rings.lookup i = some db)
    (ha : s.address i ≠ 0) : (s.push (s.markOf i db)).Flight fl sf := by
  have hsingle := h.single db
  have hpos := DgramHolders.callers_of_ring hring
  have hnone : (s.markOf i db).release = none ∧ (s.markOf i db).freed = none := by
    unfold markOf
    split <;> exact ⟨rfl, rfl⟩
  have hmark : (s.markOf i db).markRing = some db := by
    unfold markOf
    split <;> rfl
  apply h.push
  · intro x
    simp [hnone.1]
  · intro x
    simp [hnone.2]
  · intro _
    exact hnone.1
  · rintro x hx
    cases hmark.symm.trans hx
    refine ⟨by omega, DgramHolders.notMem_releases_of_ring (by omega) hring⟩
  · intro a hname
    have hstate : s.states.lookup i = some a := by
      cases hkind : (s.makers i).kind with
      | raw =>
        simp [markOf, hkind, markEntry, Entry.markStruct] at hname
      | webTransport =>
        simp only [address, hkind] at ha
        simp only [markOf, hkind, wtMarkEntry, Entry.markStruct, address] at hname
        cases hlook : s.states.lookup i with
        | none =>
          rw [hlook] at ha
          cases ha rfl
        | some b =>
          rw [hlook] at hname
          exact hname
    have hstates := List.count_pos_iff.2 (AList.mem_values.2 ⟨i, hstate⟩)
    have hcount := h.structs a
    rw [DgramHolders.structHolders] at hcount
    have hmem : a ∈ s.structs := by
      by_contra hnot
      rw [if_neg hnot] at hcount
      omega
    rw [if_pos hmem] at hcount
    refine ⟨hmem, fun d hd hfreed => ?_⟩
    have := List.count_pos_iff.2 (List.mem_filterMap.2 ⟨d, hd, hfreed⟩)
    omega

/-! ### References that change hands -/

/-- The two states differ in who has the makers' references and answers for the structs. -/
structure Alike (s t : DgramLife) : Prop where
  refs : t.refs = s.refs
  made : t.made = s.made
  tx : t.tx = s.tx
  running : t.running = s.running
  workers : t.workers = s.workers
  structs : t.structs = s.structs
  slots : t.slots = s.slots
  wild : t.wild = s.wild

theorem move (h : s.Flight fl sf) {t : DgramLife} {fl' sf' : List ℕ} (ht : Alike s t)
    (hcallers : ∀ x, t.callers x + fl'.count x = s.callers x + fl.count x)
    (hstructs : ∀ x, t.structHolders x + sf'.count x = s.structHolders x + sf.count x)
    (hswept : t.running = false → t.releases = []) : t.Flight fl' sf' := by
  constructor
  · rw [ht.refs, ht.made]
    apply h.balanced.congr
    intro x
    have := hcallers x
    have hw := congrFun ht.workers x
    simp only [DgramHolders.holders]
    omega
  · intro x
    rw [hcallers x]
    exact h.single x
  · rw [ht.running, ht.tx]
    intro hrun e he db hdb
    rw [hcallers db]
    exact h.marked hrun e he db hdb
  · rw [ht.tx]
    exact h.ordered
  · exact hswept
  · intro x
    rw [hstructs x, ht.structs]
    exact h.structs x
  · rw [ht.running, ht.tx, ht.structs]
    exact h.named
  · rw [ht.tx]
    exact h.structOrdered
  · rw [ht.slots, ht.structs]
    exact h.slots
  · rw [ht.wild]
    exact h.tame

theorem lose (h : s.Flight (db :: fl) sf) : Flight { s with lost := db :: s.lost } fl sf := by
  apply h.move
  · exact ⟨rfl, rfl, rfl, rfl, rfl, rfl, rfl, rfl⟩
  · intro x
    simp only [DgramHolders.callers, DgramHolders.releases, List.count_cons]
    omega
  · intro x
    rfl
  · exact h.swept

theorem loseStruct (h : s.Flight fl (a :: sf)) :
    Flight { s with lostStructs := a :: s.lostStructs } fl sf := by
  apply h.move
  · exact ⟨rfl, rfl, rfl, rfl, rfl, rfl, rfl, rfl⟩
  · intro x
    rfl
  · intro x
    simp only [DgramHolders.structHolders, List.count_cons]
    omega
  · exact h.swept

theorem owe (h : s.Flight (db :: fl) sf) (hrun : s.running) (cnx : ℕ) :
    Flight { s with owed := s.owed ++ [⟨cnx, db⟩] } fl sf := by
  apply h.move
  · exact ⟨rfl, rfl, rfl, rfl, rfl, rfl, rfl, rfl⟩
  · intro x
    simp only [DgramHolders.callers, DgramHolders.releases, List.map_append, List.count_append,
      List.map_cons, List.map_nil, List.count_cons, List.count_nil]
    omega
  · intro x
    rfl
  · intro hstop
    rw [show s.running = false from hstop] at hrun
    cases hrun

/-- The maker gives its ring up. -/
theorem takeRing (h : s.Flight fl sf) (hring : s.rings.lookup i = some db) :
    Flight { s with rings := s.rings.erase i } (db :: fl) sf := by
  apply h.move
  · exact ⟨rfl, rfl, rfl, rfl, rfl, rfl, rfl, rfl⟩
  · intro x
    have := AList.count_values_erase hring x
    simp only [DgramHolders.callers, DgramHolders.releases, List.count_cons, beq_iff_eq, this,
      eq_comm (a := x)]
    omega
  · intro x
    rfl
  · exact h.swept

/-- A session's state goes. -/
theorem takeState (h : s.Flight fl sf) (hstate : s.states.lookup i = some a) :
    Flight { s with states := s.states.erase i } fl (a :: sf) := by
  apply h.move
  · exact ⟨rfl, rfl, rfl, rfl, rfl, rfl, rfl, rfl⟩
  · intro x
    rfl
  · intro x
    have := AList.count_values_erase hstate x
    simp only [DgramHolders.structHolders, List.count_cons, beq_iff_eq, this, eq_comm (a := x)]
    omega
  · exact h.swept

/-- Owed releases are posted. -/
theorem releaseFlush (h : s.Flight fl sf) (hrun : s.running) : s.releaseFlush.Flight fl sf := by
  have hposted : ∀ l : List OwedRelease, (∀ r ∈ l, r.db ≠ 0) →
      (l.map fun r => releaseEntry r.cnx r.db).filterMap Entry.release = l := by
    intro l hl
    induction l with
    | nil => rfl
    | cons r l ih =>
      have hr : (releaseEntry r.cnx r.db).release = some r := if_pos (hl r (List.mem_cons_self ..))
      rw [List.map_cons, List.filterMap_cons, hr]
      show r :: _ = _
      rw [ih fun r hr => hl r (List.mem_cons_of_mem _ hr)]
  have hreleases : s.releaseFlush.releases = s.releases := by
    simp only [DgramHolders.releases, DgramLife.releaseFlush, List.filterMap_append]
    rw [hposted, List.append_assoc, List.take_append_drop]
    intro r hr
    exact h.db_ne_zero (List.mem_append_right _ (List.mem_of_mem_take hr))
  have hcallers : s.releaseFlush.callers = s.callers := by
    funext x
    rw [DgramHolders.callers, hreleases]
    rfl
  have hfreed : s.releaseFlush.tx.filterMap Entry.freed = s.tx.filterMap Entry.freed := by
    simp only [DgramLife.releaseFlush, List.filterMap_append]
    apply List.append_right_eq_self.2
    rw [List.filterMap_eq_nil_iff]
    intro e he
    obtain ⟨r, _, rfl⟩ := List.mem_map.1 he
    rfl
  -- a release that is posted names no mark's ring and no struct
  have hlast : ∀ e ∈ s.releaseFlush.tx, e ∈ s.tx ∨ e.markRing = none ∧ e.markStruct = none := by
    intro e he
    rcases List.mem_append.1 he with he | he
    · exact .inl he
    · obtain ⟨r, _, rfl⟩ := List.mem_map.1 he
      exact .inr ⟨rfl, rfl⟩
  constructor
  · have hholders : s.releaseFlush.holders = s.holders := by
      funext x
      rw [DgramHolders.holders, hcallers]
      rfl
    rw [hholders]
    exact h.balanced
  · rw [hcallers]
    exact h.single
  · intro _ e he db hdb
    rw [hcallers]
    rcases hlast e he with he | ⟨hnone, _⟩
    · exact h.marked hrun e he db hdb
    · rw [hnone] at hdb
      cases hdb
  · refine List.pairwise_append.2 ⟨h.ordered, ?_, ?_⟩
    · rw [List.pairwise_map]
      exact List.pairwise_of_forall fun _ _ _ _ hmark => by cases hmark
    · intro d _ e he r _ hmark
      obtain ⟨q, _, rfl⟩ := List.mem_map.1 he
      cases hmark
  · intro hstop
    rw [show s.running = false from hstop] at hrun
    cases hrun
  · intro x
    rw [DgramHolders.structHolders, hfreed]
    exact h.structs x
  · intro _ e he a ha
    rcases hlast e he with he | ⟨_, hnone⟩
    · exact h.named hrun e he a ha
    · rw [hnone] at ha
      cases ha
  · refine List.pairwise_append.2 ⟨h.structOrdered, ?_, ?_⟩
    · rw [List.pairwise_map]
      exact List.pairwise_of_forall fun _ _ _ _ hmark => by cases hmark
    · intro d _ e he a _ hmark
      obtain ⟨q, _, rfl⟩ := List.mem_map.1 he
      cases hmark
  · exact h.slots
  · exact h.tame

end Flight

end DgramLife

end Aiopquic
