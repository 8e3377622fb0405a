import Aiopquic.DgramLifetimeInv

/-!
# The calls keep datagram rings alive

One lemma for each function, with the references that it takes over or leaves in flight.
-/

namespace Aiopquic

open Counted

namespace DgramLife

variable {s : DgramLife} {fl sf : List ℕ} {i a cnx db : ℕ} {e : Entry}

namespace Flight

/-! ## The worker's references -/

/-- A maker's reference is dropped, once no mark names the ring. -/
theorem unref (h : s.Flight (db :: fl) sf) (hmark : s.running → ∀ e ∈ s.tx, db ∉ e.markRing) :
    (s.unref db).Flight fl sf := by
  constructor
  · apply h.balanced.drop (x := db)
    intro x
    rw [List.count_cons]
    simp only [beq_iff_eq, eq_comm (a := db)]
    show s.holders x + _ = s.holders x + _ + _
    omega
  · intro x
    have := h.single x
    rw [List.count_cons] at this
    show s.callers x + fl.count x ≤ 1
    omega
  · intro hrun e he x hx
    have hne : x ≠ db := by
      rintro rfl
      exact hmark hrun e he hx
    have := h.marked hrun e he x hx
    rw [List.count_cons_of_ne (Ne.symm hne)] at this
    exact this
  · exact h.ordered
  · exact h.swept
  · exact h.structs
  · exact h.named
  · exact h.structOrdered
  · exact h.slots
  · exact h.tame

/-- `aiopquic_dgram_table_remove` drops the entry's reference with the entry. -/
theorem tableRemove (h : s.Flight fl sf) (cnx : ℕ) : (s.tableRemove cnx).Flight fl sf := by
  unfold DgramLife.tableRemove
  split
  · exact h
  · rename_i db hlook
    refine ⟨?_, h.single, h.marked, h.ordered, h.swept, h.structs, h.named, h.structOrdered, h.slots,
      h.tame⟩
    apply h.balanced.drop (x := db)
    intro x
    have := AList.count_values_erase hlook x
    show s.callers x + (s.table.values.count x + s.slots.values.count x) + fl.count x =
      s.callers x + ((s.table.erase cnx).values.count x + s.slots.values.count x) + fl.count x + _
    omega

theorem tableRemoveRing (h : s.Flight fl sf) (cnx db : ℕ) :
    (s.tableRemoveRing cnx db).Flight fl sf := by
  unfold DgramLife.tableRemoveRing
  split
  · exact h.tableRemove cnx
  · exact h

/-- `aiopquic_dgram_ring_drop` of a release that is off the ring. -/
theorem ringDrop (h : s.Flight (db :: fl) sf) (cnx : ℕ)
    (hmark : s.running → ∀ e ∈ s.tx, db ∉ e.markRing) : (s.ringDrop cnx db).Flight fl sf := by
  have hsame : (s.tableRemoveRing cnx db).running = s.running ∧
      (s.tableRemoveRing cnx db).tx = s.tx := by
    unfold DgramLife.tableRemoveRing DgramLife.tableRemove
    split
    · split <;> exact ⟨rfl, rfl⟩
    · exact ⟨rfl, rfl⟩
  apply (h.tableRemoveRing cnx db).unref
  rw [hsame.1, hsame.2]
  exact hmark

/-- `aiopquic_dgram_table_put` takes a reference of its own. -/
theorem tablePut (h : s.Flight fl sf) (hroom : s.holders db + fl.count db + 1 < word)
    (hpos : 0 < s.holders db + fl.count db) (cnx : ℕ) (allocates : Bool) :
    (s.tablePut cnx db allocates).Flight fl sf := by
  unfold DgramLife.tablePut
  split
  · rename_i hput
    refine ⟨?_, h.single, h.marked, h.ordered, h.swept, h.structs, h.named, h.structOrdered, h.slots,
      h.tame⟩
    apply h.balanced.take hpos hroom
    intro x
    have := AList.count_values_insert hput.2 db x
    show s.callers x + ((s.table.insert cnx db).values.count x + s.slots.values.count x) +
        fl.count x =
      s.callers x + (s.table.values.count x + s.slots.values.count x) + fl.count x + _
    omega
  · exact h

/-- The struct gives its ring back. -/
theorem slotClear (h : s.Flight fl sf) (a : ℕ) : (s.slotClear a).Flight fl sf := by
  unfold DgramLife.slotClear
  split
  · exact h
  · rename_i db hlook
    refine ⟨?_, h.single, h.marked, h.ordered, h.swept, h.structs, h.named, h.structOrdered, ?_,
      h.tame⟩
    · apply h.balanced.drop (x := db)
      intro x
      have := AList.count_values_erase hlook x
      show s.callers x + (s.table.values.count x + s.slots.values.count x) + fl.count x =
        s.callers x + (s.table.values.count x + (s.slots.erase a).values.count x) + fl.count x + _
      omega
    · intro b x hb
      by_cases hab : b = a
      · subst hab
        rw [show DgramHolders.slots _ = s.slots.erase b from rfl, AList.lookup_erase] at hb
        cases hb
      · rw [show DgramHolders.slots _ = s.slots.erase a from rfl, AList.lookup_erase_ne hab] at hb
        exact h.slots b x hb

theorem slotClear_lookup (a : ℕ) : (s.slotClear a).slots.lookup a = none := by
  unfold DgramLife.slotClear
  split
  · assumption
  · exact AList.lookup_erase _ _

@[simp] theorem slotClear_structs : (s.slotClear a).structs = s.structs := by
  unfold DgramLife.slotClear
  split <;> rfl

@[simp] theorem slotClear_callers : (s.slotClear a).callers = s.callers := by
  unfold DgramLife.slotClear
  split <;> rfl

/-- The struct of a state or a command that is gone is freed. -/
theorem structDestroy (h : s.Flight fl (a :: sf))
    (hmark : s.running → ∀ e ∈ s.tx, a ∉ e.markStruct) : (s.structDestroy a).Flight fl sf := by
  have hone := h.structs a
  have ha : a ∈ s.structs := by
    by_contra hnot
    rw [if_neg hnot, List.count_cons_self] at hone
    omega
  rw [if_pos ha, List.count_cons_self] at hone
  have hc := (h.useStruct ha).slotClear a
  have hsame : ((s.useStruct a).slotClear a).running = s.running ∧
      ((s.useStruct a).slotClear a).tx = s.tx ∧
      ((s.useStruct a).slotClear a).structHolders = s.structHolders := by
    unfold DgramLife.slotClear
    split <;> exact ⟨rfl, rfl, rfl⟩
  refine ⟨hc.balanced, hc.single, hc.marked, hc.ordered, hc.swept, ?_, ?_, hc.structOrdered, ?_,
    hc.tame⟩
  · intro x
    show ((s.useStruct a).slotClear a).structHolders x + _ =
      if x ∈ ((s.useStruct a).slotClear a).structs.erase a then 1 else 0
    have hx := h.structs x
    rw [hsame.2.2, slotClear_structs]
    show _ = if x ∈ s.structs.erase a then 1 else 0
    by_cases hxa : x = a
    · subst hxa
      rw [if_neg (Finset.notMem_erase _ _)]
      omega
    · rw [List.count_cons_of_ne (Ne.symm hxa)] at hx
      simp only [Finset.mem_erase, ne_eq, hxa, not_false_eq_true, true_and]
      exact hx
  · intro hrun e he x hx
    have hrun' : s.running = true := by
      rw [← hsame.1]
      exact hrun
    have he' : e ∈ s.tx := by
      rw [← hsame.2.1]
      exact he
    have hne : x ≠ a := by
      rintro rfl
      exact hmark hrun' e he' hx
    show x ∈ ((s.useStruct a).slotClear a).structs.erase a
    rw [slotClear_structs]
    exact Finset.mem_erase.2 ⟨hne, h.named hrun' e he' x hx⟩
  · intro b x hb
    have hne : b ≠ a := by
      rintro rfl
      have hnone : (s.structDestroy b).slots.lookup b = none := slotClear_lookup b
      rw [hnone] at hb
      cases hb
    exact Finset.mem_erase.2 ⟨hne, hc.slots b x hb⟩

/-- A mark of a session gives the struct its ring. -/
theorem wtMark (h : s.Flight fl sf) (hroom : s.holders db + fl.count db + 1 < word)
    (hpos : 0 < s.callers db + fl.count db) (ha : a ∈ s.structs) (v : MarkView) :
    (s.wtMark a db v).Flight fl sf := by
  have hu := h.useStruct ha
  unfold DgramLife.wtMark
  dsimp only
  split
  · exact hu
  · have hc := hu.slotClear a
    -- the struct's old reference was another ring's, or there was none
    have hle : ((s.useStruct a).slotClear a).holders db ≤ s.holders db := by
      have hw : ((s.useStruct a).slotClear a).workers db ≤ s.workers db := by
        unfold DgramLife.slotClear
        split
        · exact le_rfl
        · rename_i old hold
          have := AList.count_values_erase hold db
          show s.table.values.count db + (s.slots.erase a).values.count db ≤
            s.table.values.count db + s.slots.values.count db
          have hs : (s.useStruct a).slots = s.slots := rfl
          rw [hs] at this
          omega
      show ((s.useStruct a).slotClear a).callers db + _ ≤ s.callers db + _
      rw [slotClear_callers]
      exact Nat.add_le_add_left hw _
    have hcallers : ((s.useStruct a).slotClear a).callers db = s.callers db := by
      rw [slotClear_callers]
      rfl
    refine ⟨?_, hc.single, hc.marked, hc.ordered, hc.swept, hc.structs, hc.named, hc.structOrdered,
      ?_, hc.tame⟩
    · apply hc.balanced.take (x := db)
      · show 0 < ((s.useStruct a).slotClear a).callers db + _ + _
        omega
      · omega
      · intro x
        have := AList.count_values_insert (slotClear_lookup (s := s.useStruct a) a) db x
        show ((s.useStruct a).slotClear a).callers x +
            (((s.useStruct a).slotClear a).table.values.count x +
              (((s.useStruct a).slotClear a).slots.insert a db).values.count x) + fl.count x =
          ((s.useStruct a).slotClear a).callers x +
            (((s.useStruct a).slotClear a).table.values.count x +
              ((s.useStruct a).slotClear a).slots.values.count x) + fl.count x + _
        omega
    · intro b x hb
      by_cases hab : b = a
      · subst hab
        show b ∈ ((s.useStruct b).slotClear b).structs
        rw [slotClear_structs]
        exact ha
      · have hb' : ((s.useStruct a).slotClear a).slots.lookup b = some x := by
          rw [← hb]
          exact (AList.lookup_insert_ne hab).symm
        exact hc.slots b x hb'

/-! ## Python -/

theorem openRing (h : s.Flight fl sf) (i : ℕ) : (s.openRing i).Flight fl sf := by
  unfold DgramLife.openRing
  split
  · exact h
  · rename_i hnone
    -- nobody has the new number yet
    have hnew : s.callers (s.made + 1) + fl.count (s.made + 1) = 0 := by
      by_contra hpos
      have := h.callers_pos (Nat.pos_of_ne_zero hpos)
      omega
    have hcallers : ∀ x, DgramHolders.callers { s.toDgramHolders with
        rings := s.rings.insert i (s.made + 1), made := s.made + 1 } x =
        s.callers x + if x = s.made + 1 then 1 else 0 := by
      intro x
      have := AList.count_values_insert hnone (s.made + 1) x
      simp only [DgramHolders.callers, DgramHolders.releases]
      omega
    constructor
    · apply h.balanced.make (by decide)
      intro x
      refine (congrArg (· + s.workers x + fl.count x) (hcallers x)).trans ?_
      show _ = s.callers x + s.workers x + fl.count x + _
      omega
    · intro x
      have := h.single x
      refine le_of_eq_of_le (congrArg (· + fl.count x) (hcallers x)) ?_
      split
      · rename_i hx
        subst hx
        omega
      · omega
    · intro hrun e he x hx
      have hone := h.marked hrun e he x hx
      refine (congrArg (· + fl.count x) (hcallers x)).trans ?_
      have hne : x ≠ s.made + 1 := by
        rintro rfl
        omega
      rw [if_neg hne]
      exact hone
    · exact h.ordered
    · exact h.swept
    · exact h.structs
    · exact h.named
    · exact h.structOrdered
    · exact h.slots
    · exact h.tame

theorem repost (h : s.Flight fl sf) (hring : s.rings.lookup i = some db) (ha : s.address i ≠ 0) :
    (s.repost i db).Flight fl sf := by
  unfold DgramLife.repost
  split
  · exact (h.pushMark hring ha).setMaker i _
  · exact h

theorem mark (h : s.Flight fl sf) (hring : s.rings.lookup i = some db) (ha : s.address i ≠ 0) :
    (s.mark i db).Flight fl sf := by
  unfold DgramLife.mark
  split
  · exact h.pushMark hring ha
  · exact h.setMaker i _

theorem commit (h : s.Flight fl sf) (hring : s.rings.lookup i = some db) (ha : s.address i ≠ 0)
    (fits : Bool) : (s.commit i db fits).Flight fl sf := by
  have hpos := DgramHolders.callers_of_ring hring
  have ht : (s.touch db).Flight fl sf := h.touch (by rw [DgramHolders.holders]; omega)
  unfold DgramLife.commit
  split
  · exact ht.mark hring ha
  · exact ht

theorem sendDatagramFrame (h : s.Flight fl sf) (ha : s.address i ≠ 0) (fits : Bool) :
    (s.sendDatagramFrame i fits).Flight fl sf := by
  have ho := h.openRing i
  have haddr : (s.openRing i).address i = s.address i := by
    unfold DgramLife.openRing
    split <;> rfl
  unfold DgramLife.sendDatagramFrame
  dsimp only
  split
  · exact ho
  · rename_i db hring
    have hr := ho.repost hring (haddr ▸ ha)
    have hsame : ((s.openRing i).repost i db).rings = (s.openRing i).rings ∧
        ((s.openRing i).repost i db).address i = (s.openRing i).address i := by
      unfold DgramLife.repost
      split
      · exact ⟨rfl, by simp [address, DgramLife.setMaker, DgramLife.push]⟩
      · exact ⟨rfl, rfl⟩
    apply hr.commit
    · rw [hsame.1]
      exact hring
    · rw [hsame.2, haddr]
      exact ha

theorem datagramTxDrained (h : s.Flight fl sf) (ha : s.address i ≠ 0) :
    (s.datagramTxDrained i).Flight fl sf := by
  unfold DgramLife.datagramTxDrained
  split
  · exact h
  · rename_i db hring
    exact h.repost hring ha

/-- `aiopquic_dgram_ring_release` finds a place for the reference, or drops it. -/
theorem ringRelease (h : s.Flight (db :: fl) sf) (cnx : ℕ) (grows : Bool) :
    (s.ringRelease cnx db grows).Flight fl sf := by
  unfold DgramLife.ringRelease
  split
  · rename_i hstop
    apply h.unref
    intro hrun
    rw [hstop] at hrun
    cases hrun
  · rename_i hstop
    have hrun : s.running = true := by simpa using hstop
    split
    · exact h.pushRelease hrun cnx
    · split
      · exact (h.owe hrun cnx).releaseFlush hrun
      · exact h.lose

theorem makerRelease (h : s.Flight fl sf) (i cnx : ℕ) (grows : Bool) :
    (s.makerRelease i cnx grows).Flight fl sf := by
  unfold DgramLife.makerRelease
  split
  · exact h
  · rename_i db hring
    exact (h.takeRing hring).ringRelease cnx grows

theorem makerClose (h : s.Flight fl sf) (i : ℕ) (grows : Bool) :
    (s.makerClose i grows).Flight fl sf := by
  unfold DgramLife.makerClose
  split <;> exact (h.makerRelease i _ grows).setMaker i _

theorem stateDealloc (h : s.Flight fl sf) (i : ℕ) : (s.stateDealloc i).Flight fl sf := by
  unfold DgramLife.stateDealloc
  split
  · exact h
  · rename_i a hstate
    have ht := h.takeState hstate
    dsimp only
    split
    · rename_i hstop
      apply ht.structDestroy
      intro hrun
      rw [show s.running = true from hrun] at hstop
      cases hstop
    · split
      · exact ht.pushDeregister
      · exact ht.loseStruct

theorem makerGone (h : s.Flight fl sf) (i : ℕ) : (s.makerGone i).Flight fl sf := by
  have hm := h.setMaker i { s.makers i with closed := true, cnxPtr := 0 }
  unfold DgramLife.makerGone
  dsimp only
  apply stateDealloc
  split
  · exact hm
  · rename_i db hring
    exact (hm.takeRing hring).lose

/-! ## The stop -/

/-- With no worker, releases in flight are dropped one after the other. -/
theorem dropReleases {l : List OwedRelease} (h : s.Flight (l.map OwedRelease.db ++ fl) sf)
    (hstop : s.running = false) :
    (s.dropReleases l).Flight fl sf ∧ (s.dropReleases l).running = false := by
  induction l generalizing s with
  | nil => exact ⟨h, hstop⟩
  | cons r l ih =>
    have hstop' : (s.ringDrop r.cnx r.db).running = false := by
      rw [← hstop]
      unfold DgramLife.ringDrop DgramLife.tableRemoveRing DgramLife.tableRemove
      split
      · split <;> rfl
      · rfl
    apply ih _ hstop'
    apply h.ringDrop
    intro hrun
    rw [hstop] at hrun
    cases hrun

/-- The sweep takes all releases off the TX event ring and the list of owed ones. -/
theorem releaseUndrained (h : s.Flight fl sf) :
    (releaseUndrained { s with running := false }).Flight fl sf ∧
      (releaseUndrained { s with running := false }).running = false := by
  have hclear : ∀ e : Entry, e.clearRelease.release = none ∧ e.clearRelease.markRing = e.markRing ∧
      e.clearRelease.markStruct = e.markStruct ∧ e.clearRelease.freed = e.freed := by
    intro e
    cases hev : e.eventType <;>
      simp [Entry.clearRelease, Entry.release, Entry.markRing, Entry.markStruct, Entry.freed, hev]
  have hreleases : (s.tx.map Entry.clearRelease).filterMap Entry.release = [] := by
    rw [List.filterMap_eq_nil_iff]
    intro e he
    obtain ⟨d, _, rfl⟩ := List.mem_map.1 he
    exact (hclear d).1
  have hfreed : (s.tx.map Entry.clearRelease).filterMap Entry.freed =
      s.tx.filterMap Entry.freed := by
    rw [List.filterMap_map]
    exact List.filterMap_congr fun e _ => (hclear e).2.2.2
  apply dropReleases _ rfl
  have hcallers : ∀ x, DgramHolders.callers { s.toDgramHolders with
        running := false, tx := s.tx.map Entry.clearRelease, owed := [] } x +
      (s.releases.map OwedRelease.db ++ fl).count x = s.callers x + fl.count x := by
    intro x
    simp only [DgramHolders.callers, DgramHolders.releases, hreleases, List.append_nil, List.map_nil,
      List.count_nil, List.count_append]
    omega
  constructor
  · apply h.balanced.congr
    intro x
    have := hcallers x
    show DgramHolders.callers _ x + s.workers x + _ = s.callers x + s.workers x + _
    refine (Nat.add_right_comm _ _ _).trans ?_
    rw [Nat.add_right_comm (s.callers x)]
    exact congrArg (· + s.workers x) this
  · intro x
    exact (hcallers x).trans_le (h.single x)
  · intro hrun
    cases hrun
  · exact List.pairwise_map.2 (List.pairwise_of_forall fun d e r hr => by
      rw [Option.mem_def, (hclear d).1] at hr
      cases hr)
  · intro _
    show (s.tx.map Entry.clearRelease).filterMap Entry.release ++ [] = []
    rw [hreleases, List.append_nil]
  · intro x
    refine .trans ?_ (h.structs x)
    simp only [DgramHolders.structHolders, hfreed]
  · intro hrun
    cases hrun
  · refine List.pairwise_map.2 (h.structOrdered.imp ?_)
    intro d e hde a ha
    rw [(hclear e).2.2.1]
    rw [(hclear d).2.2.2] at ha
    exact hde a ha
  · exact h.slots
  · exact h.tame

theorem shutdown (h : s.Flight fl sf) (closed : List ℕ) : (s.shutdown closed).Flight fl sf := by
  have hs := h.releaseUndrained.1
  unfold DgramLife.shutdown
  apply setCnxs
  generalize DgramLife.releaseUndrained { s with running := false } = t at hs
  induction closed generalizing t with
  | nil => exact hs
  | cons cnx l ih => exact ih _ (hs.tableRemove cnx)

/-- `aiopquic_ctx_destroy` drops the table's references; no release is owed any more. -/
theorem ctxDestroy (h : s.Flight fl sf) (hstop : s.running = false) :
    s.ctxDestroy.Flight fl sf := by
  have howed : s.owed = [] := (List.append_eq_nil_iff.1 (h.swept hstop)).2
  refine ⟨?_, ?_, ?_, h.ordered, ?_, h.structs, h.named, h.structOrdered, h.slots, h.tame⟩
  · have hrefs : s.ctxDestroy.refs = dropAll word s.refs s.table.values := by
      rw [DgramLife.ctxDestroy, howed]
      rfl
    rw [hrefs]
    apply h.balanced.dropAll
    intro x
    have hcallers : s.ctxDestroy.callers x = s.callers x := by
      simp [DgramHolders.callers, DgramHolders.releases, DgramLife.ctxDestroy, howed]
    rw [DgramHolders.holders, DgramHolders.holders, hcallers, DgramHolders.workers]
    show _ = s.callers x + (0 + s.slots.values.count x) + _ + _
    omega
  · simpa [DgramHolders.callers, DgramHolders.releases, DgramLife.ctxDestroy, howed] using h.single
  · intro hrun
    rw [show s.running = true from hrun] at hstop
    cases hstop
  · intro hr
    simpa [DgramHolders.releases, DgramLife.ctxDestroy, howed] using h.swept hr

end Flight

end DgramLife

end Aiopquic
