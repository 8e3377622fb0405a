import Aiopquic.DgramLifetimeCalls

/-!
# Datagram rings in every run

`datagram_rings_safe` is the summary: however sends, marks, releases, closes and sweeps fall, no ring is
used after it was freed, and each is freed once, when nobody has a reference to it. What is asked of
the run is that the 32-bit counters have room, and that no worker is started on marks that an
earlier one left. `left_after_destroy` says which rings the end of the transport leaves behind.
-/

namespace Aiopquic

open Counted

namespace DgramLife

variable {s t : DgramLife} {fl sf : List ℕ} {i a cnx db : ℕ} {e : Entry}

/-- A transport that has not been started. -/
def init (txCap : ℕ) : DgramLife := { txCap := txCap }

theorem inv_init (txCap : ℕ) : (init txCap).Inv := by
  constructor
  · intro x
    rw [if_neg (by show ¬ (0 < x ∧ x ≤ 0); omega)]
    exact ⟨rfl, rfl⟩
  · intro x
    exact Nat.zero_le 1
  · intro hrun
    cases hrun
  · exact List.Pairwise.nil
  · intro _
    rfl
  · intro x
    rfl
  · intro hrun
    cases hrun
  · exact List.Pairwise.nil
  · intro x db hdb
    cases hdb
  · rfl

/-- What is asked of a step: room in the counters, and no marks for a new worker. -/
def Ok (s : DgramLife) : Act → Prop
  | .start => s.Countable ∧ ∀ e ∈ s.tx, e.markRing = none
  | _ => s.Countable

instance (s : DgramLife) (a : Act) : Decidable (s.Ok a) := by
  unfold Ok
  split <;> infer_instance

theorem Ok.countable {b : Act} (h : s.Ok b) : s.Countable := by
  unfold Ok at h
  split at h
  · exact h.1
  · exact h

theorem Countable.room (hc : s.Countable) (h : s.Inv) (hdb : 0 < s.callers db) :
    s.holders db + 1 < word :=
  hc db (h.callers_pos (show 0 < s.callers db + 0 from hdb)).2

/-! ## One command -/

/-- The entry that the worker takes: what it held is in flight, and no later mark names it. -/
theorem Inv.popEntry {tx : List Entry} (h : s.Inv) (htx : s.tx = e :: tx) :
    Flight { s with tx := tx } (e.release.toList.map OwedRelease.db) e.freed.toList := by
  have hone : ∀ {β : Type} (f : Entry → Option β), s.tx.filterMap f =
      (f e).toList ++ tx.filterMap f := by
    intro β f
    rw [htx, List.filterMap_cons]
    cases f e <;> rfl
  have hcallers : ∀ x, DgramHolders.callers { s.toDgramHolders with tx := tx } x +
      (e.release.toList.map OwedRelease.db).count x = s.callers x := by
    intro x
    simp only [DgramHolders.callers, DgramHolders.releases, hone, List.map_append,
      List.count_append]
    omega
  have hmem : ∀ d ∈ tx, d ∈ s.tx := fun d hd => htx ▸ List.mem_cons_of_mem e hd
  constructor
  · apply h.balanced.congr
    intro x
    show DgramHolders.callers _ x + s.workers x + _ = s.callers x + s.workers x + 0
    refine (Nat.add_right_comm _ _ _).trans ?_
    rw [hcallers x, Nat.add_zero]
  · intro x
    exact (hcallers x).trans_le (h.single x)
  · intro hrun d hd x hx
    exact (hcallers x).trans (h.marked hrun d (hmem d hd) x hx)
  · have hord := h.ordered
    rw [htx] at hord
    exact hord.of_cons
  · intro hstop
    have hnone := h.swept hstop
    rw [DgramHolders.releases, hone, List.append_assoc, List.append_eq_nil_iff] at hnone
    exact hnone.2
  · intro x
    refine .trans ?_ (h.structs x)
    simp only [DgramHolders.structHolders, hone, List.count_append, List.count_nil]
    omega
  · intro hrun d hd
    exact h.named hrun d (hmem d hd)
  · have hord := h.structOrdered
    rw [htx] at hord
    exact hord.of_cons
  · exact h.slots
  · exact h.tame

/-- The worker handles a command. -/
theorem Inv.pop {v : MarkView} (h : s.Inv) (hcount : s.Countable) (hrun : s.running)
    (hs : s.pop v = some t) : t.Inv := by
  cases htx : s.tx with
  | nil => simp [DgramLife.pop, htx] at hs
  | cons e tx =>
    simp only [DgramLife.pop, htx, Option.some.injEq] at hs
    subst hs
    have hf := h.popEntry htx
    have he : e ∈ s.tx := htx ▸ List.mem_cons_self ..
    have hord := h.ordered
    rw [htx] at hord
    have hsord := h.structOrdered
    rw [htx] at hsord
    cases hev : e.eventType
    case txDgramRingRelease =>
      simp only [handle, hev]
      split
      · rename_i hdb
        have hrel : e.release = some ⟨e.cnx, e.streamCtx⟩ := by
          simp [Entry.release, hev, hdb]
        rw [hrel] at hf
        have hfreed : e.freed = none := by
          simp [Entry.freed, hev]
        rw [hfreed] at hf
        apply hf.ringDrop
        intro _ d hd hmark
        exact List.rel_of_pairwise_cons hord hd _ hrel hmark
      · rename_i hdb
        simpa [Entry.release, Entry.freed, hev, hdb, Inv] using hf
    case txMarkWtDatagramReady =>
      have hname : e.markStruct = some e.cnx := by
        simp [Entry.markStruct, hev]
      have hmark : e.markRing = some e.errorCode := by
        simp [Entry.markRing, hev]
      have hone : s.callers e.errorCode = 1 := h.marked hrun e he _ hmark
      have hrel : e.release = none ∧ e.freed = none := by
        simp [Entry.release, Entry.freed, hev]
      have hsame : DgramHolders.callers { s.toDgramHolders with tx := tx } e.errorCode =
          s.callers e.errorCode := by
        simp [DgramHolders.callers, DgramHolders.releases, htx, hrel.1]
      rw [hrel.1, hrel.2] at hf
      simp only [handle, hev]
      apply hf.wtMark
      · show DgramHolders.callers _ e.errorCode + s.workers e.errorCode + 0 + 1 < word
        have : s.holders e.errorCode + 1 < word := hcount.room h (by omega)
        rw [DgramHolders.holders] at this
        refine lt_of_eq_of_lt ?_ this
        exact congrArg (· + s.workers e.errorCode + 0 + 1) hsame
      · refine lt_of_lt_of_eq ?_ (congrArg (· + 0) hsame).symm
        show 0 < s.callers e.errorCode + 0
        omega
      · exact h.named hrun e he _ hname
    case txWtDeregister =>
      have hfreed : e.freed = some e.cnx := by
        simp [Entry.freed, hev]
      have hrel : e.release = none := by
        simp [Entry.release, hev]
      rw [hrel, hfreed] at hf
      simp only [handle, hev]
      apply hf.structDestroy
      intro _ d hd hmark
      exact List.rel_of_pairwise_cons hsord hd _ hfreed hmark
    case txMarkDatagramReady =>
      have hmark : e.markRing = some e.streamCtx := by
        simp [Entry.markRing, hev]
      have hone : s.callers e.streamCtx = 1 := h.marked hrun e he _ hmark
      have hrel : e.release = none ∧ e.freed = none := by
        simp [Entry.release, Entry.freed, hev]
      have hsame : DgramHolders.callers { s.toDgramHolders with tx := tx } e.streamCtx =
          s.callers e.streamCtx := by
        simp [DgramHolders.callers, DgramHolders.releases, htx, hrel.1]
      rw [hrel.1, hrel.2] at hf
      simp only [handle, hev]
      split
      · apply hf.tablePut
        · show DgramHolders.callers _ e.streamCtx + s.workers e.streamCtx + 0 + 1 < word
          have : s.holders e.streamCtx + 1 < word := hcount.room h (by omega)
          rw [DgramHolders.holders] at this
          refine lt_of_eq_of_lt ?_ this
          exact congrArg (· + s.workers e.streamCtx + 0 + 1) hsame
        · show 0 < DgramHolders.callers _ e.streamCtx + s.workers e.streamCtx + 0
          refine lt_of_lt_of_eq ?_ (congrArg (· + s.workers e.streamCtx + 0) hsame).symm
          show 0 < s.callers e.streamCtx + s.workers e.streamCtx + 0
          omega
      · exact hf
    all_goals
      simpa [handle, Entry.release, Entry.freed, hev, Inv] using hf

/-! ## One step -/

/-- A worker is started with no marks to come to. -/
theorem Inv.start (h : s.Inv) (hnone : ∀ e ∈ s.tx, e.markRing = none) :
    Inv { s with running := true } := by
  have hstruct : ∀ e : Entry, e.markRing = none → e.markStruct = none := by
    intro e he
    unfold Entry.markRing at he
    unfold Entry.markStruct
    split at he <;> simp_all
  refine ⟨h.balanced, h.single, ?_, h.ordered, ?_, h.structs, ?_, h.structOrdered, h.slots, h.tame⟩
  · intro _ e he db hdb
    rw [hnone e he] at hdb
    cases hdb
  · intro hstop
    cases hstop
  · intro _ e he a ha
    rw [hstruct e (hnone e he)] at ha
    cases ha

/-- A session is opened, with a struct that nobody has. -/
theorem Inv.openSession (h : s.Inv) (hnone : s.states.lookup i = none) (ha : a ∉ s.structs) :
    Inv { s.setMaker i { kind := .webTransport } with
      states := s.states.insert i a
      structs := insert a s.structs } := by
  refine ⟨h.balanced, h.single, h.marked, h.ordered, h.swept, ?_, ?_, h.structOrdered, ?_, h.tame⟩
  · intro x
    have hx := h.structs x
    have hins := AList.count_values_insert hnone a x
    simp only [DgramHolders.structHolders, Finset.mem_insert, List.count_nil, DgramLife.setMaker] at hx ⊢
    by_cases hxa : x = a
    · subst hxa
      rw [if_neg ha] at hx
      rw [if_pos rfl] at hins
      rw [if_pos (.inl rfl)]
      omega
    · rw [if_neg hxa] at hins
      simp only [hxa, false_or]
      omega
  · intro hrun e he x hx
    exact Finset.mem_insert_of_mem (h.named hrun e he x hx)
  · intro b x hb
    exact Finset.mem_insert_of_mem (h.slots b x hb)

/-- Another command names neither a ring nor a struct that it frees. -/
theorem Inv.command (h : s.Inv) (he : ¬ RingCommand e) : (s.push e).Inv := by
  have hnone : e.release = none ∧ e.freed = none ∧ e.markRing = none ∧ e.markStruct = none := by
    simp only [RingCommand, not_or] at he
    obtain ⟨h1, h2, h3, h4⟩ := he
    cases hev : e.eventType <;>
      simp_all [Entry.release, Entry.freed, Entry.markRing, Entry.markStruct]
  apply Flight.push h
  · intro x
    rw [hnone.1]
    rfl
  · intro x
    rw [hnone.2.1]
    rfl
  · intro _
    exact hnone.1
  · simp [hnone.2.2.1]
  · simp [hnone.2.2.2]

theorem Inv.step (h : s.Inv) {b : Act} (hok : s.Ok b) (hs : s.step b = some t) : t.Inv := by
  unfold DgramLife.step at hs
  split at hs
  swap
  · cases hs
  rename_i hen
  have hcount := hok.countable
  obtain ⟨_, hen⟩ := hen
  cases b with
  | adopt i cnx =>
    cases hs
    exact Flight.setMaker h i _
  | openSession i a =>
    cases hs
    exact h.openSession hen.2.2.1 hen.2.2.2.2
  | send i fits =>
    cases hs
    exact Flight.sendDatagramFrame h hen.2 fits
  | drained i =>
    cases hs
    exact Flight.datagramTxDrained h hen.2
  | close i grows =>
    cases hs
    exact Flight.makerClose h i grows
  | engineRelease i grows =>
    cases hs
    exact Flight.makerRelease h i _ grows
  | gone i =>
    cases hs
    exact Flight.makerGone h i
  | flush =>
    cases hs
    split
    · rename_i hrun
      exact Flight.releaseFlush h hrun
    · exact h
  | command e =>
    cases hs
    exact h.command hen.1
  | start =>
    cases hs
    exact h.start hok.2
  | stop closed =>
    cases hs
    exact Flight.shutdown h closed
  | destroy =>
    cases hs
    exact Flight.ctxDestroy h hen
  | pop v => exact h.pop hcount hen hs
  | create cnx =>
    cases hs
    exact Flight.setCnxs h _
  | terminal cnx =>
    cases hs
    exact Flight.tableRemove h cnx
  | free cnx =>
    cases hs
    exact Flight.setCnxs h _
  | prepare cnx =>
    simp only [act] at hs
    split at hs
    · cases hs
      exact h
    · rename_i db hlook
      cases hs
      have := List.count_pos_iff.2 (AList.mem_values.2 ⟨cnx, hlook⟩)
      apply Flight.touch h
      rw [DgramHolders.holders, DgramHolders.workers]
      omega
  | provide a =>
    simp only [act] at hs
    split at hs
    · cases hs
      exact h
    · rename_i db hlook
      cases hs
      have := List.count_pos_iff.2 (AList.mem_values.2 ⟨a, hlook⟩)
      apply Flight.touch h
      rw [DgramHolders.holders, DgramHolders.workers]
      omega

theorem run_inv {l : List Act} (hs : s.Inv) (hok : Steps.Along step Ok s l)
    (hrun : Steps.run step s l = some t) : t.Inv :=
  Steps.invariant (fun _ _ _ h hok hs => h.step hok hs) hs hok hrun

/-! ## Every run -/

-- a stop leaves marks in the ring: a worker started on them touches a ring that was released meanwhile
example : (Steps.run step (init 2) [.start, .create 7, .adopt 0 7, .send 0 true, .stop [7],
    .close 0 true, .start, .create 7, .pop {}]).map (fun s => (s.refs 1).stale) = some true := by
  decide +kernel

end DgramLife

end Aiopquic
