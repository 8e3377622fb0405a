import Aiopquic.DgramTableCalls
import Aiopquic.Lib.Steps

/-!
# Runs of the table of datagram rings

Beside the table a run has the map that it stands for. With fewer than `2 ^ 26` entries the table
refines the map as long as it does not have to grow beyond `2 ^ 31` slots. The growth after that
leaves it with none.
-/

namespace Aiopquic

/-- A call of the worker on the table. -/
inductive TableCall
  | put (cnx db : ℕ) (allocates : Bool)
  | get (cnx : ℕ)
  | remove (cnx : ℕ)
  | removeRing (cnx db : ℕ)
  deriving DecidableEq, Repr

/-- What a call returns. -/
inductive TableAnswer
  | rc (rc : ℤ)
  | ring (db : ℕ)
  | done
  deriving DecidableEq, Repr

/-- A table, the map it stands for, and what both have answered. `fault` is set when a call did not
return, and nothing is called after that. -/
structure TableRun where
  table : DgramTable
  map : ℕ → Option ℕ := fun _ => none
  answers : List (TableCall × TableAnswer × TableAnswer) := []
  fault : Option TableFault := none

namespace TableRun

/-- The address that a call names. The worker passes no ring that is `NULL` to a `put`. -/
def Proper : TableCall → Prop
  | .put cnx db _ => DgramTable.Proper cnx ∧ db ≠ 0
  | .get cnx | .remove cnx | .removeRing cnx _ => DgramTable.Proper cnx

instance : DecidablePred Proper
  | .put _ _ _ => inferInstanceAs (Decidable (_ ∧ _))
  | .get cnx | .remove cnx | .removeRing cnx _ =>
    inferInstanceAs (Decidable (DgramTable.Proper cnx))

def call (rounds : ℕ) : TableCall → Fallible DgramTable TableFault TableAnswer
  | .put cnx db allocates => do
    let rc ← DgramTable.put rounds cnx db allocates
    pure (.rc rc)
  | .get cnx => do
    let db ← DgramTable.get rounds cnx
    pure (.ring db)
  | .remove cnx => do
    DgramTable.remove rounds cnx
    pure .done
  | .removeRing cnx db => do
    DgramTable.removeRing rounds cnx db
    pure .done

/-- What the map answers. -/
def mapAnswer (m : ℕ → Option ℕ) : TableCall → TableAnswer
  | .put _ _ _ => .rc 0
  | .get cnx => .ring ((m cnx).getD 0)
  | .remove _ | .removeRing _ _ => .done

/-- The map after a call that the table answered with `a`. -/
def mapAfter (m : ℕ → Option ℕ) (a : TableAnswer) : TableCall → ℕ → Option ℕ
  | .put cnx db _ => DgramRings.put m cnx db (a = .rc 0)
  | .get _ => m
  | .remove cnx => DgramRings.remove m cnx
  | .removeRing cnx db => DgramTable.removed m cnx db

def perform (rounds : ℕ) (s : TableRun) (c : TableCall) : TableRun :=
  match call rounds c s.table with
  | (.ok a, t) =>
    { s with
      table := t
      map := mapAfter s.map a c
      answers := s.answers ++ [(c, a, mapAnswer s.map c)] }
  | (.error e, t) => { s with table := t, fault := some e }

/-- One call, on a table of fewer than `2 ^ 26` entries. -/
def step (rounds : ℕ) (s : TableRun) (c : TableCall) : Option TableRun :=
  if Proper c ∧ s.table.live < 2 ^ 26 then some (if s.fault = none then s.perform rounds c else s)
  else none

/-- The table before the first call. `base` are the references of the rings that others hold. -/
def init (base : ℕ → ℕ) : TableRun := { table := { refcnt := base } }

/-- The number of slots with `p`. -/
def slotCount (t : DgramTable) (p : DgramSlot → Prop) [DecidablePred p] : ℕ :=
  ((Finset.range t.cap).filter fun i => p (t.slots i)).card

/-- A `put` may answer `-1` where there is no memory to grow. -/
def OutOfMemory (c : TableCall) (a : TableAnswer) : Prop :=
  ∃ cnx db, c = .put cnx db false ∧ a = .rc (-1)

/-- Every call has returned, with the answer of the map, and the table has the entries of the map,
once each and with one reference for each. -/
structure Refines (base : ℕ → ℕ) (s : TableRun) : Prop where
  returned : s.fault = none
  answers : ∀ p ∈ s.answers, p.2.1 = p.2.2 ∨ OutOfMemory p.1 p.2.1
  map : ∀ k r, s.map k = some r ↔
    DgramTable.Proper k ∧ ∃ i < s.table.cap, s.table.slots i = ⟨k, r⟩
  once : ∀ i < s.table.cap, ∀ j < s.table.cap, DgramTable.Proper (s.table.slots i).cnx →
    (s.table.slots i).cnx = (s.table.slots j).cnx → i = j
  live : s.table.live = slotCount s.table fun e => DgramTable.Proper e.cnx
  used : s.table.used = slotCount s.table fun e => e.cnx ≠ 0
  empty : s.table.cap = 0 ∨ ∃ i < s.table.cap, (s.table.slots i).cnx = 0
  refs : ∀ r ≠ 0, s.table.refcnt r =
    base r + slotCount s.table fun e => DgramTable.Proper e.cnx ∧ e.db = r

/-- A `put` does not make a table of `2 ^ 31` slots grow. -/
def InRoom (s : TableRun) : TableCall → Prop
  | .put _ _ allocates => allocates = true → s.table.cap = 2 ^ 31 → s.table.used < 214748364
  | _ => True

instance (s : TableRun) : DecidablePred s.InRoom
  | .put _ _ _ => inferInstanceAs (Decidable (_ → _ → _))
  | .get _ | .remove _ | .removeRing _ _ => .isTrue trivial

/-! ## The table refines the map -/

section

variable {base : ℕ → ℕ} {s s' : TableRun} {c : TableCall} {rounds : ℕ}

/-- What holds of the run as long as every call has returned. -/
structure Sound (base : ℕ → ℕ) (s : TableRun) : Prop where
  table : s.fault = none → s.table.Inv base s.map
  answers : ∀ p ∈ s.answers, p.2.1 = p.2.2 ∨ OutOfMemory p.1 p.2.1

theorem sound_init (base : ℕ → ℕ) : (init base).Sound base :=
  ⟨fun _ => DgramTable.inv_init fun _ _ => rfl, fun _ h => absurd h List.not_mem_nil⟩

/-- In a table of `2 ^ 31` slots a tenth of these is already a load. -/
theorem loaded_iff (h : s.table.Inv base s.map) (hcap : s.table.cap = 2 ^ 31) :
    s.table.Loaded ↔ ¬ s.table.used < 214748364 := by
  have hload := h.load (by omega)
  rw [hcap] at hload
  rw [DgramTable.Loaded, hcap, Nat.mod_eq_of_lt (show s.table.used + 1 < 2 ^ 32 by omega),
    Nat.mod_eq_of_lt (show (s.table.used + 1) * 10 < 2 ^ 32 by omega)]
  omega

theorem call_spec (h : s.table.Inv base s.map) (hc : Proper c) (hrounds : 2 ^ 31 ≤ rounds)
    (hfew : s.table.live < 2 ^ 26) (hin : s.InRoom c) :
    ∃ a t, call rounds c s.table = (.ok a, t) ∧ t.Inv base (mapAfter s.map a c) ∧
    (a = mapAnswer s.map c ∨ OutOfMemory c a) := by
  cases c with
  | put cnx db allocates =>
    obtain ⟨rc, t, hput, hrc, hinv⟩ := DgramTable.put_spec h hc.1 hc.2 hrounds hfew
      fun ha hcap => mt (loaded_iff h hcap).1 (not_not.2 (hin ha hcap))
    refine ⟨.rc rc, t, Fallible.bind_ok hput, ?_, ?_⟩
    · simpa only [mapAfter, TableAnswer.rc.injEq] using hinv
    · rcases hrc with rfl | ⟨rfl, rfl⟩
      · exact .inl rfl
      · exact .inr ⟨cnx, db, rfl, rfl⟩
  | get cnx =>
    exact ⟨_, _, Fallible.bind_ok (DgramTable.get_spec h hc hrounds), h, .inl rfl⟩
  | remove cnx =>
    obtain ⟨t, hremove, hinv⟩ := DgramTable.removeRing_spec h hc hrounds 0
    exact ⟨.done, t, Fallible.bind_ok hremove, hinv, .inl rfl⟩
  | removeRing cnx db =>
    obtain ⟨t, hremove, hinv⟩ := DgramTable.removeRing_spec h hc hrounds db
    exact ⟨.done, t, Fallible.bind_ok hremove, hinv, .inl rfl⟩

theorem call_faults (h : s.table.Inv base s.map) (hin : ¬ s.InRoom c) :
    ∃ e t, call rounds c s.table = (.error e, t) := by
  cases c with
  | put cnx db allocates =>
    obtain ⟨ha, hcap, hused⟩ : allocates = true ∧ s.table.cap = 2 ^ 31 ∧
        ¬ s.table.used < 214748364 := by
      simp only [InRoom, Classical.not_imp] at hin
      exact hin
    subst ha
    obtain ⟨e, t, hput⟩ := DgramTable.put_faults rounds cnx db hcap
      ((loaded_iff h hcap).2 hused)
    exact ⟨e, t, Fallible.bind_error hput⟩
  | get _ | remove _ | removeRing _ _ => exact absurd trivial hin

theorem slotCount_eq (t : DgramTable) (p : DgramSlot → Prop) [DecidablePred p]
    (q : Slot ℕ ℕ → Prop) [DecidablePred q] (h : ∀ e, q (DgramTable.view e) ↔ p e) :
    OpenAddressing.count q t.cap (DgramTable.views t.slots) = slotCount t p :=
  congrArg Finset.card (Finset.filter_congr fun _ _ => h _)

theorem Refines.of_sound (h : s.Sound base) (hf : s.fault = none) : s.Refines base := by
  have hinv := h.table hf
  refine ⟨hf, h.answers, fun k r => ?_, fun i hi j hj hk heq => ?_, ?_, ?_, ?_, fun r hr => ?_⟩
  · rw [hinv.map]
    constructor
    · rintro ⟨i, hi, hentry⟩
      obtain ⟨hk, hslot⟩ := DgramTable.view_eq_entry.1 hentry
      exact ⟨hk, i, hi, hslot⟩
    · rintro ⟨hk, i, hi, hslot⟩
      exact ⟨i, hi, DgramTable.view_eq_entry.2 ⟨hk, hslot⟩⟩
  · have hj' : DgramTable.views s.table.slots j =
        .entry (s.table.slots i).cnx (s.table.slots j).db :=
      DgramTable.view_eq_entry.2 ⟨hk, by rw [heq]⟩
    exact hinv.placed.once i hi j hj _ _ _ (DgramTable.view_entry hk _) hj'
  · rw [hinv.live]
    exact slotCount_eq _ _ _ fun e => DgramTable.view_live
  · rw [hinv.used]
    exact slotCount_eq _ _ _ fun e => not_congr DgramTable.view_eq_free
  · rcases Nat.eq_zero_or_pos s.table.cap with hzero | hpos
    · exact .inl hzero
    · obtain ⟨d, hs⟩ := hinv.stops hpos.ne' 0
      have hload := hinv.load hpos.ne'
      have hmod := Nat.mod_le (s.table.cap * 7) (2 ^ 32)
      obtain ⟨i, hi, hfree⟩ := OpenAddressing.exists_free
        (show OpenAddressing.count (· ≠ .free) s.table.cap (DgramTable.views s.table.slots) <
          s.table.cap by rw [← hinv.used]; omega)
      exact .inr ⟨i, hi, DgramTable.view_eq_free.1 hfree⟩
  · rw [hinv.refs r hr]
    refine congrArg _ (slotCount_eq _ _ _ fun e => ?_)
    rw [← DgramTable.view_live]
    constructor
    · intro hring
      cases hv : DgramTable.view e with
      | free => simp [hv, DgramTable.HasRing] at hring
      | dead => simp [hv, DgramTable.HasRing] at hring
      | entry k v =>
        rw [hv] at hring
        exact ⟨trivial, by rw [(DgramTable.view_eq_entry.1 hv).2]; exact hring⟩
    · rintro ⟨hlive, rfl⟩
      rw [DgramTable.view_entry (DgramTable.view_live.1 hlive) e.db]
      rfl

/-- A call keeps the run sound, and returns exactly if it is in room. -/
theorem Sound.step (hrounds : 2 ^ 31 ≤ rounds) (h : s.Sound base) (hstep : step rounds s c = some s') :
    s'.Sound base ∧ (s'.fault = none ↔ s.fault = none ∧ s.InRoom c) := by
  unfold TableRun.step at hstep
  split at hstep
  · rename_i hdomain
    obtain ⟨hc, hfew⟩ := hdomain
    by_cases hf : s.fault = none
    · rw [if_pos hf, Option.some.injEq] at hstep
      subst hstep
      by_cases hin : s.InRoom c
      · obtain ⟨a, t, hcall, hinv, ha⟩ := call_spec (h.table hf) hc hrounds hfew hin
        rw [perform, hcall]
        refine ⟨⟨fun _ => hinv, fun p hp => ?_⟩, iff_of_true hf ⟨hf, hin⟩⟩
        rcases List.mem_append.1 hp with hold | hnew
        · exact h.answers p hold
        · rw [List.mem_singleton.1 hnew]
          exact ha
      · obtain ⟨e, t, hcall⟩ : ∃ e t, call rounds c s.table = (.error e, t) :=
          call_faults (h.table hf) hin
        rw [perform, hcall]
        exact ⟨⟨fun hno => absurd hno (by simp), h.answers⟩,
          iff_of_false (by simp) fun hok => hin hok.2⟩
    · rw [if_neg hf, Option.some.injEq] at hstep
      subst hstep
      exact ⟨h, iff_of_false hf fun hok => hf hok.1⟩
  · cases hstep

end

/-- The table refines the map after a run exactly if no `put` made a table of `2 ^ 31` slots
grow. -/
theorem table_refines_iff (rounds : ℕ) (hrounds : 2 ^ 31 ≤ rounds) (base : ℕ → ℕ)
    (calls : List TableCall) (s : TableRun) (hrun : Steps.run (step rounds) (init base) calls = some s) :
    s.Refines base ↔ Steps.Along (step rounds) InRoom (init base) calls := by
  have hsound : s.Sound base :=
    Steps.preserved (fun _ _ _ h hstep => (h.step hrounds hstep).1) (sound_init base) hrun
  have hrecord := Steps.record_iff_of_inv (J := Sound base) (I := fun s => s.fault = none)
    (fun _ _ _ h hstep => (h.step hrounds hstep).1) (fun _ _ _ h hstep => (h.step hrounds hstep).2)
    (sound_init base) hrun
  rw [← and_iff_right (show (init base).fault = none from rfl) (b := Steps.Along _ _ _ _), ← hrecord]
  exact ⟨Refines.returned, Refines.of_sound hsound⟩

/-- Two connections with their rings, and a release that comes too late for its connection. -/
theorem table_refines_short : ∃ s, Steps.run (step (2 ^ 31)) (init fun _ => 1)
      [.put 4096 1 true, .put 8192 2 true, .get 4096, .remove 4096, .put 4096 3 true,
        .removeRing 4096 1] = some s ∧ s.Refines fun _ => 1 := by
  obtain ⟨s, hs⟩ := Option.isSome_iff_exists.1 (by decide +kernel :
    (Steps.run (step (2 ^ 31)) (init fun _ => 1) [.put 4096 1 true, .put 8192 2 true, .get 4096,
      .remove 4096, .put 4096 3 true, .removeRing 4096 1]).isSome = true)
  exact ⟨s, hs, (table_refines_iff (2 ^ 31) le_rfl _ _ s hs).2 (by decide +kernel)⟩

end TableRun

end Aiopquic
