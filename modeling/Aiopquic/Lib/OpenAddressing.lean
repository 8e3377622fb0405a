import Mathlib.Algebra.BigOperators.Group.Finset.Piecewise
import Mathlib.Algebra.Order.BigOperators.Group.Finset
import Mathlib.Order.Interval.Finset.Nat

/-!
# Hash tables with open addressing

The table has `n` slots. An entry is at the first position of its key's probe sequence, which goes
up from `home k` and around, that had no entry when it came; a removal leaves a dead slot behind.
`Placed` says that no free slot is before an entry on its sequence, so that a search may stop at the
first free slot, and that no key is in two slots.
-/

/-- A slot that never had an entry, one whose entry was removed, or one with an entry. -/
inductive Slot (K V : Type)
  | free
  | dead
  | entry (k : K) (v : V)
  deriving DecidableEq

namespace Slot

variable {K V : Type}

/-- The slot has an entry. -/
def Live : Slot K V → Prop
  | entry _ _ => True
  | _ => False

instance : DecidablePred (Live : Slot K V → Prop)
  | free => .isFalse id
  | dead => .isFalse id
  | entry _ _ => .isTrue trivial

@[simp] theorem not_live_free : ¬ (free : Slot K V).Live := id

@[simp] theorem not_live_dead : ¬ (dead : Slot K V).Live := id

@[simp] theorem live_entry (k : K) (v : V) : (entry k v).Live := trivial

end Slot

namespace OpenAddressing

variable {K V : Type} {n : ℕ} {home : K → ℕ} {slots : ℕ → Slot K V} {k : K} {v : V} {i d : ℕ}

/-! ## Probe sequences -/

/-- The position `d` of the probe sequence from `h`. -/
def pos (n h d : ℕ) : ℕ := (h + d) % n

theorem pos_lt (hn : 0 < n) (h d : ℕ) : pos n h d < n := Nat.mod_lt _ hn

theorem pos_zero (n h : ℕ) : pos n h 0 = h % n := rfl

theorem pos_succ (n h d : ℕ) : pos n h (d + 1) = (pos n h d + 1) % n := by
  rw [pos, pos, Nat.mod_add_mod, Nat.add_assoc]

/-- The sequence comes by every slot. -/
theorem exists_pos (h : ℕ) (hi : i < n) : ∃ d < n, pos n h d = i := by
  have hn : 0 < n := by omega
  have hh : h % n < n := Nat.mod_lt h hn
  have hsplit : n * (h / n) + h % n = h := Nat.div_add_mod h n
  refine ⟨(i + (n - h % n)) % n, Nat.mod_lt _ hn, ?_⟩
  have hsum : h + (i + (n - h % n)) = i + n * (h / n + 1) := by
    rw [Nat.mul_add, Nat.mul_one]
    omega
  rw [pos, Nat.add_mod_mod, hsum, Nat.add_mul_mod_self_left, Nat.mod_eq_of_lt hi]

/-- A search for `k` goes on behind the slot. -/
def Passed (k : K) (s : Slot K V) : Prop := s ≠ .free ∧ ∀ v, s ≠ .entry k v

/-- A search for `k` goes on behind the first `d` slots of its sequence. -/
def Passes (n : ℕ) (home : K → ℕ) (slots : ℕ → Slot K V) (k : K) (d : ℕ) : Prop :=
  ∀ e < d, Passed k (slots (pos n (home k) e))

/-- The search for `k` ends at position `d` of its sequence. -/
structure Stops (n : ℕ) (home : K → ℕ) (slots : ℕ → Slot K V) (k : K) (d : ℕ) : Prop where
  lt : d < n
  passes : Passes n home slots k d
  stops : ¬ Passed k (slots (pos n (home k) d))

/-- Where a slot is free, every search ends. -/
theorem exists_stops (hfree : ∃ i < n, slots i = .free) (k : K) : ∃ d, Stops n home slots k d := by
  classical
  obtain ⟨i, hi, hfree⟩ := hfree
  obtain ⟨d, hd, hpos⟩ := exists_pos (home k) hi
  have hend : ∃ d, ¬ Passed k (slots (pos n (home k) d)) :=
    ⟨d, fun h => h.1 (by rw [hpos, hfree])⟩
  refine ⟨Nat.find hend, lt_of_le_of_lt (Nat.find_min' hend fun h => h.1 ?_) hd, fun e he => ?_,
    Nat.find_spec hend⟩
  · rw [hpos, hfree]
  · exact not_not.1 (Nat.find_min hend he)

/-! ## The entries -/

/-- The table has the entry. -/
def Holds (n : ℕ) (slots : ℕ → Slot K V) (k : K) (v : V) : Prop := ∃ i < n, slots i = .entry k v

theorem holds_succ : Holds (n + 1) slots k v ↔ Holds n slots k v ∨ slots n = .entry k v := by
  constructor
  · rintro ⟨i, hi, h⟩
    rcases Nat.lt_succ_iff_lt_or_eq.1 hi with hlt | rfl
    · exact .inl ⟨i, hlt, h⟩
    · exact .inr h
  · rintro (⟨i, hi, h⟩ | h)
    · exact ⟨i, Nat.lt_succ_of_lt hi, h⟩
    · exact ⟨n, Nat.lt_succ_self n, h⟩

/-- Every entry can be found, and no key is in two slots. -/
structure Placed (n : ℕ) (home : K → ℕ) (slots : ℕ → Slot K V) : Prop where
  reach : ∀ i < n, ∀ k v, slots i = .entry k v →
    ∃ d, pos n (home k) d = i ∧ ∀ e < d, slots (pos n (home k) e) ≠ .free
  once : ∀ i < n, ∀ j < n, ∀ k v w, slots i = .entry k v → slots j = .entry k w → i = j

theorem placed_free : Placed n home fun _ => (.free : Slot K V) :=
  ⟨fun _ _ _ _ h => absurd h (by simp), fun _ _ _ _ _ _ _ h => absurd h (by simp)⟩

theorem not_holds_free : ¬ Holds n (fun _ => (.free : Slot K V)) k v :=
  fun ⟨_, _, h⟩ => absurd h (by simp)

/-- A search that ends at a free slot has not missed its key. -/
theorem Placed.absent (h : Placed n home slots) (hs : Stops n home slots k d)
    (hfree : slots (pos n (home k) d) = .free) : ¬ Holds n slots k v := by
  rintro ⟨i, hi, hentry⟩
  obtain ⟨d', hpos, hbefore⟩ := h.reach i hi k v hentry
  rcases Nat.lt_trichotomy d d' with hlt | rfl | hgt
  · exact hbefore d hlt hfree
  · rw [hpos, hentry] at hfree
    cases hfree
  · exact (hs.passes d' hgt).2 v (by rw [hpos, hentry])

/-- A search ends at a free slot or at its key. -/
theorem Stops.cases (hs : Stops n home slots k d) :
    slots (pos n (home k) d) = .free ∨ ∃ v, slots (pos n (home k) d) = .entry k v := by
  by_contra hno
  rw [not_or, not_exists] at hno
  exact hs.stops hno

theorem Placed.holds_iff (h : Placed n home slots) (hi : i < n) (hentry : slots i = .entry k v)
    {w : V} : Holds n slots k w ↔ w = v := by
  constructor
  · rintro ⟨j, hj, hw⟩
    obtain rfl := h.once i hi j hj k v w hentry hw
    rw [hentry] at hw
    cases hw
    rfl
  · rintro rfl
    exact ⟨i, hi, hentry⟩

/-! ## Insertion -/

section Write

variable (hnew : ¬ (slots i).Live)
include hnew

theorem holds_write (hi : i < n) {k' : K} {v' : V} :
    Holds n (Function.update slots i (.entry k v)) k' v' ↔
    (k' = k ∧ v' = v) ∨ Holds n slots k' v' := by
  constructor
  · rintro ⟨j, hj, hentry⟩
    rcases eq_or_ne j i with rfl | hne
    · rw [Function.update_self] at hentry
      cases hentry
      exact .inl ⟨rfl, rfl⟩
    · rw [Function.update_of_ne hne] at hentry
      exact .inr ⟨j, hj, hentry⟩
  · rintro (⟨rfl, rfl⟩ | ⟨j, hj, hentry⟩)
    · exact ⟨i, hi, Function.update_self ..⟩
    · have hne : j ≠ i := by
        rintro rfl
        rw [hentry] at hnew
        exact hnew trivial
      exact ⟨j, hj, by rw [Function.update_of_ne hne, hentry]⟩

/-- A new key goes to a slot of its sequence that the search has come by. -/
theorem Placed.write (h : Placed n home slots) (hpass : ∀ e < d, slots (pos n (home k) e) ≠ .free)
    (hpos : pos n (home k) d = i) (habsent : ∀ v, ¬ Holds n slots k v) :
    Placed n home (Function.update slots i (.entry k v)) := by
  have hkeep : ∀ j, slots j ≠ .free → Function.update slots i (.entry k v) j ≠ .free := by
    intro j hj
    rcases eq_or_ne j i with rfl | hne
    · simp
    · rwa [Function.update_of_ne hne]
  refine ⟨fun j hj k' v' hentry => ?_, fun j hj j' hj' k' v' w' hentry hentry' => ?_⟩
  · rcases eq_or_ne j i with rfl | hne
    · rw [Function.update_self] at hentry
      cases hentry
      exact ⟨d, hpos, fun e he => hkeep _ (hpass e he)⟩
    · rw [Function.update_of_ne hne] at hentry
      obtain ⟨d', hd', hbefore⟩ := h.reach j hj k' v' hentry
      exact ⟨d', hd', fun e he => hkeep _ (hbefore e he)⟩
  · by_cases hji : j = i <;> by_cases hji' : j' = i
    · exact hji.trans hji'.symm
    · rw [hji, Function.update_self] at hentry
      cases hentry
      rw [Function.update_of_ne hji'] at hentry'
      exact absurd ⟨j', hj', hentry'⟩ (habsent w')
    · rw [hji', Function.update_self] at hentry'
      cases hentry'
      rw [Function.update_of_ne hji] at hentry
      exact absurd ⟨j, hj, hentry⟩ (habsent v')
    · rw [Function.update_of_ne hji] at hentry
      rw [Function.update_of_ne hji'] at hentry'
      exact h.once j hj j' hj' k' v' w' hentry hentry'

end Write

/-! ## Removal -/

theorem Placed.kill (h : Placed n home slots) (i : ℕ) :
    Placed n home (Function.update slots i .dead) := by
  have hback : ∀ j k v, Function.update slots i .dead j = .entry k v → slots j = .entry k v := by
    intro j k v hentry
    rcases eq_or_ne j i with rfl | hne
    · simp at hentry
    · rwa [Function.update_of_ne hne] at hentry
  refine ⟨fun j hj k v hentry => ?_, fun j hj j' hj' k v w hentry hentry' =>
    h.once j hj j' hj' k v w (hback _ _ _ hentry) (hback _ _ _ hentry')⟩
  obtain ⟨d, hd, hbefore⟩ := h.reach j hj k v (hback _ _ _ hentry)
  refine ⟨d, hd, fun e he => ?_⟩
  rcases eq_or_ne (pos n (home k) e) i with hi | hne
  · simp [hi]
  · rw [Function.update_of_ne hne]
    exact hbefore e he

theorem Placed.holds_kill (h : Placed n home slots) (hi : i < n) (hentry : slots i = .entry k v)
    {k' : K} {v' : V} :
    Holds n (Function.update slots i .dead) k' v' ↔ k' ≠ k ∧ Holds n slots k' v' := by
  constructor
  · rintro ⟨j, hj, hj'⟩
    have hne : j ≠ i := by
      rintro rfl
      simp at hj'
    rw [Function.update_of_ne hne] at hj'
    refine ⟨?_, j, hj, hj'⟩
    rintro rfl
    exact hne (h.once j hj i hi k' v' v hj' hentry)
  · rintro ⟨hk, j, hj, hj'⟩
    have hne : j ≠ i := by
      rintro rfl
      rw [hentry] at hj'
      cases hj'
      exact hk rfl
    exact ⟨j, hj, by rw [Function.update_of_ne hne, hj']⟩

/-! ## Counting slots -/

section Count

variable (p : Slot K V → Prop) [DecidablePred p]

/-- The number of slots with `p`. -/
def count (n : ℕ) (slots : ℕ → Slot K V) : ℕ := ((Finset.range n).filter fun i => p (slots i)).card

theorem count_update (hi : i < n) (slots : ℕ → Slot K V) (s : Slot K V) :
    count p n (Function.update slots i s) + (if p (slots i) then 1 else 0) =
    count p n slots + if p s then 1 else 0 := by
  have hmem : i ∈ Finset.range n := Finset.mem_range.2 hi
  have hrest : ∀ j ∈ (Finset.range n).erase i,
      (if p (Function.update slots i s j) then 1 else 0) = if p (slots j) then 1 else 0 := by
    intro j hj
    rw [Function.update_of_ne (Finset.ne_of_mem_erase hj)]
  rw [count, count, Finset.card_filter, Finset.card_filter, ← Finset.add_sum_erase _ _ hmem,
    ← Finset.add_sum_erase _ _ hmem, Finset.sum_congr rfl hrest, Function.update_self]
  omega

theorem count_succ (n : ℕ) (slots : ℕ → Slot K V) :
    count p (n + 1) slots = count p n slots + if p (slots n) then 1 else 0 := by
  rw [count, count, Finset.card_filter, Finset.card_filter, Finset.sum_range_succ]

theorem count_mono (h : i ≤ n) (slots : ℕ → Slot K V) : count p i slots ≤ count p n slots :=
  Finset.card_le_card (Finset.filter_subset_filter _ (Finset.range_subset_range.2 h))

theorem count_free (hp : ¬ p .free) : count p n (fun _ => .free) = 0 := by
  rw [count, Finset.card_eq_zero]
  exact Finset.filter_false_of_mem fun _ _ => hp

theorem count_le {q : Slot K V → Prop} [DecidablePred q] (h : ∀ s, p s → q s) :
    count p n slots ≤ count q n slots :=
  Finset.card_le_card (Finset.monotone_filter_right _ fun _ _ => h _)

theorem count_congr {q : Slot K V → Prop} [DecidablePred q] (h : ∀ s, p s ↔ q s) :
    count p n slots = count q n slots :=
  congrArg Finset.card (Finset.filter_congr fun _ _ => h _)

theorem count_le_size : count p n slots ≤ n :=
  (Finset.card_filter_le _ _).trans_eq (Finset.card_range n)

/-- A table of which not all slots are in use has a free one. -/
theorem exists_free [DecidableEq K] [DecidableEq V] (h : count (· ≠ .free) n slots < n) :
    ∃ i < n, slots i = .free := by
  by_contra hno
  have hall : (Finset.range n).filter (fun i => slots i ≠ .free) = Finset.range n :=
    Finset.filter_true_of_mem fun i hi hfree => hno ⟨i, Finset.mem_range.1 hi, hfree⟩
  rw [count, hall, Finset.card_range] at h
  omega

end Count

end OpenAddressing
