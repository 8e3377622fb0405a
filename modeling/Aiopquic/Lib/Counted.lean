import Mathlib.Data.Finset.Basic
import Mathlib.Logic.Function.Basic

/-!
# Counted references

An object carries a machine word that counts the references to it. It is made with one reference;
`take` adds one, `drop` gives one back, and the drop that finds the count at one frees the object.
Beside the word we keep how often the object was freed and whether anybody touched it afterwards.

`Balanced` says of a table of objects that each count is the number of references held. Every
operation that keeps a reference in step with its holder keeps the table balanced.
-/

/-- A counted object. -/
structure Counted where
  count : ℕ := 0
  frees : ℕ := 0
  /-- It was used after it had been freed. -/
  stale : Bool := false
  deriving DecidableEq, Repr

namespace Counted

/-- A new object, with the reference of its maker. -/
def make : Counted := { count := 1 }

/-- A use of the object. -/
def touch (c : Counted) : Counted := { c with stale := c.stale || decide (0 < c.frees) }

/-- One reference more, in a word of `m` values. -/
def take (m : ℕ) (c : Counted) : Counted := { c.touch with count := (c.count + 1) % m }

/-- One reference less; the last one frees the object. -/
def drop (m : ℕ) (c : Counted) : Counted :=
  { c.touch with count := (c.count + (m - 1)) % m, frees := c.frees + if c.count = 1 then 1 else 0 }

/-- The object counts its `n` references, was freed exactly if there are none, and never used after
that. -/
structure Sound (m n : ℕ) (c : Counted) : Prop where
  count : c.count = n
  frees : c.frees = if n = 0 then 1 else 0
  stale : c.stale = false
  lt : n < m

variable {m n : ℕ} {c : Counted}

theorem sound_make (hm : 1 < m) : Sound m 1 make := ⟨rfl, rfl, rfl, hm⟩

/-- A use of an object that is referenced changes nothing. -/
theorem Sound.touch_eq (h : Sound m n c) (hn : 0 < n) : c.touch = c := by
  have hf : c.frees = 0 := by
    rw [h.frees, if_neg (by omega)]
  cases c
  simp_all [touch]

theorem Sound.take (h : Sound m n c) (hn : 0 < n) (hroom : n + 1 < m) :
    Sound m (n + 1) (c.take m) := by
  rw [Counted.take, h.touch_eq hn]
  constructor
  · show (c.count + 1) % m = n + 1
    rw [h.count, Nat.mod_eq_of_lt hroom]
  · rw [h.frees, if_neg (by omega), if_neg (by omega)]
  · exact h.stale
  · exact hroom

theorem Sound.drop (h : Sound m (n + 1) c) : Sound m n (c.drop m) := by
  rw [Counted.drop, h.touch_eq (by omega)]
  have hlt := h.lt
  constructor
  · show (c.count + (m - 1)) % m = n
    rw [h.count, show n + 1 + (m - 1) =
      n + m by omega, Nat.add_mod_right, Nat.mod_eq_of_lt (by omega)]
  · show c.frees + (if c.count = 1 then 1 else 0) = _
    rw [h.frees, h.count, if_neg (by omega), Nat.zero_add]
    simp
  · exact h.stale
  · omega

/-! ## Tables of objects -/

variable {refs : ℕ → Counted} {held held' : ℕ → ℕ} {made x : ℕ}

/-- Objects `1` to `made` exist, and each counts the references held to it; nobody has a reference
to any other. -/
def Balanced (m : ℕ) (refs : ℕ → Counted) (made : ℕ) (held : ℕ → ℕ) : Prop :=
  ∀ x, if 0 < x ∧ x ≤ made then Sound m (held x) (refs x) else held x = 0 ∧ refs x = {}

/-- `take` at one object of a table. -/
def takeAt (m : ℕ) (refs : ℕ → Counted) (x : ℕ) : ℕ → Counted := Function.update refs x
    ((refs x).take m)

/-- `drop` at one object of a table. -/
def dropAt (m : ℕ) (refs : ℕ → Counted) (x : ℕ) : ℕ → Counted := Function.update refs x
    ((refs x).drop m)

/-- A use of one object of a table. -/
def touchAt (refs : ℕ → Counted) (x : ℕ) : ℕ → Counted := Function.update refs x (refs x).touch

/-- One reference of each object of a list is given back. -/
def dropAll (m : ℕ) (refs : ℕ → Counted) (l : List ℕ) : ℕ → Counted := l.foldl (dropAt m) refs

/-- One reference of each object of a set is given back. -/
def dropSet (m : ℕ) (refs : ℕ → Counted) (l : Finset ℕ) : ℕ → Counted :=
  fun x => if x ∈ l then (refs x).drop m else refs x

namespace Balanced

theorem sound (h : Balanced m refs made held) (hx : 0 < held x) : Sound m (held x) (refs x) := by
  have hb := h x
  split at hb
  · exact hb
  · omega

theorem exists_of_held (h : Balanced m refs made held) (hx : 0 < held x) : 0 < x ∧ x ≤ made := by
  have hb := h x
  split at hb
  · assumption
  · omega

theorem congr (h : Balanced m refs made held) (hheld : ∀ y, held' y = held y) :
    Balanced m refs made held' := by
  intro y
  rw [hheld y]
  exact h y

/-- A step at one referenced object: its soundness is all that is to be shown. -/
theorem update (h : Balanced m refs made held) {c : Counted} (hx : 0 < held x)
    (hsound : Sound m (held' x) c) (hheld : ∀ y, y ≠ x → held' y = held y) :
    Balanced m (Function.update refs x c) made held' := by
  intro y
  by_cases hy : y = x
  · subst hy
    rw [if_pos (h.exists_of_held hx), Function.update_self]
    exact hsound
  · rw [hheld y hy, Function.update_of_ne hy]
    exact h y

theorem take (h : Balanced m refs made held) (hx : 0 < held x) (hroom : held x + 1 < m)
    (hheld : ∀ y, held' y = held y + if y = x then 1 else 0) :
    Balanced m (takeAt m refs x) made held' := by
  apply h.update hx
  · rw [hheld x, if_pos rfl]
    exact (h.sound hx).take hx hroom
  · intro y hy
    rw [hheld y, if_neg hy, Nat.add_zero]

theorem drop (h : Balanced m refs made held)
    (hheld : ∀ y, held y = held' y + if y = x then 1 else 0) :
    Balanced m (dropAt m refs x) made held' := by
  have hx : held x = held' x + 1 := by
    rw [hheld x, if_pos rfl]
  apply h.update (x := x) (by omega)
  · apply Sound.drop
    rw [← hx]
    exact h.sound (by omega)
  · intro y hy
    rw [hheld y, if_neg hy, Nat.add_zero]

theorem touch (h : Balanced m refs made held) (hx : 0 < held x) :
    Balanced m (touchAt refs x) made held := by
  rw [touchAt, (h.sound hx).touch_eq hx, Function.update_eq_self]
  exact h

theorem make (h : Balanced m refs made held) (hm : 1 < m)
    (hheld : ∀ y, held' y = held y + if y = made + 1 then 1 else 0) :
    Balanced m (Function.update refs (made + 1) Counted.make) (made + 1) held' := by
  have hnew : held (made + 1) = 0 := by
    have hb := h (made + 1)
    rw [if_neg (by omega)] at hb
    exact hb.1
  intro y
  by_cases hy : y = made + 1
  · subst hy
    rw [if_pos ⟨by omega, le_rfl⟩, hheld, hnew, if_pos rfl, Function.update_self]
    exact sound_make hm
  · have hiff : 0 < y ∧ y ≤ made + 1 ↔ 0 < y ∧ y ≤ made := by omega
    rw [hheld y, if_neg hy, Nat.add_zero, Function.update_of_ne hy]
    simp only [hiff]
    exact h y

theorem dropAll {l : List ℕ} (h : Balanced m refs made held)
    (hheld : ∀ y, held y = held' y + l.count y) :
    Balanced m (dropAll m refs l) made held' := by
  induction l generalizing refs held with
  | nil =>
    apply h.congr
    intro y
    simpa using (hheld y).symm
  | cons x l ih =>
    show Balanced m (Counted.dropAll m (dropAt m refs x) l) made held'
    have hdrop : Balanced m (dropAt m refs x) made fun y => held' y + l.count y := by
      apply h.drop
      intro y
      rw [hheld y, List.count_cons, Nat.add_assoc]
      congr 2
      by_cases hy : y = x
      · simp [hy]
      · simp [hy, Ne.symm hy]
    exact ih hdrop fun _ => rfl

theorem dropSet {l : Finset ℕ} (h : Balanced m refs made held)
    (hheld : ∀ y, held y = held' y + if y ∈ l then 1 else 0) :
    Balanced m (dropSet m refs l) made held' := by
  intro y
  have hb := h y
  have hy := hheld y
  simp only [Counted.dropSet]
  by_cases hmem : y ∈ l
  · rw [if_pos hmem] at hy ⊢
    rw [if_pos (h.exists_of_held (by omega))]
    apply Sound.drop
    rw [← hy]
    exact h.sound (by omega)
  · rw [if_neg hmem, Nat.add_zero] at hy
    rw [if_neg hmem, ← hy]
    exact hb

end Balanced

end Counted
