import Mathlib.Data.Nat.ModEq
import Mathlib.Data.List.Basic
import Mathlib.Data.List.Infix
import Mathlib.Tactic.Ring

/-!
# Circular buffers over unbounded counters

A circular buffer keeps two counters that only grow, `head` (items taken) and `tail` (items put),
and stores item `i` in the slot `i % capacity` of a flat memory. `Window` says that the slots
between the two counters hold exactly the items of a history, and the lemmas here say what the
accesses of a ring implementation do to it: a copy past the tail in at most two pieces, the
publication of the tail, a copy out from the head in at most two pieces, and the advance of the
head.

Unsigned subtraction (`diff64`, `diff32`, `sub32`) is written out with its wrap, so that it is a
theorem and not a convention that it does not happen.
-/

namespace Circular

/-! ## Truncated unsigned arithmetic -/

/-- `(uint32_t)(a - b)` for two `uint64_t` counters. -/
def diff32 (a b : ℕ) : ℕ := (a + 2 ^ 32 - b % 2 ^ 32) % 2 ^ 32

/-- `a - b` for two `uint64_t` counters. -/
def diff64 (a b : ℕ) : ℕ := (a + 2 ^ 64 - b % 2 ^ 64) % 2 ^ 64

/-- `a - b` for two `uint32_t` values. -/
def sub32 (a b : ℕ) : ℕ := (a + 2 ^ 32 - b) % 2 ^ 32

theorem diff32_eq {a b : ℕ} (h : b ≤ a) (hlt : a - b < 2 ^ 32) : diff32 a b = a - b := by
  unfold diff32
  omega

theorem diff64_eq {a b : ℕ} (h : b ≤ a) (hlt : a - b < 2 ^ 64) : diff64 a b = a - b := by
  unfold diff64
  omega

theorem sub32_eq {a b : ℕ} (h : b ≤ a) (hlt : a < 2 ^ 32) : sub32 a b = a - b := by
  unfold sub32
  omega

/-! ## Power-of-two geometry -/

/-- A capacity that is a power of two and fits `uint32_t`, with its index mask. -/
structure Geometry where
  capacity : ℕ
  mask : ℕ
  pow2 : ∃ k, k ≤ 31 ∧ capacity = 2 ^ k
  mask_eq : mask = capacity - 1

namespace Geometry

theorem exp_zero : 0 ≤ 31 := by decide

theorem exp_one : 1 ≤ 31 := by decide

theorem exp_two : 2 ≤ 31 := by decide

/-- The geometry of capacity `2 ^ k`. -/
def ofExp (k : ℕ) (hk : k ≤ 31) : Geometry := ⟨2 ^ k, 2 ^ k - 1, ⟨k, hk, rfl⟩, rfl⟩

theorem capacity_pos (g : Geometry) : 0 < g.capacity := by
  obtain ⟨k, -, hc⟩ := g.pow2
  rw [hc]
  exact Nat.two_pow_pos k

theorem capacity_le (g : Geometry) : g.capacity ≤ 2 ^ 31 := by
  obtain ⟨k, hk, hc⟩ := g.pow2
  rw [hc]
  exact Nat.pow_le_pow_right (by norm_num) hk

theorem capacity_lt (g : Geometry) : g.capacity < 2 ^ 32 := by
  have := g.capacity_le
  omega

/-- Masking a counter gives its slot. -/
theorem and_mask (g : Geometry) (n : ℕ) : n &&& g.mask = n % g.capacity := by
  obtain ⟨k, -, hc⟩ := g.pow2
  rw [g.mask_eq, hc, Nat.and_two_pow_sub_one_eq_mod]

theorem mod_lt (g : Geometry) (n : ℕ) : n % g.capacity < g.capacity :=
  Nat.mod_lt _ g.capacity_pos

end Geometry

/-! ## Slots of a counter -/

variable {cap i j t n : ℕ}

/-- Two counters less than a capacity apart use different slots. -/
theorem slot_ne (h : i < j) (hlt : j < i + cap) : i % cap ≠ j % cap := by
  intro heq
  have hdvd : cap ∣ j - i := (Nat.modEq_iff_dvd' h.le).1 heq
  have := Nat.le_of_dvd (by omega) hdvd
  omega

theorem slot_add_of_lt (h : t % cap + j < cap) : (t + j) % cap = t % cap + j := by
  have hj : j % cap = j := Nat.mod_eq_of_lt (by omega)
  rw [Nat.add_mod_of_add_mod_lt (by rw [hj]; exact h), hj]

theorem slot_add_of_le (hj : j < cap) (h : cap ≤ t % cap + j) :
    (t + j) % cap = t % cap + j - cap := by
  have hj' : j % cap = j := Nat.mod_eq_of_lt hj
  have := Nat.add_mod_add_of_le_add_mod (a := t) (b := j) (c := cap) (by rw [hj']; exact h)
  omega

/-! ## Copies into and out of a flat memory -/

variable {α : Type} {m : ℕ → α} {xs : List α} {off x : ℕ}

/-- `memcpy` of `xs` to offset `off`. -/
def copyIn (m : ℕ → α) (off : ℕ) (xs : List α) : ℕ → α :=
  fun i => if off ≤ i then xs[i - off]?.getD (m i) else m i

/-- `memcpy` of `n` items from offset `off`. -/
def copyOut (m : ℕ → α) (off n : ℕ) : List α := (List.range n).map fun j => m (off + j)

@[simp] theorem copyOut_length : (copyOut m off n).length = n := by
  simp [copyOut]

theorem copyIn_at (hj : j < xs.length) : copyIn m off xs (off + j) = xs[j] := by
  simp [copyIn, hj]

theorem copyOut_succ : copyOut m off (n + 1) = m off :: copyOut m (off + 1) n := by
  unfold copyOut
  rw [List.range_succ_eq_map, List.map_cons, List.map_map, Nat.add_zero]
  refine congrArg (m off :: ·) (List.map_congr_left fun i _ => congrArg m ?_)
  simp only [Nat.succ_eq_add_one]
  omega

theorem copyOut_take : (copyOut m off (n + i)).take n = copyOut m off n := by
  induction n generalizing off with
  | zero => rw [List.take_zero, copyOut, List.range_zero, List.map_nil]
  | succ n ih => rw [Nat.add_right_comm, copyOut_succ, copyOut_succ, List.take_succ_cons, ih]

theorem copyOut_drop : (copyOut m off (n + i)).drop n = copyOut m (off + n) i := by
  induction n generalizing off with
  | zero => rw [Nat.zero_add, List.drop_zero, Nat.add_zero]
  | succ n ih =>
    rw [Nat.add_right_comm, copyOut_succ, List.drop_succ_cons, ih, Nat.add_assoc,
      Nat.add_comm 1]

/-- What was copied in is there. -/
theorem copyOut_copyIn : copyOut (copyIn m off xs) off xs.length = xs := by
  refine List.ext_getElem copyOut_length fun j _ hj => ?_
  simp only [copyOut, List.getElem_map, List.getElem_range, copyIn_at hj]

theorem copyIn_ne (h : ∀ j < xs.length, x ≠ off + j) : copyIn m off xs x = m x := by
  unfold copyIn
  split
  · rename_i hle
    have hlen : xs.length ≤ x - off := by
      by_contra hlt
      exact h (x - off) (by omega) (by omega)
    simp [List.getElem?_eq_none hlen]
  · rfl

@[simp] theorem copyIn_nil : copyIn m off [] = m := by
  funext i
  simp [copyIn]

/-- Length of the first of the two pieces of an access of `n` items at counter `t`. -/
def firstPart (cap t n : ℕ) : ℕ := min (cap - t % cap) n

/-- The memory after both pieces of a copy of `xs` at counter `t`. -/
def copyWrapped (m : ℕ → α) (cap t : ℕ) (xs : List α) : ℕ → α :=
  copyIn (copyIn m (t % cap) (xs.take (firstPart cap t xs.length))) 0
    (xs.drop (firstPart cap t xs.length))

/-- The first piece writes no slot of the items still in the buffer. -/
theorem copyIn_first_frame (hi : i < t) (hn : t + xs.length ≤ i + cap) :
    copyIn m (t % cap) (xs.take (firstPart cap t xs.length)) (i % cap) = m (i % cap) := by
  refine copyIn_ne fun j hj heq => ?_
  simp only [List.length_take, firstPart] at hj
  have hne : i % cap ≠ (t + j) % cap := slot_ne (by omega) (by omega)
  exact hne (by rw [heq, slot_add_of_lt (by omega)])

/-- Neither does the second. -/
theorem copyWrapped_frame (hi : i < t) (hn : t + xs.length ≤ i + cap) :
    copyWrapped m cap t xs (i % cap) = m (i % cap) := by
  unfold copyWrapped
  rw [copyIn_ne, copyIn_first_frame hi hn]
  intro j hj heq
  simp only [List.length_drop, firstPart] at hj
  have hfirst : firstPart cap t xs.length = cap - t % cap := by
    unfold firstPart
    omega
  have hmod : t % cap < cap := Nat.mod_lt _ (by omega)
  have hne : i % cap ≠ (t + (cap - t % cap + j)) % cap := slot_ne (by omega) (by omega)
  rw [heq, slot_add_of_le (by omega) (by omega)] at hne
  omega

/-- So the second piece alone leaves those slots as the first left them. -/
theorem copyIn_second_frame (hi : i < t) (hn : t + xs.length ≤ i + cap) :
    copyWrapped m cap t xs (i % cap) =
      copyIn m (t % cap) (xs.take (firstPart cap t xs.length)) (i % cap) := by
  rw [copyWrapped_frame hi hn, copyIn_first_frame hi hn]

/-- After both pieces the slots from `t` on hold `xs`. -/
theorem copyWrapped_at (hcap : 0 < cap) (hn : xs.length ≤ cap) (hj : j < xs.length) :
    copyWrapped m cap t xs ((t + j) % cap) = xs[j] := by
  have hmod : t % cap < cap := Nat.mod_lt _ hcap
  unfold copyWrapped
  rcases lt_or_ge j (firstPart cap t xs.length) with hlt | hge
  · have hlt' : j < cap - t % cap ∧ j < xs.length := by
      unfold firstPart at hlt
      omega
    rw [slot_add_of_lt (by omega), copyIn_ne, copyIn_at (by simp; omega), List.getElem_take]
    intro k hk
    simp only [List.length_drop, firstPart] at hk
    omega
  · have hfirst : firstPart cap t xs.length = cap - t % cap := by
      unfold firstPart at hge ⊢
      omega
    rw [slot_add_of_le (by omega) (by omega),
      show t % cap + j - cap = 0 + (j - firstPart cap t xs.length) by omega,
      copyIn_at (by simp; omega), List.getElem_drop]
    congr 1
    omega

/-! ## The window between head and tail -/

/-- The slots from `head` to `tail` hold the items of the history `hist` at those positions. -/
structure Window (cap : ℕ) (slots : ℕ → α) (head tail : ℕ) (hist : List α) : Prop where
  head_le : head ≤ tail
  tail_le : tail ≤ head + cap
  tail_le_length : tail ≤ hist.length
  slot : ∀ i, head ≤ i → i < tail → hist[i]? = some (slots (i % cap))

namespace Window

variable {slots slots' : ℕ → α} {head tail : ℕ} {hist more : List α}

theorem empty (cap : ℕ) (slots : ℕ → α) : Window cap slots 0 0 [] :=
  ⟨le_rfl, by omega, le_rfl, by omega⟩

/-- Slots outside the window do not matter. -/
theorem congr (w : Window cap slots head tail hist)
    (h : ∀ i, head ≤ i → i < tail → slots' (i % cap) = slots (i % cap)) :
    Window cap slots' head tail hist :=
  ⟨w.head_le, w.tail_le, w.tail_le_length,
    fun i hi hi' => by rw [h i hi hi']; exact w.slot i hi hi'⟩

/-- A longer history. -/
theorem append (w : Window cap slots head tail hist) (more : List α) :
    Window cap slots head tail (hist ++ more) := by
  refine ⟨w.head_le, w.tail_le, ?_, fun i hi hi' => ?_⟩
  · have := w.tail_le_length
    simp only [List.length_append]
    omega
  · have := w.tail_le_length
    rw [List.getElem?_append_left (by omega)]
    exact w.slot i hi hi'

/-- Publishing items that stand in the slots past the tail and in the history past it. -/
theorem publish (w : Window cap slots head tail hist) (hn : tail + n ≤ head + cap)
    (hlen : tail + n ≤ hist.length)
    (h : ∀ j < n, hist[tail + j]? = some (slots ((tail + j) % cap))) :
    Window cap slots head (tail + n) hist := by
  refine ⟨by have := w.head_le; omega, hn, hlen, fun i hi hi' => ?_⟩
  rcases lt_or_ge i tail with hlt | hge
  · exact w.slot i hi hlt
  · have := h (i - tail) (by omega)
    rwa [Nat.add_sub_cancel' hge] at this

/-- Taking items from the head. -/
theorem advance (w : Window cap slots head tail hist) (hn : head + n ≤ tail) :
    Window cap slots (head + n) tail hist :=
  ⟨hn, by have := w.tail_le; omega, w.tail_le_length, fun i hi hi' => w.slot i (by omega) hi'⟩

/-- The first piece of a copy out. -/
theorem copyOut_first (w : Window cap slots head tail hist) (hn : n ≤ cap - head % cap)
    (hlen : head + n ≤ tail) : copyOut slots (head % cap) n = (hist.drop head).take n := by
  have hhist := w.tail_le_length
  refine List.ext_getElem (by simp; omega) fun j hj _ => ?_
  simp only [copyOut_length] at hj
  have hslot := w.slot (head + j) (by omega) (by omega)
  rw [slot_add_of_lt (by omega), List.getElem?_eq_getElem (by omega)] at hslot
  simp only [copyOut, List.getElem_map, List.getElem_range, List.getElem_take, List.getElem_drop]
  exact (Option.some.inj hslot).symm

/-- The second piece, from slot `0`. -/
theorem copyOut_second (w : Window cap slots head tail hist) (hcap : 0 < cap)
    (hlen : head + (cap - head % cap) + n ≤ tail) :
    copyOut slots 0 n = (hist.drop (head + (cap - head % cap))).take n := by
  have hhist := w.tail_le_length
  have htail := w.tail_le
  have hmod : head % cap < cap := Nat.mod_lt _ hcap
  refine List.ext_getElem (by simp; omega) fun j hj _ => ?_
  simp only [copyOut_length] at hj
  have hslot := w.slot (head + (cap - head % cap + j)) (by omega) (by omega)
  rw [slot_add_of_le (by omega) (by omega), List.getElem?_eq_getElem (by omega)] at hslot
  have hj' : head % cap + (cap - head % cap + j) - cap = 0 + j := by omega
  rw [hj'] at hslot
  simp only [copyOut, List.getElem_map, List.getElem_range, List.getElem_take, List.getElem_drop]
  rw [← Option.some.inj hslot]
  congr 1
  omega

end Window

/-! ## Growing histories -/

theorem getElem?_of_isPrefix {h h' : List α} {a : α} (hp : h <+: h') (ha : h[i]? = some a) :
    h'[i]? = some a := by
  obtain ⟨r, rfl⟩ := hp
  rw [List.getElem?_append_left (List.getElem?_eq_some_iff.1 ha).1]
  exact ha

/-- A prefix can be extended by the next item. -/
theorem prefix_snoc {l m : List α} {x : α} (h : l <+: m) (hx : m[l.length]? = some x) :
    l ++ [x] <+: m := by
  obtain ⟨r, rfl⟩ := h
  rw [List.getElem?_append_right le_rfl, Nat.sub_self] at hx
  cases r with
  | nil => simp at hx
  | cons y r =>
    simp only [List.getElem?_cons_zero, Option.some.injEq] at hx
    rw [hx]
    exact ⟨r, by simp⟩

/-- Slices of a history do not change when it grows. -/
theorem take_drop_of_isPrefix {h h' : List α} (hp : h <+: h') (hn : i + n ≤ h.length) :
    (h'.drop i).take n = (h.drop i).take n := by
  obtain ⟨r, rfl⟩ := hp
  rw [List.drop_append_of_le_length (by omega), List.take_append_of_le_length (by simp; omega)]

theorem take_add_drop (h : List α) (i a b : ℕ) :
    (h.drop i).take a ++ (h.drop (i + a)).take b = (h.drop i).take (a + b) := by
  rw [List.take_add, List.drop_drop]

end Circular
