import Mathlib.Data.Set.Function
import Mathlib.Order.Monotone.Basic
import Mathlib.Tactic.Ring

/-!
# Numbering with gaps

The natural numbers are cut into blocks of `k + 1`, and the last place of each block is left out.
`skip k n` is the `n`-th place that is left, and `unskip k` counts back. Between the numbers and the
places left the two are inverse to each other (`skip_bijOn`).
-/

namespace Skipping

variable {k m n : ℕ}

/-- The place of number `n`. -/
def skip (k n : ℕ) : ℕ := n + n / k

/-- The number of the place `m`. -/
def unskip (k m : ℕ) : ℕ := m - m / (k + 1)

theorem skip_add (hk : 0 < k) {q r : ℕ} (hr : r < k) : skip k (k * q + r) = (k + 1) * q + r := by
  rw [skip, Nat.mul_add_div hk, Nat.div_eq_of_lt hr]
  ring

theorem unskip_add {q r : ℕ} (hr : r < k + 1) : unskip k ((k + 1) * q + r) = k * q + r := by
  rw [unskip, Nat.mul_add_div (Nat.succ_pos k), Nat.div_eq_of_lt hr, Nat.add_zero]
  have : (k + 1) * q = k * q + q := by ring
  omega

theorem skip_mod (hk : 0 < k) (n : ℕ) : skip k n % (k + 1) = n % k := by
  have hr := Nat.mod_lt n hk
  conv_lhs => rw [← Nat.div_add_mod n k]
  rw [skip_add hk hr, Nat.mul_add_mod, Nat.mod_eq_of_lt (by omega)]

/-- No number has a place that is left out. -/
theorem skip_mod_ne (hk : 0 < k) (n : ℕ) : skip k n % (k + 1) ≠ k := by
  rw [skip_mod hk]
  exact (Nat.mod_lt n hk).ne

theorem unskip_skip (hk : 0 < k) (n : ℕ) : unskip k (skip k n) = n := by
  have hr := Nat.mod_lt n hk
  conv_lhs => rw [← Nat.div_add_mod n k]
  rw [skip_add hk hr, unskip_add (by omega), Nat.div_add_mod]

theorem skip_unskip (hk : 0 < k) (hm : m % (k + 1) ≠ k) : skip k (unskip k m) = m := by
  have hr := Nat.mod_lt m (show 0 < k + 1 by omega)
  conv_lhs => rw [← Nat.div_add_mod m (k + 1)]
  rw [unskip_add hr, skip_add hk (by omega), Nat.div_add_mod]

theorem skip_strictMono (k : ℕ) : StrictMono (skip k) :=
  fun _ _ h => Nat.add_lt_add_of_lt_of_le h (Nat.div_le_div_right h.le)

/-- Below a bound, the numbers and the places left are in bijection. -/
theorem skip_bijOn (hk : 0 < k) (b : ℕ) :
    Set.BijOn (skip k) {n | n ≤ b} {m | m ≤ skip k b ∧ m % (k + 1) ≠ k} := by
  refine ⟨fun n hn => ⟨(skip_strictMono k).monotone hn, skip_mod_ne hk n⟩,
    (skip_strictMono k).injective.injOn, ?_⟩
  rintro m ⟨hle, hm⟩
  rw [← skip_unskip hk hm] at hle
  exact ⟨unskip k m, (skip_strictMono k).le_iff_le.1 hle, skip_unskip hk hm⟩

end Skipping
