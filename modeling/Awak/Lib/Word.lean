/-
  64-bit wrapping counters.

  A counter that is only ever incremented stands for an unbounded number,
  stored modulo `2 ^ 64`.  Differences of stored counters are exact as long as
  the numbers are less than `2 ^ 64` apart, and masking with `2 ^ k - 1` gives
  the position modulo `2 ^ k`.
-/
import Mathlib.Tactic

namespace Word

/-- The 64-bit word that stores `x`. -/
def wrap (x : ℕ) : ℕ := x % 2 ^ 64

/-- `wrapping_add`. -/
def wrappingAdd (a b : ℕ) : ℕ := wrap (a + b)

/-- `wrapping_sub`. -/
def wrappingSub (a b : ℕ) : ℕ := wrap (a + (2 ^ 64 - b))

theorem wrappingAdd_wrap (a b : ℕ) : wrappingAdd (wrap a) b = wrap (a + b) := by
  simp [wrappingAdd, wrap]

theorem wrappingSub_wrap {a b : ℕ} (h : b ≤ a) (hlt : a - b < 2 ^ 64) :
    wrappingSub (wrap a) (wrap b) = a - b := by
  simp only [wrappingSub, wrap]; omega

/-- Stored counters less than `2 ^ 64` apart are equal iff the counters are. -/
theorem wrap_inj {a b : ℕ} (h : b ≤ a) (hlt : a - b < 2 ^ 64) (he : wrap b = wrap a) : a = b := by
  simp only [wrap] at he; omega

/-- Masking a stored counter gives its position in a ring of `2 ^ k` slots. -/
theorem wrap_and_mask (x : ℕ) {k : ℕ} (hk : k ≤ 63) : wrap x &&& (2 ^ k - 1) = x % 2 ^ k := by
  rw [Nat.and_two_pow_sub_one_eq_mod, wrap,
    Nat.mod_mod_of_dvd _ (Nat.pow_dvd_pow 2 (by omega : k ≤ 64))]

/-- Positions less than `N` apart in a ring of `N` slots are distinct slots. -/
theorem mod_ne_of_lt {a b N : ℕ} (hab : a < b) (hlt : b < a + N) : a % N ≠ b % N := by
  intro h
  have : N ∣ b - a := (Nat.modEq_iff_dvd' hab.le).1 h
  exact absurd (Nat.le_of_dvd (by omega) this) (by omega)

end Word
