/-
# Rounding to binary32

Single-precision numbers as rationals. A number is rounded to a multiple of the place of
the last bit of its magnitude, a tie going to the even multiple, and no place is smaller
than that of the subnormal numbers. Integers of at most 24 bits stay as they are.
-/

import Mathlib.Data.Int.Log
import Mathlib.Data.Rat.Floor

namespace Unbiased.Math.Binary32

/-- The nearest integer, and the even one of two. -/
def roundHalfEven (value : ℚ) : ℤ :=
  let fraction := value - ⌊value⌋
  if fraction < 1 / 2 then ⌊value⌋
  else if 1 / 2 < fraction then ⌊value⌋ + 1
  else if 2 ∣ ⌊value⌋ then ⌊value⌋ else ⌊value⌋ + 1

/-- The exponent of the place that the last of 24 bits has. -/
def lastPlace (value : ℚ) : ℤ := max (Int.log 2 |value| - 23) (-149)

/-- The nearest number with a last bit at that place. It may be too large to be finite. -/
def round (value : ℚ) : ℚ := roundHalfEven (value / 2 ^ lastPlace value) * 2 ^ lastPlace value

/-- The least power of two that is too large. -/
def overflow : ℚ := 2 ^ 128

/-- The least number with all of its 24 bits. -/
def leastNormal : ℚ := 1 / 2 ^ 126

theorem roundHalfEven_intCast (value : ℤ) : roundHalfEven value = value := by
  rw [roundHalfEven, Int.floor_intCast, sub_self, if_pos one_half_pos]

/-- A multiple of the place of the last bit is not rounded. -/
theorem round_eq_self {value : ℚ} {multiple : ℤ}
    (h : value = multiple * 2 ^ lastPlace value) : round value = value := by
  have hplace : (2 : ℚ) ^ lastPlace value ≠ 0 := zpow_ne_zero _ two_ne_zero
  have hquotient : value / 2 ^ lastPlace value = multiple := by
    rw [div_eq_iff hplace]
    exact h
  rw [round, hquotient, roundHalfEven_intCast]
  exact h.symm

theorem lastPlace_natCast_nonpos {n : ℕ} (h : n < 2 ^ 24) : lastPlace n ≤ 0 := by
  have hlog : Nat.log 2 n ≤ 23 := by
    cases n with
    | zero => simp
    | succ n => exact Nat.le_of_lt_succ (Nat.log_lt_of_lt_pow (Nat.succ_ne_zero n) h)
  rw [lastPlace, Nat.abs_cast, Int.log_natCast]
  exact max_le (by omega) (by decide)

/-- **Small integers are exact.** -/
theorem round_natCast {n : ℕ} (h : n < 2 ^ 24) : round n = n := by
  obtain ⟨shift, hshift⟩ := Int.eq_ofNat_of_zero_le
    (Int.neg_nonneg_of_nonpos (lastPlace_natCast_nonpos h))
  have hplace : lastPlace (n : ℚ) = -(shift : ℤ) := by omega
  have hcancel : (2 : ℚ) ^ shift * 2 ^ (-(shift : ℤ)) = 1 := by
    rw [← zpow_natCast, ← zpow_add₀ two_ne_zero, add_neg_cancel, zpow_zero]
  have hmultiple : (n : ℚ) = ((n * 2 ^ shift : ℕ) : ℤ) * 2 ^ lastPlace (n : ℚ) := by
    rw [hplace]
    push_cast
    rw [mul_assoc, hcancel, mul_one]
  exact round_eq_self hmultiple

/-- The largest of them are far from overflowing. -/
theorem natCast_lt_overflow {n : ℕ} (h : n < 2 ^ 24) : (n : ℚ) < overflow := by
  have hcast : (n : ℚ) < (2 ^ 24 : ℕ) := Nat.cast_lt.mpr h
  refine lt_trans hcast ?_
  rw [overflow]
  norm_num

end Unbiased.Math.Binary32
