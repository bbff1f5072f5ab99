import Mathlib.Algebra.Order.Round
import Mathlib.Data.Int.Log
import Mathlib.Data.Rat.Floor

/-! Rounding to the nearest, ties to even: to an integer (`roundEven`), to a binary floating-point
number with a significand of 53 bits (`roundBinary`), and to decimal places (`roundPlaces`).

A rational number stands for the floating-point number that has its value. The exponents have no
bounds: neither overflow nor the subnormal numbers are described. All three are monotone, and the
values 0 and 1, which are numbers of every format, stay what they are. -/

namespace MarginKG

/-- The integer next to `x`, the even one of two. -/
def roundEven (x : ℚ) : ℤ :=
  if x - ⌊x⌋ < 1 / 2 then ⌊x⌋
  else if 1 / 2 < x - ⌊x⌋ then ⌊x⌋ + 1
  else if ⌊x⌋ % 2 = 0 then ⌊x⌋ else ⌊x⌋ + 1

theorem floor_le_roundEven (x : ℚ) : ⌊x⌋ ≤ roundEven x := by
  rw [roundEven]
  split_ifs <;> omega

theorem roundEven_le_floor_add_one (x : ℚ) : roundEven x ≤ ⌊x⌋ + 1 := by
  rw [roundEven]
  split_ifs <;> omega

@[simp] theorem roundEven_intCast (n : ℤ) : roundEven n = n := by
  rw [roundEven, Int.floor_intCast, sub_self, if_pos (by norm_num)]

theorem roundEven_mono (hxy : x ≤ y) : roundEven x ≤ roundEven y := by
  rcases (Int.floor_mono hxy).lt_or_eq with hlt | heq
  · exact (roundEven_le_floor_add_one x).trans
      ((Int.add_one_le_of_lt hlt).trans (floor_le_roundEven y))
  · have hle : x - ⌊x⌋ ≤ y - ⌊x⌋ := sub_le_sub_right hxy _
    rw [roundEven, roundEven, ← heq]
    by_cases hy : y - ⌊x⌋ < 1 / 2
    · rw [if_pos hy, if_pos (hle.trans_lt hy)]
    · rw [if_neg hy]
      by_cases hx : 1 / 2 < x - ⌊x⌋
      · rw [if_pos (hx.trans_le hle)]
        split_ifs <;> omega
      · rw [if_neg hx]
        split_ifs <;> omega

/-! ## Binary floating-point numbers -/

/-- The distance of two numbers with 53 significant bits, at the size of `x`. -/
def ulp (x : ℚ) : ℚ := 2 ^ (Int.log 2 x - 52)

/-- The floating-point number next to `x`. -/
def roundBinary (x : ℚ) : ℚ :=
  if 0 ≤ x then roundEven (x / ulp x) * ulp x else -(roundEven (-x / ulp (-x)) * ulp (-x))

theorem ulp_pos (x : ℚ) : 0 < ulp x := zpow_pos two_pos _

theorem roundBinary_of_nonneg (h : 0 ≤ x) : roundBinary x = roundEven (x / ulp x) * ulp x :=
  if_pos h

theorem roundBinary_of_neg (h : x < 0) : roundBinary x = -roundBinary (-x) := by
  rw [roundBinary, if_neg h.not_ge, roundBinary_of_nonneg (neg_nonneg.mpr h.le)]

@[simp] theorem roundBinary_zero : roundBinary 0 = 0 := by
  rw [roundBinary_of_nonneg le_rfl, zero_div, ← Int.cast_zero, roundEven_intCast, Int.cast_zero,
    zero_mul]

/-- What is a whole number of units below a bound stays below it. -/
theorem roundBinary_le (hx : 0 ≤ x) (n : ℤ) (h : x ≤ n * ulp x) : roundBinary x ≤ n * ulp x := by
  rw [roundBinary_of_nonneg hx]
  have hle := roundEven_mono ((div_le_iff₀ (ulp_pos x)).mpr h)
  rw [roundEven_intCast] at hle
  exact mul_le_mul_of_nonneg_right (Int.cast_le.mpr hle) (ulp_pos x).le

theorem le_roundBinary (hx : 0 ≤ x) (n : ℤ) (h : n * ulp x ≤ x) : n * ulp x ≤ roundBinary x := by
  rw [roundBinary_of_nonneg hx]
  have hle := roundEven_mono ((le_div_iff₀ (ulp_pos x)).mpr h)
  rw [roundEven_intCast] at hle
  exact mul_le_mul_of_nonneg_right (Int.cast_le.mpr hle) (ulp_pos x).le

theorem units_of_ulp (x : ℚ) (n : ℕ) :
    ((2 ^ (52 + n) : ℤ) : ℚ) * ulp x = 2 ^ (Int.log 2 x + n) := by
  rw [ulp, Int.cast_pow, Int.cast_ofNat, ← zpow_natCast, ← zpow_add₀ two_ne_zero]
  congr 1
  push_cast
  ring

/-- Rounding leaves a positive number between the powers of two that it lies between. -/
theorem zpow_log_le_roundBinary (hx : 0 < x) : (2 : ℚ) ^ Int.log 2 x ≤ roundBinary x := by
  have hunits := units_of_ulp x 0
  rw [Nat.cast_zero, add_zero, add_zero] at hunits
  rw [← hunits]
  apply le_roundBinary hx.le
  rw [hunits]
  exact Int.zpow_log_le_self one_lt_two hx

theorem roundBinary_le_zpow_log (hx : 0 < x) : roundBinary x ≤ (2 : ℚ) ^ (Int.log 2 x + 1) := by
  have hunits := units_of_ulp x 1
  rw [Nat.cast_one] at hunits
  rw [← hunits]
  apply roundBinary_le hx.le
  rw [hunits]
  exact (Int.lt_zpow_succ_log_self one_lt_two x).le

theorem roundBinary_pos (hx : 0 < x) : 0 < roundBinary x :=
  (zpow_pos two_pos _).trans_le (zpow_log_le_roundBinary hx)

theorem roundBinary_nonneg (hx : 0 ≤ x) : 0 ≤ roundBinary x := by
  rcases hx.eq_or_lt with rfl | hx
  · rw [roundBinary_zero]
  · exact (roundBinary_pos hx).le

theorem roundBinary_one : roundBinary 1 = 1 := by
  have hunits := units_of_ulp 1 0
  rw [Nat.cast_zero, add_zero, add_zero, Int.log_one_right, zpow_zero] at hunits
  have hle := roundBinary_le zero_le_one (2 ^ 52) hunits.ge
  have hge := le_roundBinary zero_le_one (2 ^ 52) hunits.le
  rw [hunits] at hle hge
  exact hle.antisymm hge

theorem roundBinary_mono_of_nonneg (hx : 0 ≤ x) (hxy : x ≤ y) : roundBinary x ≤ roundBinary y := by
  rcases hx.eq_or_lt with rfl | hx
  · rw [roundBinary_zero]
    exact roundBinary_nonneg hxy
  have hy := hx.trans_le hxy
  rcases (Int.log_mono_right (b := 2) hx hxy).lt_or_eq with hlt | heq
  · -- a power of two lies between
    calc roundBinary x ≤ 2 ^ (Int.log 2 x + 1) := roundBinary_le_zpow_log hx
      _ ≤ 2 ^ Int.log 2 y := zpow_le_zpow_right₀ one_le_two hlt
      _ ≤ roundBinary y := zpow_log_le_roundBinary hy
  · have hulp : ulp x = ulp y := by rw [ulp, heq, ulp]
    rw [roundBinary_of_nonneg hx.le, roundBinary_of_nonneg hy.le, hulp]
    have hle := roundEven_mono (div_le_div_of_nonneg_right hxy (ulp_pos y).le)
    exact mul_le_mul_of_nonneg_right (Int.cast_le.mpr hle) (ulp_pos y).le

theorem roundBinary_mono : Monotone roundBinary := by
  intro x y hxy
  rcases le_or_gt 0 x with hx | hx
  · exact roundBinary_mono_of_nonneg hx hxy
  rw [roundBinary_of_neg hx]
  have hneg : -roundBinary (-x) ≤ 0 := neg_nonpos.mpr (roundBinary_nonneg (neg_nonneg.mpr hx.le))
  rcases le_or_gt 0 y with hy | hy
  · exact hneg.trans (roundBinary_nonneg hy)
  · rw [roundBinary_of_neg hy]
    exact neg_le_neg (roundBinary_mono_of_nonneg (neg_nonneg.mpr hy.le) (neg_le_neg hxy))

/-! ## Decimal places -/

/-- The floating-point number next to the decimal number with `n` places that is next to `x`. -/
def roundPlaces (n : ℕ) (x : ℚ) : ℚ := roundBinary (roundEven (x * 10 ^ n) / 10 ^ n)

theorem roundPlaces_mono (n : ℕ) : Monotone (roundPlaces n) := by
  intro x y hxy
  have hpow : (0 : ℚ) < 10 ^ n := pow_pos (by norm_num) n
  have hle := roundEven_mono (mul_le_mul_of_nonneg_right hxy hpow.le)
  exact roundBinary_mono (div_le_div_of_nonneg_right (Int.cast_le.mpr hle) hpow.le)

@[simp] theorem roundPlaces_one (n : ℕ) : roundPlaces n 1 = 1 := by
  have hcast : (1 : ℚ) * 10 ^ n = ((10 ^ n : ℤ) : ℚ) := by push_cast; rw [one_mul]
  rw [roundPlaces, hcast, roundEven_intCast]
  push_cast
  rw [div_self (pow_ne_zero n (by norm_num)), roundBinary_one]

end MarginKG
