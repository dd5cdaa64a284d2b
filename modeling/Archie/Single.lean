/-
Rounding to the 24-bit significand of a single-precision number.

Numbers are rationals; `roundSingle` rounds a positive one to the nearest
multiple of its unit in the last place, ties to even, as arithmetic on `float`
does in the range of normal numbers.

* `abs_roundSingle_sub_le` — the relative error is at most `2 ^ (-24)`.
-/
import Mathlib.Data.Int.Log
import Mathlib.Data.Rat.Floor
import Mathlib.Tactic.Linarith
import Mathlib.Tactic.FieldSimp
import Mathlib.Tactic.Ring
import Mathlib.Algebra.Order.Field.Power

namespace Single

/-- The nearest integer, the even one of two. -/
def roundEven (q : ℚ) : ℤ :=
  if q - ⌊q⌋ < 1 / 2 then ⌊q⌋
  else if 1 / 2 < q - ⌊q⌋ then ⌊q⌋ + 1
  else ⌊q⌋ + ⌊q⌋ % 2

/-- The unit in the last place of a 24-bit significand. -/
def ulp (q : ℚ) : ℚ := 2 ^ (Int.log 2 q - 23)

/-- The single-precision number nearest to a positive rational. -/
def roundSingle (q : ℚ) : ℚ := roundEven (q / ulp q) * ulp q

theorem abs_roundEven_sub_le (q : ℚ) : |(roundEven q : ℚ) - q| ≤ 1 / 2 := by
  have hlo := Int.floor_le q
  have hhi := Int.lt_floor_add_one q
  rw [roundEven, abs_le]
  split
  next h => constructor <;> linarith
  next h =>
    split
    next h' =>
      push_cast
      constructor <;> linarith
    next h' =>
      rcases Int.emod_two_eq_zero_or_one ⌊q⌋ with hm | hm <;> rw [hm] <;> push_cast <;>
        constructor <;> linarith

theorem ulp_pos (q : ℚ) : 0 < ulp q := by
  unfold ulp
  positivity

/-- A unit in the last place is at most `2 ^ (-23)` of the number. -/
theorem ulp_le {q : ℚ} (hq : 0 < q) : ulp q ≤ q / 2 ^ 23 := by
  have h := Int.zpow_log_le_self (b := 2) (by norm_num) hq
  rw [ulp, zpow_sub₀ (by norm_num)]
  push_cast at h
  have h2 : (2 : ℚ) ^ (23 : ℤ) = 2 ^ 23 := by norm_num
  rw [h2]
  gcongr

/-- Rounding moves a number by at most `2 ^ (-24)` of it. -/
theorem abs_roundSingle_sub_le {q : ℚ} (hq : 0 < q) : |roundSingle q - q| ≤ q / 2 ^ 24 := by
  have hu := ulp_pos q
  have hmul : roundSingle q - q = (roundEven (q / ulp q) - q / ulp q) * ulp q := by
    rw [roundSingle, sub_mul, div_mul_cancel₀ _ hu.ne']
  calc |roundSingle q - q| = |(roundEven (q / ulp q) : ℚ) - q / ulp q| * ulp q := by
        rw [hmul, abs_mul, abs_of_pos hu]
    _ ≤ 1 / 2 * ulp q := by
        gcongr
        exact abs_roundEven_sub_le _
    _ ≤ 1 / 2 * (q / 2 ^ 23) := by
        gcongr
        exact ulp_le hq
    _ = q / 2 ^ 24 := by ring

theorem roundSingle_le {q : ℚ} (hq : 0 < q) : roundSingle q ≤ q * (1 + 1 / 2 ^ 24) := by
  have h := (abs_le.mp (abs_roundSingle_sub_le hq)).2
  linarith

theorem le_roundSingle {q : ℚ} (hq : 0 < q) : q * (1 - 1 / 2 ^ 24) ≤ roundSingle q := by
  have h := (abs_le.mp (abs_roundSingle_sub_le hq)).1
  linarith

theorem roundSingle_pos {q : ℚ} (hq : 0 < q) : 0 < roundSingle q := by
  refine lt_of_lt_of_le ?_ (le_roundSingle hq)
  have h : (0 : ℚ) < 1 - 1 / 2 ^ 24 := by norm_num
  positivity

end Single
