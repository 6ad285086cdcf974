import Mathlib.Data.Int.Log
import Mathlib.Data.Rat.Floor
import Mathlib.Tactic.Linarith
import Mathlib.Tactic.NormNum
import Mathlib.Tactic.Positivity

/-!
# Single precision

Rational numbers rounded to a significand of 24 bits.  The exponent has no
upper bound, so that nothing overflows, and the lower one of the format.
-/

namespace SimpleCache

/-- A number rounded to single precision, ties to even. -/
def single (number : ℚ) : ℚ :=
  let unit : ℚ := 2 ^ (max (Int.log 2 |number| - 23) (-149))
  let scaled := number / unit
  let below := ⌊scaled⌋
  let rest := scaled - below
  let nearest :=
    if rest < 1 / 2 ∨ (rest = 1 / 2 ∧ below % 2 = 0) then below else below + 1
  nearest * unit

/-- The distance of two neighbours. -/
theorem singleUnit_le (number : ℚ) :
    (2 : ℚ) ^ (max (Int.log 2 |number| - 23) (-149)) ≤
      |number| / 8388608 + 1 := by
  have least : (0 : ℚ) ≤ |number| / 8388608 := by positivity
  have one : ∀ power : ℤ, power ≤ 0 → (2 : ℚ) ^ power ≤ 1 :=
    fun power atMost => zpow_le_one_of_nonpos₀ one_le_two atMost
  rcases max_choice (Int.log 2 |number| - 23) (-149) with isLog | isLeast
  · rw [isLog]
    by_cases zero : number = 0
    · have small := one (Int.log 2 |number| - 23) (by rw [zero]; simp)
      linarith
    · have power := Int.zpow_log_le_self Nat.one_lt_two (abs_pos.mpr zero)
      rw [zpow_sub₀ two_ne_zero]
      norm_num at power ⊢
      linarith
  · rw [isLeast]
    have small := one (-149) (by decide)
    linarith

/-- Rounding moves a number by half a unit at most. -/
theorem single_error (number : ℚ) :
    |single number - number| ≤ |number| / 16777216 + 1 / 2 := by
  have unitLe := singleUnit_le number
  unfold single
  dsimp only
  set unit : ℚ := 2 ^ (max (Int.log 2 |number| - 23) (-149))
  have positive : 0 < unit := zpow_pos two_pos _
  have low := Int.floor_le (number / unit)
  have high := Int.lt_floor_add_one (number / unit)
  have exact_ : number = number / unit * unit := by
    rw [div_mul_cancel₀ number positive.ne']
  have near : ∀ nearest : ℤ, |(nearest : ℚ) - number / unit| ≤ 1 / 2 →
      |nearest * unit - number| ≤ |number| / 16777216 + 1 / 2 := by
    intro nearest close
    have scaled : |nearest * unit - number| =
        |(nearest : ℚ) - number / unit| * unit := by
      rw [← abs_of_pos positive, ← abs_mul, abs_of_pos positive, sub_mul,
        ← exact_]
    have atMost := mul_le_mul_of_nonneg_right close positive.le
    rw [scaled]
    linarith
  split
  · next down =>
      refine near _ (abs_le.mpr ?_)
      have half : number / unit - ⌊number / unit⌋ ≤ 1 / 2 :=
        down.elim le_of_lt fun tie => tie.1.le
      constructor <;> linarith
  · next up =>
      refine near _ (abs_le.mpr ?_)
      have half : 1 / 2 ≤ number / unit - ⌊number / unit⌋ :=
        not_lt.mp fun less => up (Or.inl less)
      push_cast
      constructor <;> linarith

end SimpleCache
