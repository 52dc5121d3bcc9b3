import Mathlib.Data.Int.Order.Basic
import Mathlib.Algebra.Order.Group.Int
import Mathlib.Algebra.Order.Group.Abs

/-! # Fixed-point arithmetic

The macros of `threads/fixed.h`. A `fixed_t` is a C `int` whose low 15 bits
are the fraction. Values are mathematical integers here: C's `int` overflow is
undefined, and the MLFQS quantities stay far inside 32 bits. C division
truncates toward zero (`Int.tdiv`); a right shift of a signed value is the
arithmetic shift GCC emits, which rounds toward negative infinity (`>>>`).
-/

namespace Pintos

def fpShiftAmount : ℕ := 15

/-- `FP_CONST`: an integer as a fixed-point value. -/
def fpConst (a : ℤ) : ℤ := a * 2 ^ fpShiftAmount

def fpAdd (a b : ℤ) : ℤ := a + b

/-- `FP_ADD_MIX`: add an integer to a fixed-point value. -/
def fpAddMix (a b : ℤ) : ℤ := a + b * 2 ^ fpShiftAmount

def fpSub (a b : ℤ) : ℤ := a - b

/-- `FP_SUB_MIX`: subtract an integer from a fixed-point value. -/
def fpSubMix (a b : ℤ) : ℤ := a - b * 2 ^ fpShiftAmount

/-- `FP_MULT_MIX`: multiply a fixed-point value by an integer. -/
def fpMultMix (a b : ℤ) : ℤ := a * b

/-- `FP_DIV_MIX`: divide a fixed-point value by an integer. -/
def fpDivMix (a b : ℤ) : ℤ := a.tdiv b

/-- `FP_MULT`: the 64-bit product shifted back down. -/
def fpMult (a b : ℤ) : ℤ := (a * b) >>> fpShiftAmount

/-- `FP_DIV`: the 64-bit dividend shifted up, then divided. -/
def fpDiv (a b : ℤ) : ℤ := (a * 2 ^ fpShiftAmount).tdiv b

/-- `FP_INT_PART`: the integer part, by an arithmetic shift. -/
def fpIntPart (a : ℤ) : ℤ := a >>> fpShiftAmount

/-- `FP_ROUND`: add or subtract one half by the sign, then shift. -/
def fpRound (a : ℤ) : ℤ :=
  if 0 ≤ a then (a + 2 ^ (fpShiftAmount - 1)) >>> fpShiftAmount
  else (a - 2 ^ (fpShiftAmount - 1)) >>> fpShiftAmount

section Rounding

/-- `r` is the fixed-point value `a` rounded to the nearest integer, halves away from zero. -/
def RoundsHalfAway (a r : ℤ) : Prop :=
  |a - r * 2 ^ fpShiftAmount| < 2 ^ (fpShiftAmount - 1) ∨
    |a - r * 2 ^ fpShiftAmount| = 2 ^ (fpShiftAmount - 1) ∧ |a| < |r * 2 ^ fpShiftAmount|

instance (a r : ℤ) : Decidable (RoundsHalfAway a r) :=
  inferInstanceAs (Decidable (_ ∨ _ ∧ _))

/-- The rounding as two half-open intervals, closed on the side away from zero. -/
theorem roundsHalfAway_iff {a r : ℤ} : RoundsHalfAway a r ↔
    (0 ≤ a → a - 2 ^ 14 < r * 2 ^ 15 ∧ r * 2 ^ 15 ≤ a + 2 ^ 14) ∧
      (a < 0 → a - 2 ^ 14 ≤ r * 2 ^ 15 ∧ r * 2 ^ 15 < a + 2 ^ 14) := by
  unfold RoundsHalfAway fpShiftAmount
  rcases abs_cases (a - r * 2 ^ 15) with ⟨hd, hd'⟩ | ⟨hd, hd'⟩ <;>
    rcases abs_cases a with ⟨ha, ha'⟩ | ⟨ha, ha'⟩ <;>
    rcases abs_cases (r * 2 ^ 15) with ⟨hr, hr'⟩ | ⟨hr, hr'⟩ <;>
    omega

theorem fpRound_of_nonneg {a : ℤ} (h : 0 ≤ a) : RoundsHalfAway a (fpRound a) := by
  rw [roundsHalfAway_iff, fpRound, if_pos h, Int.shiftRight_eq_div_pow]
  unfold fpShiftAmount
  omega

/-- Below zero the shift floors where a truncation was meant: the result is one short of the
rounding unless `a` is an exact half. -/
theorem fpRound_of_neg {a : ℤ} (h : a < 0) :
    RoundsHalfAway a (fpRound a + if (a - 2 ^ 14) % 2 ^ 15 = 0 then 0 else 1) := by
  rw [roundsHalfAway_iff, fpRound, if_neg (not_le.mpr h), Int.shiftRight_eq_div_pow]
  unfold fpShiftAmount
  split <;> omega

example : fpRound (-100) = -1 ∧ RoundsHalfAway (-100) 0 := by decide

end Rounding

end Pintos
