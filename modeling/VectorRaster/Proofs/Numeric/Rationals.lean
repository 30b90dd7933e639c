/-
  VectorRaster.Proofs.Numeric.Rationals — rationals as scalars.

  Over the rationals the formulas of the geometry are read exactly: nothing is rounded, and
  every number is finite. Words keep their range, so a number that is turned into one is
  still clamped.
-/

import Mathlib.Data.Rat.Floor
import Mathlib.Tactic.NormNum
import Mathlib.Tactic.Ring
import VectorRaster.Numeric.Scalar
import VectorRaster.Numeric.Word

namespace VectorRaster.Numeric

/-- A rational without its fraction. -/
def integerPart (q : ℚ) : ℤ := if q < 0 then ⌈q⌉ else ⌊q⌋

instance : Scalar ℚ where
  toAdd := inferInstance
  toSub := inferInstance
  toMul := inferInstance
  toDiv := inferInstance
  toNeg := inferInstance
  toLT := inferInstance
  toBEq := inferInstance
  toOfScientific := inferInstance
  ofCount n := n
  decLt := inferInstance
  abs := abs
  round q := if q < 0 then -⌊-q + 1 / 2⌋ else ⌊q + 1 / 2⌋
  ceil q := ⌈q⌉
  smaller := min
  larger := max
  greatest? := none
  least? := none
  toInt64 q := .ofInt (max (-2 ^ 63) (min (2 ^ 63 - 1) (integerPart q)))
  toCount q := Word.capped (integerPart q).toNat

theorem one_literal : (1.0 : ℚ) = 1 := by
  norm_num

theorem ofCount_eq_cast (n : ℕ) : (ofCount n : ℚ) = n := rfl

theorem powerFrom_eq (acc base : ℚ) {exponent bits : ℕ} (h : exponent < bits) :
    powerFrom acc base exponent bits = acc * base ^ exponent := by
  induction bits generalizing acc base exponent with
  | zero => omega
  | succ bits ih =>
    have hbit : (if exponent % 2 = 1 then acc * base else acc) = acc * base ^ (exponent % 2) := by
      rcases Nat.mod_two_eq_zero_or_one exponent with hzero | hone
      · rw [if_neg (by omega), hzero, pow_zero, mul_one]
      · rw [if_pos hone, hone, pow_one]
    simp only [powerFrom, hbit]
    split
    · rename_i hhalf
      rw [show exponent % 2 = exponent by omega]
    · rename_i hhalf
      rw [ih _ _ (by omega), ← pow_two, ← pow_mul, mul_assoc, ← pow_add, Nat.mod_add_div]

/-- Repeated squaring is exact. -/
theorem power_eq_pow (base : ℚ) (exponent : ℕ) : power base exponent = base ^ exponent := by
  rw [power, powerFrom_eq _ _ (Nat.lt_succ_self exponent)]
  norm_num

end VectorRaster.Numeric
