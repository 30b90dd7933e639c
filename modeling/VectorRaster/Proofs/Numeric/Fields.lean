/-
  VectorRaster.Proofs.Numeric.Fields — any ordered field as scalars.

  In a field whose order has floors the formulas of the geometry are read exactly, as over the
  rationals. The functions that an ellipse needs are a parameter there, `Functions`: what is proved
  in `Analytic.exact` holds whatever they are, so also for functions that are only near to those
  they are named for.

  A half turn is twice a quarter turn. A quarter turn is the number of its double, written with all
  its digits (`value_quarterTurn`).
-/

import VectorRaster.Proofs.Numeric.Arithmetic
import VectorRaster.Proofs.Numeric.Rationals

namespace VectorRaster.Numeric

section Exact

variable (K : Type) [Field K] [LinearOrder K] [FloorRing K]

/-- Scalars that are calculated with exactly. Words keep their range. -/
@[reducible]
def Scalar.exact : Scalar K where
  toAdd := inferInstance
  toSub := inferInstance
  toMul := inferInstance
  toDiv := inferInstance
  toNeg := inferInstance
  toLT := inferInstance
  toBEq := instBEqOfDecidableEq
  toOfScientific := inferInstance
  ofCount n := n
  decLt := inferInstance
  abs x := |x|
  round x := if x < 0 then -⌊-x + 1 / 2⌋ else ⌊x + 1 / 2⌋
  ceil x := ⌈x⌉
  smaller := min
  larger := max
  greatest? := none
  least? := none
  toInt64 x := .ofInt (max (-2 ^ 63) (min (2 ^ 63 - 1) (if x < 0 then ⌈x⌉ else ⌊x⌋)))
  toCount x := Word.capped (if x < 0 then ⌈x⌉ else ⌊x⌋).toNat

/-- Functions of which nothing is known. -/
class Functions (K : Type) where
  sqrt : K → K
  sin : K → K
  cos : K → K
  tan : K → K
  arccos : K → K

/-- Exact arithmetic with these functions. -/
@[reducible]
def Analytic.exact [Functions K] : Analytic K where
  toScalar := Scalar.exact K
  sqrt := Functions.sqrt
  sin := Functions.sin
  cos := Functions.cos
  tan := Functions.tan
  arccos := Functions.arccos

end Exact

section Constants

variable {K : Type} [Field K] [LinearOrder K] [FloorRing K]

attribute [local instance] Scalar.exact

theorem exact_zero : (0.0 : K) = 0 := by
  norm_num

theorem exact_one : (1.0 : K) = 1 := by
  norm_num

theorem exact_two : (2.0 : K) = 2 := by
  norm_num

theorem halfTurn_eq : (halfTurn : K) = 2 * quarterTurn := by
  norm_num [halfTurn, quarterTurn]

variable [IsStrictOrderedRing K]

theorem quarterTurn_pos : (0 : K) < quarterTurn := by
  norm_num [quarterTurn]

theorem halfTurn_pos : (0 : K) < halfTurn := by
  norm_num [halfTurn]

end Constants

theorem value_quarterTurn : value quarterTurn = (quarterTurn : ℚ) := by
  decide +kernel

end VectorRaster.Numeric
