/-
  VectorRaster.Numeric.Scalar — the numbers that coordinates are computed with.

  Geometry is written once, over any `Scalar`. Doubles are the scalars that run; a field
  whose arithmetic is exact is another reading of the same formulas. `Analytic` adds the
  functions that an ellipse needs.

  A scalar keeps only what the formulas use. The order may leave numbers incomparable (a
  NaN), so `smaller` and `larger` are operations of their own: with one such argument they
  give the other.
-/

import VectorRaster.Numeric.Rounding

namespace VectorRaster.Numeric

class Scalar (α : Type) extends Add α, Sub α, Mul α, Div α, Neg α, LT α, BEq α, OfScientific α where
  ofCount : Nat → α
  decLt : DecidableLT α
  abs : α → α
  /-- The nearest whole number; a half goes away from zero. -/
  round : α → α
  /-- The least whole number that is not below. -/
  ceil : α → α
  smaller : α → α → α
  larger : α → α → α
  /-- The greatest finite number, where there is one. -/
  greatest? : Option α
  /-- The least finite number, where there is one. -/
  least? : Option α
  /-- The integer part, clamped to 64 bits with a sign. -/
  toInt64 : α → Int64
  /-- The integer part, clamped to 64 bits without a sign. -/
  toCount : α → Nat

instance Scalar.instDecidableLT (α : Type) [Scalar α] : DecidableLT α := Scalar.decLt

class Analytic (α : Type) extends Scalar α where
  sqrt : α → α
  sin : α → α
  cos : α → α
  tan : α → α
  arccos : α → α

export Scalar (ofCount)

section

variable {α : Type} [Scalar α]

/-- The number of the double nearest to half a turn, in radians. -/
def halfTurn : α := 3.141592653589793115997963468544185161590576171875

/-- The number of the double nearest to a quarter turn, in radians. -/
def quarterTurn : α := 1.5707963267948965579989817342720925807952880859375

/-- Powers by repeated squaring, from the lowest bit of the exponent up. -/
@[specialize]
def powerFrom (acc base : α) (exponent : Nat) : Nat → α
  | 0 => acc
  | bits + 1 =>
    let acc := if exponent % 2 = 1 then acc * base else acc
    if exponent / 2 = 0 then acc else powerFrom acc (base * base) (exponent / 2) bits

@[inline]
def power (base : α) (exponent : Nat) : α := powerFrom 1.0 base exponent (exponent + 1)

/-- The smallest of `x` and `xs`, and of the greatest finite number if there is one. -/
def minimum (x : α) (xs : List α) : α :=
  xs.foldl Scalar.smaller (((Scalar.greatest? : Option α).map (Scalar.smaller · x)).getD x)

/-- The largest of `x` and `xs`, and of the least finite number if there is one. -/
def maximum (x : α) (xs : List α) : α :=
  xs.foldl Scalar.larger (((Scalar.least? : Option α).map (Scalar.larger · x)).getD x)

end

/-! ## Doubles -/

/-- The smaller of two doubles; if one is no number, the other. -/
def smallerFloat (x y : Float) : Float :=
  if x.isNaN then y else if y < x then y else x

/-- The larger of two doubles; if one is no number, the other. -/
def largerFloat (x y : Float) : Float :=
  if x.isNaN then y else if x < y then y else x

instance : Analytic Float where
  ofCount := Float.ofNat
  decLt := fun x y => Float.decLt x y
  abs := Float.abs
  round := roundHalfAway
  ceil := roundUp
  smaller := smallerFloat
  larger := largerFloat
  greatest? := some 1.7976931348623157e308
  least? := some (-1.7976931348623157e308)
  toInt64 := truncateInt64
  toCount := truncateCount
  sqrt := Float.sqrt
  sin := Float.sin
  cos := Float.cos
  tan := Float.tan
  arccos := Float.acos

end VectorRaster.Numeric
