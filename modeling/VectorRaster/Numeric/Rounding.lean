/-
  VectorRaster.Numeric.Rounding — whole numbers out of binary floating point.

  A number of magnitude 2^52 or more has no fraction. Below that the whole part fits a
  64-bit word, so the fraction is an exact difference and each rounding is a comparison
  with it. A zero keeps the sign of the number it was rounded from.
-/

namespace VectorRaster.Numeric

/-- From here on every finite double is whole. -/
def wholeFrom : Float := 4503599627370496.0

/-- The magnitude of `x` without its fraction. -/
def wholePart (x : Float) : Float := x.abs.toUInt64.toFloat

/-- Puts the sign of `x` on the magnitude `m`. -/
def withSign (x m : Float) : Float :=
  if x.toBits >>> 63 == 1 then -m else m

/-- The nearest whole number; a half goes away from zero. -/
def roundHalfAway (x : Float) : Float :=
  if x.abs < wholeFrom then
    let whole := wholePart x
    withSign x (if x.abs - whole < 0.5 then whole else whole + 1.0)
  else x

/-- The least whole number that is not below `x`. -/
def roundUp (x : Float) : Float :=
  if x.abs < wholeFrom then
    let whole := wholePart x
    withSign x (if x.abs == whole || x < 0.0 then whole else whole + 1.0)
  else x

/-- The integer part as a signed word: clamped to its range, 0 for no number. -/
def truncateInt64 (x : Float) : Int64 :=
  if x < 0.0 then
    if -x < 9223372036854775808.0 then -(-x).toUInt64.toInt64 else Int64.minValue
  else
    if x < 9223372036854775808.0 then x.toUInt64.toInt64
    else if x.isNaN then 0 else Int64.maxValue

/-- The integer part as an unsigned word: clamped to its range, 0 for no number. -/
def truncateCount (x : Float) : Nat := x.toUInt64.toNat

/-- The nearest byte to a single-precision number; a half goes up, and the range is clamped. -/
def nearestByte (x : Float32) : UInt8 :=
  let whole := x.toUInt8
  if whole < 255 && 0.5 ≤ x - whole.toFloat32 then whole + 1 else whole

end VectorRaster.Numeric
