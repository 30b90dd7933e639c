/-
  VectorRaster.Numeric.Numeral — numbers as they are written.

  A numeral is an optional sign and then either decimal digits, with an optional point
  (at least one digit on one side of it) and an optional exponent, or one of the words
  `inf`, `infinity` and `nan` in any case. Nothing else may stand beside it. Its value is
  rounded once, to the nearest double or single; a tie goes to the even neighbour.
-/

namespace VectorRaster.Numeric

inductive Numeral where
  /-- The number `digits` times ten to the `exponent`. -/
  | decimal (negative : Bool) (digits : Nat) (exponent : Int)
  | infinity (negative : Bool)
  | nan
  deriving DecidableEq, Repr

namespace Numeral

def digitsValue (cs : List Char) : Nat := cs.foldl (fun n c => 10 * n + (c.toNat - '0'.toNat)) 0

/-- The value of an exponent, from its mark on; no text is no exponent. -/
def exponent? : List Char → Option Int
  | [] => some 0
  | mark :: cs =>
    if mark == 'e' || mark == 'E' then
      let (negative, digits) := match cs with
        | '-' :: digits => (true, digits)
        | '+' :: digits => (false, digits)
        | digits => (false, digits)
      if digits.isEmpty || !digits.all Char.isDigit then none
      else if negative then some (-(digitsValue digits : Int)) else some (digitsValue digits)
    else none

/-- A numeral after its sign. -/
def unsigned? (negative : Bool) (cs : List Char) : Option Numeral :=
  let word := String.ofList (cs.map Char.toLower)
  if word == "inf" || word == "infinity" then some (.infinity negative)
  else if word == "nan" then some .nan
  else
    let whole := cs.takeWhile Char.isDigit
    let (fraction, rest) := match cs.dropWhile Char.isDigit with
      | '.' :: rest => (rest.takeWhile Char.isDigit, rest.dropWhile Char.isDigit)
      | rest => ([], rest)
    if whole.isEmpty && fraction.isEmpty then none
    else (exponent? rest).map fun e => .decimal negative (digitsValue (whole ++ fraction)) (e - fraction.length)

def ofChars? : List Char → Option Numeral
  | '-' :: cs => unsigned? true cs
  | '+' :: cs => unsigned? false cs
  | cs => unsigned? false cs

/-- Every power of ten past this, either way, leaves the range of a double. -/
def farExponent : Int := 400

/-- The number nearest to `digits` times ten to the `exponent`; one far out of range is not worked out.
Ten binary digits are worth at least three decimal ones. -/
def scaled {α : Type} [OfScientific α] [Div α] (digits : Nat) (exponent : Int) : α :=
  if digits = 0 || exponent + (digits.log2 + 1) < -farExponent then 0.0
  else if farExponent < exponent + (3 * digits.log2 / 10 : Nat) then 1.0 / 0.0
  else OfScientific.ofScientific digits (exponent < 0) exponent.natAbs

def value {α : Type} [OfScientific α] [Div α] [Neg α] : Numeral → α
  | .decimal negative digits exponent =>
    if negative then -(scaled digits exponent) else scaled digits exponent
  | .infinity negative => if negative then -(1.0 / 0.0) else 1.0 / 0.0
  | .nan => 0.0 / 0.0

def toFloat (n : Numeral) : Float := n.value

def toFloat32 (n : Numeral) : Float32 := n.value

end Numeral

/-- The number that is written. -/
def float? (cs : List Char) : Option Float := (Numeral.ofChars? cs).map Numeral.toFloat

/-- The same, unless it is infinite or no number. -/
def finiteFloat? (cs : List Char) : Option Float := (float? cs).filter Float.isFinite

end VectorRaster.Numeric
