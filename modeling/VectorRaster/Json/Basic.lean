/-
  VectorRaster.Json.Basic — JSON values, and the numbers in them.

  What a number stands for depends on the precision that its reader asks for: it is rounded
  once, from what is written to the nearest number of that precision, and a tie goes to the
  even neighbour. A number past the range of a precision is read but has no value in it.

  Rounding looks at a limited count of digits. No number halfway between two neighbours
  needs more, so of the digits after them it matters only that there are some.
-/

import VectorRaster.Numeric.Numeral
import VectorRaster.Numeric.Word

namespace VectorRaster

namespace Json

open Numeric

/-- A number in both precisions; none where it is out of range. -/
structure Number where
  double? : Option Float
  single? : Option Float32
  deriving DecidableEq, Repr

namespace Number

def ofFloat (x : Float) : Number := ⟨some x, some x.toFloat32⟩

def ofFloat32 (x : Float32) : Number := ⟨some x.toFloat, some x⟩

/-- A number as it is written: sign, digits before and after the point, and exponent. -/
structure Written where
  negative : Bool
  whole : List Nat
  fraction : Option (List Nat)
  /-- The sign and the digits. -/
  exponent : Option (Bool × List Nat)
  deriving DecidableEq, Repr

namespace Written

/-- The number that some decimal digits write. -/
def digitsValue (digits : List Nat) : Nat := digits.foldl (fun n d => 10 * n + d) 0

/-- The digits after the point, up to the last that is not zero. -/
def places (w : Written) : List Nat := ((w.fraction.getD []).reverse.dropWhile (· == 0)).reverse

/-- All digits from the first that is not zero. -/
def digits (w : Written) : List Nat := (w.whole ++ w.places).dropWhile (· == 0)

/-- The power of ten that the last digit counts. -/
def scale (w : Written) : Int :=
  let exponent : Int := match w.exponent with
    | none => 0
    | some (false, ds) => digitsValue ds
    | some (true, ds) => -digitsValue ds
  exponent - w.places.length

/-- The first `limit` digits; a 1 after them stands for all others. -/
def cut (limit : Nat) (digits : List Nat) : List Nat :=
  if digits.length ≤ limit then digits else digits.take limit ++ [1]

/-- The nearest number without the sign, in a precision whose ties have at most `limit` digits. -/
def magnitude {α : Type} [OfScientific α] [Div α] (limit : Nat) (w : Written) : α :=
  let digits := cut limit w.digits
  Numeral.scaled (digitsValue digits) (w.scale + (w.digits.length - digits.length : Nat))

def signed {α : Type} [Neg α] (w : Written) (x : α) : α := if w.negative then -x else x

def double (w : Written) : Float := w.signed (w.magnitude 768)

/-- Whether this is a negative integer that needs the last bit of a word for its magnitude. -/
def isWideNegative (w : Written) : Bool :=
  w.negative && w.fraction.isNone && w.exponent.isNone
    && Word.lastSigned + 1 < digitsValue w.whole && digitsValue w.whole ≤ Word.last

/-- Negative integers that are too wide for a signed word are rounded to a double first. -/
def single (w : Written) : Float32 :=
  if w.isWideNegative then w.double.toFloat32 else w.signed (w.magnitude 113)

end Written

/-- The value of a number that is written. -/
def ofWritten (w : Written) : Number :=
  ⟨some w.double |>.filter Float.isFinite, some w.single |>.filter Float32.isFinite⟩

end Number

end Json

inductive Json where
  | null
  | bool (b : Bool)
  | number (n : Json.Number)
  /-- A text; none if it holds half a surrogate pair. -/
  | string (text : Option String)
  | array (items : List Json)
  /-- Fields in order; names may come more than once. -/
  | object (fields : List (Option String × Json))

namespace Json

/-- A number as a value; null if it is infinite or no number. -/
def ofFloat (x : Float) : Json := if x.isFinite then number (.ofFloat x) else null

def ofFloat32 (x : Float32) : Json := if x.isFinite then number (.ofFloat32 x) else null

def ofText (text : String) : Json := string (some text)

/-- An object with named fields. -/
def ofFields (fields : List (String × Json)) : Json := object (fields.map fun (name, j) => (some name, j))

end Json

end VectorRaster
