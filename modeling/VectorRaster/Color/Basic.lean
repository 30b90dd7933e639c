/-
  VectorRaster.Color.Basic — colours by component, from bytes and in `#` notation.
-/

namespace VectorRaster

/-- What an outline or an interior is painted with. -/
inductive Color where
  /-- Red, green, blue and alpha, each from 0 to 1. -/
  | rgba (red green blue alpha : Float32)
  /-- Nothing is painted. -/
  | none
  deriving DecidableEq, Repr

namespace Color

structure Components where
  red : Float32
  green : Float32
  blue : Float32
  alpha : Float32

/-- The components of a colour; `none` counts as transparent black. -/
def components : Color → Components
  | rgba r g b a => ⟨r, g, b, a⟩
  | none => ⟨0.0, 0.0, 0.0, 0.0⟩

def isNone : Color → Bool
  | none => true
  | rgba .. => false

def black : Color := rgba 0.0 0.0 0.0 1.0

/-- The opaque colour with these bytes. -/
def ofBytes (r g b : UInt8) : Color :=
  rgba (r.toFloat32 / 255.0) (g.toFloat32 / 255.0) (b.toFloat32 / 255.0) 1.0

/-- The value of a hexadecimal digit, in either case. -/
def hexDigit? (c : Char) : Option UInt8 :=
  if c.isDigit then some (c.toNat - '0'.toNat).toUInt8
  else if 'a' ≤ c && c ≤ 'f' then some (c.toNat - 'a'.toNat + 10).toUInt8
  else if 'A' ≤ c && c ≤ 'F' then some (c.toNat - 'A'.toNat + 10).toUInt8
  else Option.none

/-- The colour that three or six digits stand for; three stand for each digit twice. -/
def ofDigits? : List UInt8 → Option Color
  | [r, g, b] => some (ofBytes (17 * r) (17 * g) (17 * b))
  | [r, r', g, g', b, b'] => some (ofBytes (16 * r + r') (16 * g + g') (16 * b + b'))
  | _ => Option.none

/-- A colour in the notation `#rgb` or `#rrggbb`. -/
def ofHex? : List Char → Option Color
  | '#' :: digits => digits.mapM hexDigit? >>= ofDigits?
  | _ => Option.none

end Color

end VectorRaster
