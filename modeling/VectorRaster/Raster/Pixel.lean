/-
  VectorRaster.Raster.Pixel — pixels of four bytes, and drawing one over another.

  Alpha is not multiplied into the colour bytes.
-/

import VectorRaster.Color.Basic
import VectorRaster.Numeric.Rounding

namespace VectorRaster

open Numeric

structure Pixel where
  red : UInt8
  green : UInt8
  blue : UInt8
  alpha : UInt8
  deriving DecidableEq, Repr

namespace Pixel

def transparent : Pixel := ⟨0, 0, 0, 0⟩

def isTransparent (p : Pixel) : Bool := p.alpha == 0

/-- A component moved into the range from 0 to 1; no number counts as 0. -/
def unit (x : Float32) : Float32 :=
  let x := if 0.0 < x then x else 0.0
  if x < 1.0 then x else 1.0

/-- The pixel of a colour; the colour that paints nothing has none. -/
def ofColor? : Color → Option Pixel
  | .none => none
  | .rgba r g b a =>
    let byte (x : Float32) : UInt8 := nearestByte (unit x * 255.0)
    some ⟨byte r, byte g, byte b, byte a⟩

/-- What `src` drawn over `dest` looks like. -/
def sourceOver (src dest : Pixel) : Pixel :=
  if src.alpha == 255 || dest.alpha == 0 then src
  else
    let srcAlpha := src.alpha.toFloat32 / 255.0
    let destAlpha := dest.alpha.toFloat32 / 255.0
    let alpha := srcAlpha + destAlpha * (1.0 - srcAlpha)
    if alpha ≤ 0.0 then transparent
    else
      let blend (s d : UInt8) : UInt8 :=
        nearestByte ((s.toFloat32 * srcAlpha + d.toFloat32 * destAlpha * (1.0 - srcAlpha)) / alpha)
      ⟨blend src.red dest.red, blend src.green dest.green, blend src.blue dest.blue, nearestByte (alpha * 255.0)⟩

def bytes (p : Pixel) : List UInt8 := [p.red, p.green, p.blue, p.alpha]

end Pixel

end VectorRaster
