/-
  VectorRaster.Geometry.Transform — from the coordinates of a drawing to pixels of a surface.

  A transform moves its offset to the origin and then scales each axis. Lengths without a
  direction scale by the geometric mean of the two factors, so that the area a line covers
  grows with the area of the surface.
-/

import VectorRaster.Geometry.Point

namespace VectorRaster

open Numeric

structure Transform (α : Type) where
  scaleX : α
  scaleY : α
  offsetX : α
  offsetY : α
  deriving DecidableEq, Repr

namespace Transform

variable {α : Type}

def identity [Scalar α] : Transform α := ⟨1.0, 1.0, 0.0, 0.0⟩

/-- The transform that fits the rectangle from `corner`, `width` by `height`, to a surface. -/
def ofViewBox [Scalar α] (corner : Point α) (width height : α) (surfaceWidth surfaceHeight : Nat) : Transform α :=
  ⟨ofCount surfaceWidth / width, ofCount surfaceHeight / height, corner.x, corner.y⟩

def apply [Scalar α] (t : Transform α) (p : Point α) : Point α :=
  ⟨(p.x - t.offsetX) * t.scaleX, (p.y - t.offsetY) * t.scaleY⟩

def lengthScale [Analytic α] (t : Transform α) : α := Analytic.sqrt (Scalar.abs (t.scaleX * t.scaleY))

end Transform

end VectorRaster
