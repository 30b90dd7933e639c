/-
  VectorRaster.Geometry.Primitive — the pieces that outlines are made of.

  A piece is a Bézier curve of degree one to three, from its first control point to its
  last.
-/

import VectorRaster.Geometry.Transform

namespace VectorRaster

open Numeric

inductive Primitive (α : Type) where
  | line (start stop : Point α)
  | quadratic (start control stop : Point α)
  | cubic (start control₁ control₂ stop : Point α)
  deriving DecidableEq, Repr

namespace Primitive

variable {α : Type}

def controlPoints : Primitive α → List (Point α)
  | line p q => [p, q]
  | quadratic p c q => [p, c, q]
  | cubic p c d q => [p, c, d, q]

def start : Primitive α → Point α
  | line p _ => p
  | quadratic p _ _ => p
  | cubic p _ _ _ => p

def stop : Primitive α → Point α
  | line _ q => q
  | quadratic _ _ q => q
  | cubic _ _ _ q => q

def map {β : Type} (f : Point α → Point β) : Primitive α → Primitive β
  | line p q => line (f p) (f q)
  | quadratic p c q => quadratic (f p) (f c) (f q)
  | cubic p c d q => cubic (f p) (f c) (f d) (f q)

@[simp] theorem start_map {β : Type} (f : Point α → Point β) (piece : Primitive α) :
    (piece.map f).start = f piece.start := by cases piece <;> rfl

@[simp] theorem stop_map {β : Type} (f : Point α → Point β) (piece : Primitive α) :
    (piece.map f).stop = f piece.stop := by cases piece <;> rfl

@[simp] theorem controlPoints_map {β : Type} (f : Point α → Point β) (piece : Primitive α) :
    (piece.map f).controlPoints = piece.controlPoints.map f := by cases piece <;> rfl

/-- The image of a piece, which is the piece of the images of its control points. -/
def transform [Scalar α] (t : Transform α) (piece : Primitive α) : Primitive α := piece.map t.apply

end Primitive

end VectorRaster
