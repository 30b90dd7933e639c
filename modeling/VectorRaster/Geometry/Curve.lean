/-
  VectorRaster.Geometry.Curve — points on a Bézier curve, and how many of them to take.

  A point is the sum of the control points with their Bernstein weights. A curve is
  sampled in proportion to the area of its bounding box, in pixels, but not more often
  than the surface has pixels when it is grown by the stroke on every side.
-/

import VectorRaster.Geometry.Binomial
import VectorRaster.Geometry.Primitive
import VectorRaster.Numeric.Word

namespace VectorRaster

namespace Curve

open Numeric

variable {α : Type} [Scalar α]

/-- A control point with its weight as a function of the position. -/
structure Term (α : Type) where
  coefficient : α
  /-- The exponent of one minus the position. -/
  falling : Nat
  /-- The exponent of the position. -/
  rising : Nat
  point : Point α

/-- The weight at the position `t`. -/
@[inline]
def Term.weight (term : Term α) (t : α) : α :=
  term.coefficient * power (1.0 - t) term.falling * power t term.rising

/-- The control points of a curve, with their weights. -/
def terms (table : BinomialTable) (points : List (Point α)) : List (Term α) :=
  let degree := points.length - 1
  points.zipIdx.map fun (p, i) => ⟨ofCount (table.coefficient degree i).toNat, degree - i, i, p⟩

/-- The point at `x` and `y`, moved by the sum of some terms at the position `t`. -/
@[specialize]
def sumFrom (t : α) : List (Term α) → (x y : α) → Point α
  | [], x, y => ⟨x, y⟩
  | term :: rest, x, y =>
    let weight := term.weight t
    sumFrom t rest (x + term.point.x * weight) (y + term.point.y * weight)

/-- The sum of some terms at the position `t`. -/
@[inline]
def sumAt (terms : List (Term α)) (t : α) : Point α := sumFrom t terms 0.0 0.0

/-- The point of the curve at the position `t`, from 0 to 1. -/
def evaluate (table : BinomialTable) (points : List (Point α)) (t : α) : Point α := sumAt (terms table points) t

/-- The point of the curve; none if working out one of the coefficients does not return. -/
def evaluate? (table : BinomialTable) (points : List (Point α)) (t : α) : Option (Point α) :=
  let calculated (i : Nat) : Bool := (table.coefficient? (points.length - 1) i).isSome
  if (List.range points.length).all calculated then some (evaluate table points t) else none

/-- A side of a bounding box in whole pixels; one at least. -/
def side (low high : α) : Nat := max (Scalar.toCount (Scalar.round (high - low))) 1

/-- How many steps the area of the bounding box asks for. -/
def sampleCount : List (Point α) → Nat
  | [] => 1
  | p :: ps =>
    let width := side (minimum p.x (ps.map (·.x))) (maximum p.x (ps.map (·.x)))
    let height := side (minimum p.y (ps.map (·.y))) (maximum p.y (ps.map (·.y)))
    Word.capped (width * height)

/-- The most steps that are worth taking on a surface of this size. -/
def sampleLimit (surfaceWidth surfaceHeight strokeRadius : Nat) : Nat :=
  let margin := Word.capped (Word.capped (strokeRadius * 2) + 1)
  let width := Word.capped (surfaceWidth + margin)
  let height := Word.capped (surfaceHeight + margin)
  Word.capped (width * height)

/-- The points between neighbours, at the position `t`. -/
def between (t : α) (points : List (Point α)) : List (Point α) :=
  points.zipWith (fun p q => p.scale (1.0 - t) + q.scale t) points.tail

/-- The control points of the stretch from `t₀` to `t₁`. Each comes from as many interpolations as the
curve has degrees, which leave one point. -/
def stretch (points : List (Point α)) (t₀ t₁ : α) : List (Point α) :=
  (List.range points.length).flatMap fun i =>
    (List.replicate (points.length - 1 - i) t₀ ++ List.replicate i t₁).foldl (fun points t => between t points) points

/-- The position of sample `i` of `count` equal steps. -/
@[inline]
def position (count i : Nat) : α := ofCount i / ofCount count

end Curve

end VectorRaster
