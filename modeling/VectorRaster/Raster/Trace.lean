/-
  VectorRaster.Raster.Trace — drawing outlines, without the samples that change nothing.

  A long stretch of a curve may be so far off that no stamp on it paints, and all of them
  mark the same cell: then one mark stands for all. A stretch stays in the box of its own
  control points, widened by more than samples can be off by rounding, so its box tells.
  Where it does not, the stretch is halved, and short stretches are sampled.
-/

import VectorRaster.Raster.Stroke

namespace VectorRaster

open Numeric

/-- The pixels from one corner to the other. -/
structure PixelBox where
  low : GridPoint
  high : GridPoint
  deriving DecidableEq, Repr

/-- The pixels nearest to what is between some points, or outside by no more than `slack`. -/
def PixelBox.around? {α : Type} [Scalar α] (slack : Point α) : List (Point α) → Option PixelBox
  | [] => none
  | p :: ps =>
    let low : Point α := ⟨minimum p.x (ps.map (·.x)), minimum p.y (ps.map (·.y))⟩
    let high : Point α := ⟨maximum p.x (ps.map (·.x)), maximum p.y (ps.map (·.y))⟩
    some ⟨.nearest (low - slack), .nearest (high + slack)⟩

namespace Curve

variable {α : Type} [Scalar α]

/-- Whether no sum of these coordinates can be infinite or no number. -/
def isTame (points : List (Point α)) : Bool :=
  points.all fun p => Scalar.abs p.x < 1e300 && Scalar.abs p.y < 1e300

/-- Many times what a sample can be off by rounding. -/
def slack (points : List (Point α)) : Point α :=
  let greatest (xs : List α) : α := (xs.map Scalar.abs).foldl Scalar.larger 0.0
  ⟨1e-12 * greatest (points.map (·.x)), 1e-12 * greatest (points.map (·.y))⟩

end Curve

namespace Brush

/-- Whether stamps anywhere in a box are too far from a surface of this size to paint on it. -/
def missesBox (b : Brush) (width height : Nat) (box : PixelBox) : Bool :=
  let reach : Int := b.reach
  box.high.x.toInt < -reach || box.high.y.toInt < -reach
    || width + reach < box.low.x.toInt || height + reach < box.low.y.toInt

/-- Whether stamps anywhere in a box paint nothing and mark the same cell. -/
def settles (b : Brush) (canvas : Canvas) (box : PixelBox) : Bool :=
  let nearest (p : GridPoint) : Cell := canvas.border.nearest p.x.toInt p.y.toInt
  (b.color?.isNone || b.missesBox canvas.frame.width canvas.frame.height box) && nearest box.low == nearest box.high

/-- The longest stretch that is sampled without a look at its box. -/
def shortStretch : Nat := 4096

/-- Draws `n` samples in `count` steps, from number `first` on; a stretch is halved at most `depth` times. -/
@[specialize]
def drawStretch {α : Type} [Scalar α] (b : Brush) (points : List (Point α)) (terms : List (Curve.Term α))
    (count : Nat) : (depth n first : Nat) → Canvas → Canvas
  | 0, n, first, canvas => b.stampSamples terms count n first canvas
  | depth + 1, n, first, canvas =>
    if n ≤ shortStretch then b.stampSamples terms count n first canvas
    else
      let stretch := Curve.stretch points (Curve.position count first) (Curve.position count (first + n - 1))
      match (PixelBox.around? (Curve.slack points) stretch).filter (b.settles canvas) with
      | some box => canvas.markClamped box.low
      | none =>
        let half := n / 2
        drawStretch b points terms count depth (n - half) (first + half)
          (drawStretch b points terms count depth half first canvas)

@[specialize]
def drawPiece {α : Type} [Scalar α] (b : Brush) (canvas : Canvas) (piece : Primitive α) : Canvas :=
  let points := piece.controlPoints
  let n := b.stepCount canvas.frame points + 1
  if Curve.isTame points then
    b.drawStretch points (Curve.terms .forCurves points) (n - 1) n.log2 n 0 canvas
  else b.drawCurve canvas points

@[specialize]
def draw {α : Type} [Scalar α] (b : Brush) (canvas : Canvas) (pieces : List (Primitive α)) : Canvas :=
  pieces.foldl b.drawPiece canvas

end Brush

end VectorRaster
