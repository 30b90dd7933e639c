/-
  VectorRaster.Raster.Stroke — drawing curves with a round brush.

  A stamp draws the circles of every radius below the brush's around a point. A curve is
  drawn by stamping it at its samples. What a stroke paints is marked in the border mask,
  and so is the center of each stamp, moved onto the surface if it is outside: a brush
  without a colour paints nothing but leaves an outline that can be filled.
-/

import VectorRaster.Geometry.Curve
import VectorRaster.Raster.BorderMask
import VectorRaster.Raster.Circle
import VectorRaster.Raster.Frame

namespace VectorRaster

open Numeric

/-- The pixel nearest to a point. -/
@[inline]
def GridPoint.nearest {α : Type} [Scalar α] (p : Point α) : GridPoint :=
  ⟨Scalar.toInt64 (Scalar.round p.x), Scalar.toInt64 (Scalar.round p.y)⟩

/-- The position inside a surface of this size, if it is one. -/
@[inline]
def GridPoint.cell? (p : GridPoint) (width height : Nat) : Option Cell :=
  if p.x < 0 || p.y < 0 then none
  else
    let c : Cell := ⟨p.x.toUInt64.toNat, p.y.toUInt64.toNat⟩
    if c.x < width && c.y < height then some c else none

/-- What a stroke is drawn on: the pixels, and the outline drawn so far. -/
structure Canvas where
  frame : Frame
  border : BorderMask

namespace Canvas

/-- Paints a cell and marks it. -/
@[inline]
def paint (color : Pixel) (canvas : Canvas) (c : Cell) : Canvas :=
  match canvas with
  | ⟨frame, border⟩ => ⟨frame.blend c.x c.y color, border.markCell c⟩

/-- Paints a point and marks it, if it is on the surface. -/
def paintAt (color : Pixel) (canvas : Canvas) (x y : Int64) : Canvas :=
  match (⟨x, y⟩ : GridPoint).cell? canvas.frame.width canvas.frame.height with
  | some c => canvas.paint color c
  | none => canvas

def markClamped (canvas : Canvas) (p : GridPoint) : Canvas :=
  match canvas with
  | ⟨frame, border⟩ => ⟨frame, border.markClamped p.x.toInt p.y.toInt⟩

end Canvas

structure Brush where
  color? : Option Pixel
  radius : Nat

namespace Brush

/-- How far from its center a stamp can paint. -/
def reach (b : Brush) : Nat := min b.radius Word.lastSigned

/-- Whether a stamp at `p` is too far from a surface of this size to paint on it. -/
def misses (b : Brush) (width height : Nat) (p : GridPoint) : Bool :=
  let reach : Int := b.reach
  p.x.toInt < -reach || p.y.toInt < -reach || width + reach < p.x.toInt || height + reach < p.y.toInt

/-- Paints the circle of radius `r` around `p`. -/
def ring (color : Pixel) (p : GridPoint) (canvas : Canvas) (r : Nat) : Canvas :=
  Circle.foldOutline (Canvas.paintAt color) p.x p.y (Int64.ofNat r) canvas

def stamp (b : Brush) (canvas : Canvas) (p : GridPoint) : Canvas :=
  if b.misses canvas.frame.width canvas.frame.height p then canvas.markClamped p
  else
    match b.color? with
    | some color => ((List.range b.reach).foldl (ring color p) canvas).markClamped p
    | none => canvas.markClamped p

/-- How many steps the brush takes along a curve. -/
def stepCount {α : Type} [Scalar α] (b : Brush) (frame : Frame) (points : List (Point α)) : Nat :=
  min (Curve.sampleCount points) (Curve.sampleLimit frame.width frame.height b.radius)

/-- The stamps of a curve, in order. -/
def stamps {α : Type} [Scalar α] (b : Brush) (frame : Frame) (points : List (Point α)) : List GridPoint :=
  let count := b.stepCount frame points
  (List.range (count + 1)).map fun i => .nearest (Curve.evaluate .forCurves points (Curve.position count i))

/-- Stamps `n` samples in `count` steps, from number `first` on. -/
@[specialize]
def stampSamples {α : Type} [Scalar α] (b : Brush) (terms : List (Curve.Term α)) (count : Nat) :
    (n first : Nat) → Canvas → Canvas
  | 0, _, canvas => canvas
  | n + 1, first, canvas =>
    stampSamples b terms count n (first + 1)
      (b.stamp canvas (.nearest (Curve.sumAt terms (Curve.position count first))))

/-- Draws a curve, sample by sample; the stamps are not kept. -/
@[specialize]
def drawCurve {α : Type} [Scalar α] (b : Brush) (canvas : Canvas) (points : List (Point α)) : Canvas :=
  let count := b.stepCount canvas.frame points
  b.stampSamples (Curve.terms .forCurves points) count (count + 1) 0 canvas

theorem stampSamples_eq_foldl {α : Type} [Scalar α] (b : Brush) (terms : List (Curve.Term α)) (count n first : Nat)
    (canvas : Canvas) :
    b.stampSamples terms count n first canvas
      = ((List.range' first n).map fun i => .nearest (Curve.sumAt terms (Curve.position count i))).foldl
          b.stamp canvas := by
  induction n generalizing first canvas with
  | zero => rfl
  | succ n ih => simp only [stampSamples, ih, List.range'_succ, List.map_cons, List.foldl_cons]

/-- A curve is drawn by its stamps. -/
theorem drawCurve_eq_foldl {α : Type} [Scalar α] (b : Brush) (canvas : Canvas) (points : List (Point α)) :
    b.drawCurve canvas points = (b.stamps canvas.frame points).foldl b.stamp canvas := by
  simp only [drawCurve, stampSamples_eq_foldl, stamps, Curve.evaluate, List.range_eq_range']

end Brush

end VectorRaster
