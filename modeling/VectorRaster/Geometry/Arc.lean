/-
  VectorRaster.Geometry.Arc — elliptical arcs as cubic curves.

  An arc is given by its end points, the radii and rotation of its ellipse, and two flags
  that choose one of the four arcs that fit. The center and the angles are found on the
  unit circle; the sweep is cut into equal sections of a quarter turn at most, and each is
  replaced by a cubic that touches the arc at both ends.
-/

import VectorRaster.Geometry.Primitive

namespace VectorRaster

open Numeric

/-- A cubic section of an arc; it starts where the section before it stops. -/
structure CubicSection (α : Type) where
  control₁ : Point α
  control₂ : Point α
  stop : Point α
  deriving DecidableEq, Repr

structure EllipticalArc (α : Type) where
  start : Point α
  stop : Point α
  radiusX : α
  radiusY : α
  /-- The turn of the ellipse's first axis, in degrees. -/
  rotation : α
  /-- Chooses the arc of more than half a turn. -/
  large : Bool
  /-- Chooses the arc on which the angle increases. -/
  sweep : Bool

namespace EllipticalArc

section Segments

variable {α : Type} [Scalar α]

/-- A number of quarter turns as near as this to a whole one counts as whole. -/
def ratioTolerance : α := 1e-7

/-- How many sections of a quarter turn at most a sweep needs; one at least. -/
def segmentCount (sweepAngle : α) : Nat :=
  let ratio := Scalar.abs sweepAngle / quarterTurn
  let nearest := Scalar.round ratio
  let ratio := if Scalar.abs (ratio - nearest) < ratioTolerance then nearest else ratio
  max (Scalar.toCount (Scalar.ceil ratio)) 1

end Segments

variable {α : Type} [Analytic α]

/-- The angle from `u` to `v`, between minus and plus half a turn. -/
def angleBetween (u v : Point α) : α :=
  let sign : α := if u.x * v.y - u.y * v.x < 0.0 then -1.0 else 1.0
  let dot := Scalar.smaller (Scalar.larger (u.x * v.x + u.y * v.y) (-1.0)) 1.0
  sign * Analytic.arccos dot

def degreesToRadians (degrees : α) : α := degrees * (halfTurn / 180.0)

/-- The ellipse of an arc, with the arc as a start angle and a signed sweep. -/
structure Centered (α : Type) where
  center : Point α
  radiusX : α
  radiusY : α
  sinRotation : α
  cosRotation : α
  startAngle : α
  sweepAngle : α

/-- Half the chord, from its middle to the start, in the frame of the ellipse's axes. -/
def halfChord (arc : EllipticalArc α) (sinRotation cosRotation : α) : Point α :=
  ⟨cosRotation * (arc.start.x - arc.stop.x) / 2.0 + sinRotation * (arc.start.y - arc.stop.y) / 2.0,
   -sinRotation * (arc.start.x - arc.stop.x) / 2.0 + cosRotation * (arc.start.y - arc.stop.y) / 2.0⟩

/-- The radii as magnitudes, grown together until the ellipse spans the chord. -/
def spanningRadii (arc : EllipticalArc α) (chord : Point α) : α × α :=
  let radiusX := Scalar.abs arc.radiusX
  let radiusY := Scalar.abs arc.radiusY
  let excess := (chord.x * chord.x) / (radiusX * radiusX) + (chord.y * chord.y) / (radiusY * radiusY)
  if 1.0 < excess then (radiusX * Analytic.sqrt excess, radiusY * Analytic.sqrt excess) else (radiusX, radiusY)

/-- The sweep from one end to the other in the direction that the flag asks for. -/
def directedSweep (sweep : Bool) (angle : α) : α :=
  let angle := if !sweep && (0.0 : α) < angle then angle - 2.0 * halfTurn else angle
  if sweep && angle < 0.0 then angle + 2.0 * halfTurn else angle

/-- The ellipse through both ends; the radii must span the chord. -/
def centered (arc : EllipticalArc α) (sinRotation cosRotation : α) (chord : Point α) (radiusX radiusY : α) :
    Centered α :=
  let xx := radiusX * radiusX
  let yy := radiusY * radiusY
  let cx := chord.x * chord.x
  let cy := chord.y * chord.y
  -- rounding can leave this just below zero when the radii have been grown to fit
  let radicand := Scalar.larger (xx * yy - xx * cy - yy * cx) 0.0
  let radicand := radicand / (xx * cy + yy * cx)
  let factor := Analytic.sqrt radicand * (if arc.large = arc.sweep then -1.0 else 1.0)
  let centerX := factor * radiusX / radiusY * chord.y
  let centerY := factor * -radiusY / radiusX * chord.x
  let startVector : Point α := ⟨(chord.x - centerX) / radiusX, (chord.y - centerY) / radiusY⟩
  let stopVector : Point α := ⟨(-chord.x - centerX) / radiusX, (-chord.y - centerY) / radiusY⟩
  { center :=
      ⟨cosRotation * centerX - sinRotation * centerY + (arc.start.x + arc.stop.x) / 2.0,
       sinRotation * centerX + cosRotation * centerY + (arc.start.y + arc.stop.y) / 2.0⟩
    radiusX
    radiusY
    sinRotation
    cosRotation
    startAngle := angleBetween ⟨1.0, 0.0⟩ startVector
    sweepAngle := directedSweep arc.sweep (angleBetween startVector stopVector) }

/-- The tangent length for a quarter circle with the least error of the radius. -/
def quarterTangent : α := 0.5519150244935105707

/-- A section of the unit circle, a quarter turn at most, as a cubic. -/
def unitSection (startAngle sweepAngle : α) : CubicSection α :=
  let tangent :=
    if sweepAngle == quarterTurn then quarterTangent
    else if sweepAngle == -quarterTurn then -quarterTangent
    else 4.0 / 3.0 * Analytic.tan (sweepAngle / 4.0)
  let stopAngle := startAngle + sweepAngle
  let x₁ := Analytic.cos startAngle
  let y₁ := Analytic.sin startAngle
  let x₂ := Analytic.cos stopAngle
  let y₂ := Analytic.sin stopAngle
  ⟨⟨x₁ - y₁ * tangent, y₁ + x₁ * tangent⟩, ⟨x₂ + y₂ * tangent, y₂ - x₂ * tangent⟩, ⟨x₂, y₂⟩⟩

/-- The image of a point of the unit circle on the ellipse. -/
def Centered.place (ellipse : Centered α) (p : Point α) : Point α :=
  let x := p.x * ellipse.radiusX
  let y := p.y * ellipse.radiusY
  ⟨ellipse.cosRotation * x - ellipse.sinRotation * y + ellipse.center.x,
   ellipse.sinRotation * x + ellipse.cosRotation * y + ellipse.center.y⟩

/-- The equal parts that a sweep is cut into: their start angles and their sweeps. -/
def Centered.cuts (ellipse : Centered α) : List (α × α) :=
  let count := segmentCount ellipse.sweepAngle
  let step := ellipse.sweepAngle / ofCount count
  (List.range count).map fun i => (ellipse.startAngle + ofCount i * step, step)

/-- A section of the unit circle on the ellipse. -/
def Centered.placeSection (ellipse : Centered α) (s : CubicSection α) : CubicSection α :=
  ⟨ellipse.place s.control₁, ellipse.place s.control₂, ellipse.place s.stop⟩

/-- The ellipse of an arc; none if a radius is zero or the ends are the same point. -/
def ellipse? (arc : EllipticalArc α) : Option (Centered α) :=
  if arc.radiusX == 0.0 || arc.radiusY == 0.0 then none
  else
    let angle := degreesToRadians arc.rotation
    let sinRotation := Analytic.sin angle
    let cosRotation := Analytic.cos angle
    let chord := arc.halfChord sinRotation cosRotation
    if chord.x == 0.0 && chord.y == 0.0 then none
    else
      let (radiusX, radiusY) := arc.spanningRadii chord
      some (arc.centered sinRotation cosRotation chord radiusX radiusY)

/-- The sections of an arc from its start to its stop. -/
def sections (arc : EllipticalArc α) : List (CubicSection α) :=
  match arc.ellipse? with
  | none => []
  | some ellipse => ellipse.cuts.map fun (startAngle, sweepAngle) =>
    ellipse.placeSection (unitSection startAngle sweepAngle)

end EllipticalArc

end VectorRaster
