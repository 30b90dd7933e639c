/-
  VectorRaster.Render.Outline — drawing one path: first its stroke, then its inside.
-/

import VectorRaster.Document.Style
import VectorRaster.Path.State
import VectorRaster.Raster.Fill
import VectorRaster.Raster.Trace

namespace VectorRaster

open Numeric

/-- The radius in pixels of the brush for a stroke; 0 for a width that is no positive number. -/
def strokeRadius (width : Float) (t : Transform Float) : Nat :=
  let radius := Scalar.round (width * t.lengthScale / 2.0)
  if radius.isFinite && 0.0 < radius then Scalar.toCount radius else 0

/-- What drawing a path did. -/
structure Drawing where
  frame : Frame
  border : BorderMask
  /-- The number of lines and curves. -/
  pieces : Nat
  /-- The number of enclosed cells that were filled. -/
  filled : Nat

namespace Style

/-- The brush of a style; without a stroke its stamps are single marks. -/
def brush (style : Style) (t : Transform Float) : Brush :=
  match Pixel.ofColor? style.stroke with
  | some color => ⟨some color, strokeRadius style.strokeWidth t⟩
  | none => ⟨none, 0⟩

/-- Strokes the pieces of an outline and fills what they enclose. -/
def paint (style : Style) (frame : Frame) (t : Transform Float) (pieces : List (Primitive Float)) : Drawing :=
  match (style.brush t).draw ⟨frame, .blank frame.width frame.height⟩ pieces with
  | ⟨frame, border⟩ =>
    match Pixel.ofColor? style.fill with
    | some color => ⟨frame.fill border color, border, pieces.length, border.enclosedCells.length⟩
    | none => ⟨frame, border, pieces.length, 0⟩

end Style

/-- Draws a path; nothing is drawn if one of its commands cannot be run. -/
def Frame.drawPath (frame : Frame) (commands : List Path.Command) (t : Transform Float) (style : Style) :
    Except PathError Drawing := do
  let (_, pieces) ← Path.State.initial.interpret t commands
  return style.paint frame t pieces

/-- Draws path data; nothing is drawn if it cannot be read. -/
def Frame.drawPathData (frame : Frame) (data : String) (t : Transform Float) (style : Style) :
    Except PathError Drawing := do
  frame.drawPath (← Path.parse data) t style

end VectorRaster
