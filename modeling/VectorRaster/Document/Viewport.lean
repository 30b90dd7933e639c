/-
  VectorRaster.Document.Viewport — the part of the drawing that is fitted to the surface.

  A view box (four numbers) gives it, or else a width and a height from the origin. Both
  may stand on an element further out.
-/

import VectorRaster.Document.Attribute
import VectorRaster.Document.Tree
import VectorRaster.Geometry.Transform

namespace VectorRaster

structure Viewport where
  corner : Point Float
  width : Float
  height : Float
  deriving DecidableEq, Repr

/-- A number that the element itself sets. -/
def Document.number (d : Document) (id : ElementId) (name : String) : Except AttributeError Float :=
  match d.attribute? id name with
  | some value => Attribute.number name value
  | none => .error (.missing name)

namespace Viewport

/-- A view box: corner, width and height, with blanks or commas between them. -/
def ofViewBox (text : String) : Except AttributeError Viewport :=
  match (Text.parts text.toList).mapM Numeric.float? with
  | some [x, y, width, height] =>
    if 0.0 < width && 0.0 < height then .ok ⟨⟨x, y⟩, width, height⟩ else .error (.badViewBox text)
  | _ => .error (.badViewBox text)

def inheritedValue (d : Document) (id : ElementId) (name : String) : Except AttributeError String :=
  match d.inherited? id name with
  | some value => .ok value
  | none => .error (.missing name)

def ofElement (d : Document) (id : ElementId) : Except AttributeError Viewport :=
  match d.inherited? id "viewBox" with
  | some text => ofViewBox text
  | none => do
    let widthText ← inheritedValue d id "width"
    let heightText ← inheritedValue d id "height"
    let width ← Attribute.number "width" widthText
    let height ← Attribute.number "height" heightText
    if width ≤ 0.0 then .error (.badNumber "width" widthText)
    else if height ≤ 0.0 then .error (.badNumber "height" heightText)
    else .ok ⟨.origin, width, height⟩

/-- The diagonal, which lengths without a direction are percentages of. -/
def referenceLength (v : Viewport) : Float := (v.width * v.width + v.height * v.height).sqrt

/-- The transform that fits the viewport to a surface. -/
def toSurface (v : Viewport) (surfaceWidth surfaceHeight : Nat) : Transform Float :=
  .ofViewBox v.corner v.width v.height surfaceWidth surfaceHeight

end Viewport

end VectorRaster
