/-
  VectorRaster.Document.Style — what an element is painted with.

  The value `currentColor` stands for the nearest `color` that is not `currentColor`
  itself. A colour that is not set or cannot be read is the default colour; a stroke width
  that cannot be read is an error.
-/

import VectorRaster.Document.Viewport

namespace VectorRaster

structure Style where
  fill : Color
  stroke : Color
  strokeWidth : Float

/-- What applies where an element says nothing. -/
structure StyleDefaults where
  color : Color
  strokeWidth : Float

def StyleDefaults.standard : StyleDefaults := ⟨.black, 1.0⟩

namespace Style

def isCurrentColor (value : String) : Bool :=
  Text.sameIgnoringCase (String.ofList (Text.trim value.toList)) "currentColor"

/-- The colour value that `currentColor` stands for at an element. -/
def currentColor? (d : Document) (id : ElementId) : Option String :=
  ((d.ancestors id).filterMap (d.attribute? · "color")).find? (!isCurrentColor ·)

def resolveColor (d : Document) (id : ElementId) (property : String) (default : Color) : Color :=
  match d.inherited? id property with
  | none => default
  | some value =>
    match if isCurrentColor value then currentColor? d id else some value with
    | none => default
    | some value => (Color.parse? value).getD default

/-- The style of an element; a stroke width in percent is of `referenceLength`. -/
def ofElement (d : Document) (id : ElementId) (referenceLength : Float) (defaults : StyleDefaults) :
    Except AttributeError Style := do
  let strokeWidth ← match d.inherited? id "stroke-width" with
    | some width => Attribute.length "stroke-width" width referenceLength
    | none => .ok defaults.strokeWidth
  return ⟨resolveColor d id "fill" defaults.color, resolveColor d id "stroke" defaults.color, strokeWidth⟩

end Style

end VectorRaster
