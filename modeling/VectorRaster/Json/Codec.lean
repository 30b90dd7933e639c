/-
  VectorRaster.Json.Codec — commands, outlines and colours as JSON.

  A record is an object by field names; it may also be read from an array of its fields
  in order. Of an object's fields those with other names are passed over, and each of the
  record's own must be there once. A case without data is its name, or an object from
  its name to null; one with data is an object from its name to an array.
-/

import VectorRaster.Color.Basic
import VectorRaster.Json.Reader
import VectorRaster.Path.State

namespace VectorRaster

namespace Json

/-! ## Shapes -/

def float? : Json → Option Float
  | number n => n.double?
  | _ => none

def float32? : Json → Option Float32
  | number n => n.single?
  | _ => none

/-- An array with all its items of one kind. -/
def list? {α : Type} (read : Json → Option α) : Json → Option (List α)
  | array items => items.mapM read
  | _ => none

/-- The one field with this name. -/
def field? (fields : List (Option String × Json)) (name : String) : Option Json :=
  match fields.filter (·.1 == some name) with
  | [(_, j)] => some j
  | _ => none

/-- The fields of a record with these field names, in order. -/
def record? (names : List String) : Json → Option (List Json)
  | array items => if items.length = names.length then some items else none
  | object fields => if fields.all (·.1.isSome) then names.mapM (field? fields) else none
  | _ => none

/-- The name and the data of a case; a case without data has null. -/
def case? : Json → Option (String × Json)
  | string name => name.map (·, null)
  | object [(name, data)] => name.map (·, data)
  | _ => none

/-- The case without data among `cases`. -/
def constant? {α : Type} (cases : List (String × α)) (j : Json) : Option α :=
  match case? j with
  | some (name, null) => (cases.find? (·.1 == name)).map (·.2)
  | _ => none

end Json

namespace Point

def toJson (p : Point Float) : Json := .array [.ofFloat p.x, .ofFloat p.y]

def ofJson? : Json → Option (Point Float)
  | .array [x, y] => do return ⟨← x.float?, ← y.float?⟩
  | _ => none

end Point

namespace Path

/-! ## Commands -/

def Kind.name : Kind → String
  | moveTo => "MoveTo"
  | lineTo => "LineTo"
  | horizontalLineTo => "HorizontalLineTo"
  | verticalLineTo => "VerticalLineTo"
  | cubicCurveTo => "CubicCurveTo"
  | smoothCubicCurveTo => "SmoothCubicCurveTo"
  | quadraticCurveTo => "QuadraticCurveTo"
  | smoothQuadraticCurveTo => "SmoothQuadraticCurveTo"
  | ellipticalArcTo => "EllipticalArcTo"
  | closePath => "ClosePath"

def Kind.all : List Kind :=
  [moveTo, lineTo, horizontalLineTo, verticalLineTo, cubicCurveTo, smoothCubicCurveTo, quadraticCurveTo,
   smoothQuadraticCurveTo, ellipticalArcTo, closePath]

def Kind.toJson (k : Kind) : Json := .ofText k.name

def Kind.ofJson? (j : Json) : Option Kind := j.constant? (Kind.all.map fun k => (k.name, k))

def Mode.name : Mode → String
  | absolute => "Absolute"
  | relative => "Relative"

def Mode.toJson (m : Mode) : Json := .ofText m.name

def Mode.ofJson? (j : Json) : Option Mode := j.constant? ([absolute, relative].map fun m => (m.name, m))

namespace Command

def toJson (c : Command) : Json :=
  .ofFields [("kind", c.kind.toJson), ("mode", c.mode.toJson), ("parameters", .array (c.parameters.map .ofFloat))]

def ofJson? (j : Json) : Option Command := do
  match ← j.record? ["kind", "mode", "parameters"] with
  | [kind, mode, parameters] => return ⟨⟨← Kind.ofJson? kind, ← Mode.ofJson? mode⟩, ← parameters.list? Json.float?⟩
  | _ => none

end Command

end Path

/-! ## Outlines -/

namespace Primitive

def toJson (p : Primitive Float) : Json :=
  let name := match p with
    | line .. => "Line"
    | quadratic .. => "Quadratic"
    | cubic .. => "Cubic"
  .ofFields [(name, .array (p.controlPoints.map Point.toJson))]

def ofJson? (j : Json) : Option (Primitive Float) := do
  let (name, data) ← j.case?
  match name, ← data.list? Point.ofJson? with
  | "Line", [p, q] => return line p q
  | "Quadratic", [p, c, q] => return quadratic p c q
  | "Cubic", [p, c, d, q] => return cubic p c d q
  | _, _ => none

end Primitive

namespace CubicSection

def toJson (s : CubicSection Float) : Json :=
  .ofFields [("control1", s.control₁.toJson), ("control2", s.control₂.toJson), ("end", s.stop.toJson)]

def ofJson? (j : Json) : Option (CubicSection Float) := do
  match ← j.record? ["control1", "control2", "end"] with
  | [control₁, control₂, stop] => return ⟨← Point.ofJson? control₁, ← Point.ofJson? control₂, ← Point.ofJson? stop⟩
  | _ => none

end CubicSection

namespace Color

def toJson : Color → Json
  | rgba r g b a => .ofFields [("Rgba", .array ([r, g, b, a].map .ofFloat32))]
  | none => .ofText "None"

def ofJson? (j : Json) : Option Color := do
  match ← j.case? with
  | ("None", .null) => return Color.none
  | ("Rgba", data) =>
    match ← data.list? Json.float32? with
    | [r, g, b, a] => return rgba r g b a
    | _ => Option.none
  | _ => Option.none

end Color

end VectorRaster
