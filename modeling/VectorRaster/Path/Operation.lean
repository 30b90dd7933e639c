/-
  VectorRaster.Path.Operation — what a command does where it stands.

  Read at the current point, a command's coordinates become positions and its parameters
  the operands of an operation. A command with a wrong number of parameters has none.
-/

import VectorRaster.Geometry.Primitive
import VectorRaster.Path.Command

namespace VectorRaster.Path

/-- What a command does, with all points as positions. -/
inductive Operation where
  | move (target : Point Float)
  | close
  | line (stop : Point Float)
  | cubic (control₁ control₂ stop : Point Float)
  /-- A cubic whose first control point reflects the last one. -/
  | smoothCubic (control₂ stop : Point Float)
  | quadratic (control stop : Point Float)
  /-- A quadratic whose control point reflects the last one. -/
  | smoothQuadratic (stop : Point Float)
  | arc (radiusX radiusY rotation : Float) (large sweep : Bool) (stop : Point Float)
  deriving DecidableEq, Repr

/-- A coordinate as a position, where `origin` is the one that offsets start from. -/
def Mode.place : Mode → Float → Float → Float
  | absolute, _, x => x
  | relative, origin, x => x + origin

def Mode.placePoint (mode : Mode) (origin : Point Float) (x y : Float) : Point Float :=
  ⟨mode.place origin.x x, mode.place origin.y y⟩

/-- What a command does at the point `current`. -/
def Command.operation (c : Command) (current : Point Float) : Except PathError Operation :=
  let spot := c.mode.placePoint current
  match c.kind, c.parameters with
  | .moveTo, [x, y] => .ok (.move (spot x y))
  | .closePath, [] => .ok .close
  | .lineTo, [x, y] => .ok (.line (spot x y))
  | .horizontalLineTo, [x] => .ok (.line ⟨c.mode.place current.x x, current.y⟩)
  | .verticalLineTo, [y] => .ok (.line ⟨current.x, c.mode.place current.y y⟩)
  | .cubicCurveTo, [x₁, y₁, x₂, y₂, x, y] => .ok (.cubic (spot x₁ y₁) (spot x₂ y₂) (spot x y))
  | .smoothCubicCurveTo, [x₂, y₂, x, y] => .ok (.smoothCubic (spot x₂ y₂) (spot x y))
  | .quadraticCurveTo, [x₁, y₁, x, y] => .ok (.quadratic (spot x₁ y₁) (spot x y))
  | .smoothQuadraticCurveTo, [x, y] => .ok (.smoothQuadratic (spot x y))
  | .ellipticalArcTo, [radiusX, radiusY, rotation, large, sweep, x, y] =>
    .ok (.arc radiusX radiusY rotation (large != 0.0) (sweep != 0.0) (spot x y))
  | _, _ => .error c.countError

end VectorRaster.Path
