/-
  VectorRaster.Path.State — running commands: the current point and the pieces that are drawn.

  An operation moves the state on and draws its pieces. The smooth curves reflect the last
  control point of the curve right before them; any other command in between forgets it.
  A command that has no operation changes nothing, and a list of commands is checked as a
  whole before any of them is run.
-/

import VectorRaster.Geometry.Arc
import VectorRaster.Path.Operation
import VectorRaster.Path.Parse

namespace VectorRaster.Path

/-- Where the path is between two commands, in its own coordinates. -/
structure State where
  current : Point Float
  /-- Where the last move went, and where closing the path goes back to. -/
  start : Point Float
  /-- The second control point of the cubic curve that was just drawn. -/
  lastCubic : Option (Point Float)
  /-- The control point of the quadratic curve that was just drawn. -/
  lastQuadratic : Option (Point Float)
  deriving DecidableEq, Repr

def State.initial : State := ⟨.origin, .origin, none, none⟩

/-- Cubics one after another, the first from `start`. -/
def chain (start : Point Float) : List (CubicSection Float) → List (Primitive Float)
  | [] => []
  | s :: rest => .cubic start s.control₁ s.control₂ s.stop :: chain s.stop rest

/-- The state after an operation, and the pieces it draws. -/
def State.apply (s : State) : Operation → State × List (Primitive Float)
  | .move target => (⟨target, target, none, none⟩, [])
  | .close => (⟨s.start, s.start, none, none⟩, [.line s.current s.start])
  | .line stop => (⟨stop, s.start, none, none⟩, [.line s.current stop])
  | .cubic control₁ control₂ stop =>
    (⟨stop, s.start, some control₂, none⟩, [.cubic s.current control₁ control₂ stop])
  | .smoothCubic control₂ stop =>
    let control₁ := match s.lastCubic with
      | some last => s.current.reflect last
      | none => control₂
    (⟨stop, s.start, some control₂, none⟩, [.cubic s.current control₁ control₂ stop])
  | .quadratic control stop =>
    (⟨stop, s.start, none, some control⟩, [.quadratic s.current control stop])
  | .smoothQuadratic stop =>
    let control := match s.lastQuadratic with
      | some last => s.current.reflect last
      | none => stop
    (⟨stop, s.start, none, some control⟩, [.quadratic s.current control stop])
  | .arc radiusX radiusY rotation large sweep stop =>
    let pieces :=
      if radiusX == 0.0 || radiusY == 0.0 then [.line s.current stop]
      else chain s.current (EllipticalArc.sections ⟨s.current, stop, radiusX, radiusY, rotation, large, sweep⟩)
    (⟨stop, s.start, none, none⟩, pieces)

/-- What a run of commands leaves: the state and the pieces on the surface. -/
abbrev Outcome := State × List (Primitive Float)

namespace State

/-- One command, with its pieces mapped onto the surface. -/
def step (t : Transform Float) (s : State) (c : Command) : Except PathError Outcome := do
  let (next, pieces) := s.apply (← c.operation s.current)
  return (next, pieces.map (·.transform t))

/-- Commands in order, up to the first that cannot be run. -/
def steps (t : Transform Float) (s : State) : List Command → Except PathError Outcome
  | [] => .ok (s, [])
  | c :: cs => do
    let (middle, pieces) ← s.step t c
    let (last, more) ← middle.steps t cs
    return (last, pieces ++ more)

/-- Commands in order, if all of them can be run. -/
def interpret (t : Transform Float) (s : State) (commands : List Command) : Except PathError Outcome := do
  commands.forM Command.check
  s.steps t commands

end State

/-- The number of commands in path data, and the outline they draw. -/
def outline (text : String) (t : Transform Float) : Except PathError (Nat × List (Primitive Float)) := do
  let commands ← parse text
  let (_, pieces) ← State.initial.interpret t commands
  return (commands.length, pieces)

end VectorRaster.Path
