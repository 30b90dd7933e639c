/-
  VectorRaster.Path.Command — the commands of path data, before they are run.

  A command has a kind, a mode (coordinates are positions, or offsets from the current
  point) and parameters. Its letter gives kind and mode: upper case is absolute. Commands
  can be built with any number of parameters; `check` finds those that cannot be run.
-/

namespace VectorRaster

inductive PathError where
  /-- A number with no command before it that could take it. -/
  | noActiveCommand
  /-- The first command does not set the current point. -/
  | missingMoveTo (letter : Char)
  | unknownCommand (letter : Char)
  | missingParameters (letter : Char) (expected found : Nat)
  | tooManyParameters (letter : Char) (expected found : Nat)
  | badNumber (text : String)
  deriving DecidableEq, Repr

def PathError.message : PathError → String
  | noActiveCommand => "found a parameter with no command to read it"
  | missingMoveTo letter => s!"path data must start with a move command, not '{letter}'"
  | unknownCommand letter => s!"unknown path command '{letter}'"
  | missingParameters letter expected found =>
    s!"command '{letter}' needs {expected} parameters but only {found} were supplied"
  | tooManyParameters letter expected found =>
    s!"command '{letter}' needs {expected} parameters but {found} were supplied"
  | badNumber text => s!"'{text}' is not a valid number"

namespace Path

inductive Kind where
  | moveTo
  | lineTo
  | horizontalLineTo
  | verticalLineTo
  | cubicCurveTo
  | smoothCubicCurveTo
  | quadraticCurveTo
  | smoothQuadraticCurveTo
  | ellipticalArcTo
  | closePath
  deriving DecidableEq, Repr

inductive Mode where
  | absolute
  | relative
  deriving DecidableEq, Repr

namespace Kind

/-- The upper-case letter of a kind. -/
def letter : Kind → Char
  | moveTo => 'M'
  | lineTo => 'L'
  | horizontalLineTo => 'H'
  | verticalLineTo => 'V'
  | cubicCurveTo => 'C'
  | smoothCubicCurveTo => 'S'
  | quadraticCurveTo => 'Q'
  | smoothQuadraticCurveTo => 'T'
  | ellipticalArcTo => 'A'
  | closePath => 'Z'

/-- How many parameters a command of this kind has. -/
def arity : Kind → Nat
  | moveTo => 2
  | lineTo => 2
  | horizontalLineTo => 1
  | verticalLineTo => 1
  | cubicCurveTo => 6
  | smoothCubicCurveTo => 4
  | quadraticCurveTo => 4
  | smoothQuadraticCurveTo => 2
  | ellipticalArcTo => 7
  | closePath => 0

def ofUpper? : Char → Option Kind
  | 'M' => some moveTo
  | 'L' => some lineTo
  | 'H' => some horizontalLineTo
  | 'V' => some verticalLineTo
  | 'C' => some cubicCurveTo
  | 'S' => some smoothCubicCurveTo
  | 'Q' => some quadraticCurveTo
  | 'T' => some smoothQuadraticCurveTo
  | 'A' => some ellipticalArcTo
  | 'Z' => some closePath
  | _ => none

end Kind

/-- What a command letter says: a kind and a mode. -/
structure Header where
  kind : Kind
  mode : Mode
  deriving DecidableEq, Repr

namespace Header

def letter (h : Header) : Char :=
  match h.mode with
  | .absolute => h.kind.letter
  | .relative => h.kind.letter.toLower

def ofLetter? (letter : Char) : Option Header :=
  (Kind.ofUpper? letter.toUpper).map fun kind => ⟨kind, if letter.isLower then .relative else .absolute⟩

theorem ofLetter?_letter (h : Header) : ofLetter? h.letter = some h := by
  obtain ⟨kind, mode⟩ := h
  cases kind <;> cases mode <;> rfl

end Header

structure Command extends Header where
  parameters : List Float
  deriving DecidableEq, Repr

namespace Command

def moveTo (x y : Float) : Command := ⟨⟨.moveTo, .absolute⟩, [x, y]⟩

def lineTo (x y : Float) : Command := ⟨⟨.lineTo, .absolute⟩, [x, y]⟩

/-- The number that stands for a flag of an arc. -/
def flag (on : Bool) : Float := if on then 1.0 else 0.0

def arcTo (radiusX radiusY rotation : Float) (large sweep : Bool) (x y : Float) : Command :=
  ⟨⟨.ellipticalArcTo, .absolute⟩, [radiusX, radiusY, rotation, flag large, flag sweep, x, y]⟩

def closePath : Command := ⟨⟨.closePath, .absolute⟩, []⟩

/-- What is wrong with a command whose number of parameters is not its kind's. -/
def countError (c : Command) : PathError :=
  if c.parameters.length < c.kind.arity then .missingParameters c.letter c.kind.arity c.parameters.length
  else .tooManyParameters c.letter c.kind.arity c.parameters.length

def check (c : Command) : Except PathError Unit :=
  if c.parameters.length = c.kind.arity then .ok () else .error c.countError

end Command

/-- The outline of an ellipse: two half turns, from the leftmost point and back to it. -/
def ellipse (centerX centerY radiusX radiusY : Float) : List Command :=
  [.moveTo (centerX - radiusX) centerY,
   .arcTo radiusX radiusY 0.0 true true (centerX + radiusX) centerY,
   .arcTo radiusX radiusY 0.0 true true (centerX - radiusX) centerY]

def circle (centerX centerY radius : Float) : List Command := ellipse centerX centerY radius radius

end Path

end VectorRaster
