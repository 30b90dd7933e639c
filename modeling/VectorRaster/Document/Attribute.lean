/-
  VectorRaster.Document.Attribute — the values of attributes: numbers, lengths, colours.

  A number may carry the unit `px`. A length may instead be a percentage of a reference
  length. Values are finite; blanks around them do not count.
-/

import VectorRaster.Color.Names
import VectorRaster.Numeric.Numeral

namespace VectorRaster

inductive AttributeError where
  /-- Neither the element nor any element around it sets the attribute. -/
  | missing (name : String)
  | badNumber (name value : String)
  | badViewBox (text : String)
  | unknownColor (text : String)
  deriving DecidableEq, Repr

def AttributeError.message : AttributeError → String
  | missing name => s!"no attribute '{name}' on the element or its parents"
  | badNumber name value => s!"attribute '{name}' has the non-numeric value '{value}'"
  | badViewBox text => s!"'{text}' is not a valid viewBox"
  | unknownColor text => s!"unknown colour '{text}'"

namespace Attribute

open Text Numeric

/-- A number with or without its unit. -/
def number (name value : String) : Except AttributeError Float :=
  let text := trim value.toList
  match finiteFloat? (trim ((before? ['p', 'x'] text).getD text)) with
  | some x => .ok x
  | none => .error (.badNumber name value)

/-- A number, or a percentage of `reference`. -/
def length (name value : String) (reference : Float) : Except AttributeError Float :=
  let text := trim value.toList
  match before? ['%'] text with
  | some percentage => do return (← number name (String.ofList percentage)) * reference / 100.0
  | none => number name (String.ofList text)

/-- A colour. -/
def color (value : String) : Except AttributeError Color :=
  match Color.parse? value with
  | some c => .ok c
  | none => .error (.unknownColor (String.ofList (trim value.toList)))

end Attribute

end VectorRaster
