/-
  VectorRaster.Path.Token — path data as letters and numbers.

  Blanks and commas separate tokens. A letter (ASCII) is a token on its own, except an `e`
  right after a digit or a point, which is the exponent of the number it stands in. A sign
  starts no new token, so `1-2` is one number, which no reader of numbers will take.
-/

import VectorRaster.Text.Blank

namespace VectorRaster.Path

open Text

inductive Token where
  | command (letter : Char)
  /-- A number as it is written. -/
  | number (text : String)
  deriving DecidableEq, Repr

namespace Token

/-- Whether `c` goes on the number whose last character so far is `last`. -/
def continues (last c : Char) : Bool :=
  !isSeparator c && (!c.isAlpha || ((c == 'e' || c == 'E') && (last.isDigit || last == '.')))

/-- What belongs to a number after its character `last`. -/
def numberTail (last : Char) : List Char → List Char
  | [] => []
  | c :: cs => if continues last c then c :: numberTail c cs else []

/-- What is left after a number, from its character `last` on. -/
def afterNumber (last : Char) : List Char → List Char
  | [] => []
  | c :: cs => if continues last c then afterNumber c cs else c :: cs

theorem numberTail_append_afterNumber (last : Char) (cs : List Char) :
    numberTail last cs ++ afterNumber last cs = cs := by
  induction cs generalizing last with
  | nil => rfl
  | cons c cs ih =>
    simp only [numberTail, afterNumber]
    split
    · simp [ih]
    · rfl

theorem length_afterNumber_le (last : Char) (cs : List Char) : (afterNumber last cs).length ≤ cs.length := by
  have h := congrArg List.length (numberTail_append_afterNumber last cs)
  simp only [List.length_append] at h
  omega

def ofChars : List Char → List Token
  | [] => []
  | c :: cs =>
    if isSeparator c then ofChars cs
    else if c.isAlpha then command c :: ofChars cs
    else number (String.ofList (c :: numberTail c cs)) :: ofChars (afterNumber c cs)
termination_by cs => cs.length
decreasing_by
  all_goals
    have := length_afterNumber_le c cs
    simp only [List.length_cons]
    omega

/-- The tokens of path data, in order. -/
def ofString (text : String) : List Token := ofChars text.toList

end Token

end VectorRaster.Path
