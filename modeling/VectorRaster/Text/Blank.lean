/-
  VectorRaster.Text.Blank — white space, and cutting text at it.

  Blank characters are those with Unicode's White_Space property. Functions work on lists
  of characters, so that a cut never falls inside a character.
-/

namespace VectorRaster.Text

/-- The characters with Unicode's White_Space property. -/
def isBlank (c : Char) : Bool :=
  let n := c.toNat
  (9 ≤ n && n ≤ 13) || n == 0x20 || n == 0x85 || n == 0xA0 || n == 0x1680 || (0x2000 ≤ n && n ≤ 0x200A)
    || n == 0x2028 || n == 0x2029 || n == 0x202F || n == 0x205F || n == 0x3000

/-- Blanks and commas stand between the parts of a list. -/
def isSeparator (c : Char) : Bool := c == ',' || isBlank c

/-- What is left without the blanks at both ends. -/
def trim (cs : List Char) : List Char :=
  ((cs.dropWhile isBlank).reverse.dropWhile isBlank).reverse

/-- What stands before `ending`, if the text ends in it. -/
def before? (ending cs : List Char) : Option (List Char) :=
  if ending.isSuffixOf cs then some (cs.take (cs.length - ending.length)) else none

/-- The maximal runs of `cs` without separators, where `run` holds the characters before `cs`. -/
def partsFrom (run : List Char) : List Char → List (List Char)
  | [] => if run.isEmpty then [] else [run]
  | c :: cs =>
    if isSeparator c then
      if run.isEmpty then partsFrom [] cs else run :: partsFrom [] cs
    else partsFrom (run ++ [c]) cs

def parts (cs : List Char) : List (List Char) := partsFrom [] cs

/-- The same letters, apart from the case of ASCII letters. -/
def sameIgnoringCase (a b : String) : Bool :=
  a.toList.map Char.toLower == b.toList.map Char.toLower

end VectorRaster.Text
