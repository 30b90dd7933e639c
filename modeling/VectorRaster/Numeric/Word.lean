/-
  VectorRaster.Numeric.Word — counts as 64-bit words: what wraps, what stops at the end, and what
  does not return.
-/

namespace VectorRaster.Numeric.Word

/-- How many words there are. -/
def size : Nat := Nat.pow 2 64

/-- The greatest word. -/
def last : Nat := size - 1

/-- The greatest word with a sign. -/
def lastSigned : Nat := Nat.pow 2 63 - 1

/-- The product of two words, which wraps. -/
def product (m n : Nat) : Nat := m * n % size

/-- The product of two words; none if it is no word, which does not return. -/
def product? (m n : Nat) : Option Nat :=
  let p := m % size * (n % size)
  if p < size then some p else none

/-- A count as a word; a greater one stops at the last. -/
def capped (n : Nat) : Nat := min n last

end VectorRaster.Numeric.Word
