/-
  VectorRaster.Geometry.Binomial — tables of binomial coefficients in 64-bit words.

  Row n of the table holds C(n, 0) to C(n, n), the weights of a curve of degree n. A
  coefficient past the last row is worked out when it is asked for, as a product of
  quotients. Where a sum or a product is no word, a calculation does not return.
-/

namespace VectorRaster

structure BinomialTable where
  rows : List (List UInt64)
  deriving DecidableEq, Repr

namespace BinomialTable

/-- The next row of Pascal's triangle: ones at both ends, and sums of two neighbours between. -/
def nextRow (row : List UInt64) : List UInt64 := 1 :: (row.zipWith (· + ·) row.tail ++ [1])

/-- A row and the `count` rows after it. -/
def rowsFrom (row : List UInt64) : Nat → List (List UInt64)
  | 0 => [row]
  | count + 1 => row :: rowsFrom (nextRow row) count

/-- The rows up to and including `maxDegree`, with sums that wrap. -/
def upTo (maxDegree : Nat) : BinomialTable := ⟨rowsFrom [1] maxDegree⟩

/-- The next row, unless one of its sums is no word. -/
def nextRow? (row : List UInt64) : Option (List UInt64) :=
  if (row.zip row.tail).all fun pair => pair.1.toNat + pair.2.toNat < UInt64.size then some (nextRow row) else none

def rowsFrom? (row : List UInt64) : Nat → Option (List (List UInt64))
  | 0 => some [row]
  | count + 1 => do
    let next ← nextRow? row
    let rest ← rowsFrom? next count
    return row :: rest

/-- The rows up to and including `maxDegree`, unless a sum on the way is no word. -/
def upTo? (maxDegree : Nat) : Option BinomialTable := (rowsFrom? [1] maxDegree).map BinomialTable.mk

/-- The table for lines, quadratic and cubic curves. -/
def forCurves : BinomialTable := upTo 3

def maxDegree (table : BinomialTable) : Nat := table.rows.length - 1

def row? (table : BinomialTable) (n : Nat) : Option (List UInt64) := table.rows[n]?

/-- C(n, k) step by step: each is the one before, times `n - k + i`, divided by `i`. None if a product is no
word. -/
def product? (n k : Nat) : Option UInt64 :=
  (List.range k).foldlM
    (fun c i =>
      if c.toNat * (n - k + (i + 1)) < UInt64.size then
        some (c * UInt64.ofNat (n - k + (i + 1)) / UInt64.ofNat (i + 1))
      else none)
    1

/-- C(n, k), which is 0 for a negative `k` and past the end of the row. None if working it out does not return. -/
def coefficient? (table : BinomialTable) (n : Nat) (k : Int) : Option UInt64 :=
  if k < 0 || n < k.toNat then some 0
  else
    match table.row? n with
    | some row => some (row.getD k.toNat 0)
    | none => product? n (min k.toNat (n - k.toNat))

/-- C(n, k), and 0 where working it out does not return. -/
def coefficient (table : BinomialTable) (n : Nat) (k : Int) : UInt64 := (table.coefficient? n k).getD 0

end BinomialTable

end VectorRaster
