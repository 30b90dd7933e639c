/-
  VectorRaster.Raster.Register — outlines of circles whose every result is looked at.

  An outline is calculated in integers, operation by operation, and what becomes of each result
  is left open (`fit`). It can be kept whatever it is (`Register.unbounded`), or looked at: a
  result that is no word ends the calculation, which then does not return (`Register.checked`).
  Where all results are words, the points are those of `Circle.outline`.
-/

namespace VectorRaster

/-- A word with a sign can hold the number. -/
def IsWord (n : Int) : Prop := -9223372036854775808 ≤ n ∧ n < 9223372036854775808

instance (n : Int) : Decidable (IsWord n) := inferInstanceAs (Decidable (_ ∧ _))

/-- Any result is kept. -/
def Register.unbounded (n : Int) : Id Int := n

/-- A result that is no word ends the calculation. -/
def Register.checked (n : Int) : Option Int := if IsWord n then some n else none

namespace Circle

/-- The numbers of a walk along an octant. -/
structure IntWalk where
  x : Int
  y : Int
  decision : Int
  deltaX : Int
  deltaY : Int

/-- An offset and its reflections, around a center. -/
def around (x y : Int) (o : Int × Int) : List (Int × Int) :=
  [(x + o.1, y + o.2), (x - o.1, y + o.2), (x + o.1, y - o.2), (x - o.1, y - o.2),
   (x + o.2, y + o.1), (x - o.2, y + o.1), (x + o.2, y - o.1), (x - o.2, y - o.1)]

section

variable {m : Type → Type} [Monad m] (fit : Int → m Int)

def IntWalk.start (radius : Int) : m IntWalk := do
  let decision ← fit (1 - radius)
  let deltaY ← fit (-2 * radius)
  return ⟨0, radius, decision, 1, deltaY⟩

/-- One row lower, if the decision asks for it. -/
def IntWalk.descend (w : IntWalk) : m IntWalk :=
  if 0 ≤ w.decision then do
    let y ← fit (w.y - 1)
    let deltaY ← fit (w.deltaY + 2)
    let decision ← fit (w.decision + deltaY)
    return ⟨w.x, y, decision, w.deltaX, deltaY⟩
  else return w

/-- One column on. -/
def IntWalk.advance (w : IntWalk) : m IntWalk := do
  let x ← fit (w.x + 1)
  let deltaX ← fit (w.deltaX + 2)
  let decision ← fit (w.decision + deltaX)
  return ⟨x, w.y, decision, deltaX, w.deltaY⟩

def IntWalk.step (w : IntWalk) : m IntWalk := do
  let lower ← w.descend fit
  lower.advance fit

/-- The offsets of the octant after the first, in at most `steps` steps. -/
def IntWalk.offsets (w : IntWalk) : Nat → m (List (Int × Int))
  | 0 => return []
  | steps + 1 =>
    if w.x < w.y then do
      let next ← w.step fit
      let rest ← next.offsets steps
      return (next.x, next.y) :: rest
    else return []

def fitPoint (q : Int × Int) : m (Int × Int) := do
  let x ← fit q.1
  let y ← fit q.2
  return (x, y)

/-- The outline of a circle. The walk takes at most `radius` steps. -/
def outlineIn (x y radius : Int) : m (List (Int × Int)) := do
  let axes ← [(x, y + radius), (x, y - radius), (x + radius, y), (x - radius, y)].mapM (fitPoint fit)
  let walk ← IntWalk.start fit radius
  let offsets ← walk.offsets fit radius.toNat
  let points ← (offsets.flatMap (around x y)).mapM (fitPoint fit)
  return axes ++ points

end

/-- The outline of a circle in words; none if it does not return. -/
def outline? (x y radius : Int) : Option (List (Int × Int)) := outlineIn Register.checked x y radius

end Circle

end VectorRaster
