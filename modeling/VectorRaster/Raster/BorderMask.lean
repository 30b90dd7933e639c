/-
  VectorRaster.Raster.BorderMask — which pixels the outline of a shape covers.

  Marked cells are the walls that a fill stops at.
-/

namespace VectorRaster

/-- A position inside a surface. -/
structure Cell where
  x : Nat
  y : Nat
  deriving DecidableEq, Repr

/-- All positions of a surface, row by row. -/
def Cell.all (width height : Nat) : List Cell :=
  (List.range height).flatMap fun y => (List.range width).map fun x => ⟨x, y⟩

structure BorderMask where
  width : Nat
  height : Nat
  cells : Array Bool
  deriving DecidableEq, Repr

namespace BorderMask

/-- A mask with nothing marked. -/
def blank (width height : Nat) : BorderMask := ⟨width, height, Array.replicate (width * height) false⟩

@[inline]
def contains (m : BorderMask) (c : Cell) : Bool := c.x < m.width && c.y < m.height

@[inline]
def index (m : BorderMask) (c : Cell) : Nat := c.y * m.width + c.x

@[inline]
def markCell (m : BorderMask) (c : Cell) : BorderMask :=
  if m.contains c then { m with cells := m.cells.setIfInBounds (m.index c) true } else m

/-- Marks a point; one outside the mask is left out. -/
def mark (m : BorderMask) (x y : Int) : BorderMask :=
  if 0 ≤ x && 0 ≤ y then m.markCell ⟨x.toNat, y.toNat⟩ else m

/-- The cell nearest to a point, in a mask that has cells. -/
@[inline]
def nearest (m : BorderMask) (x y : Int) : Cell := ⟨min x.toNat (m.width - 1), min y.toNat (m.height - 1)⟩

/-- Marks a point, or the cell nearest to it if it is outside the mask. -/
def markClamped (m : BorderMask) (x y : Int) : BorderMask :=
  if m.width = 0 || m.height = 0 then m else m.markCell (m.nearest x y)

def isBorder (m : BorderMask) (c : Cell) : Bool := m.contains c && m.cells.getD (m.index c) false

/-- The marked cells, row by row. -/
def borderCells (m : BorderMask) : List Cell :=
  (m.cells.toList.zipIdx.filter (·.1)).map fun (_, i) => ⟨i % m.width, i / m.width⟩

def count (m : BorderMask) : Nat := m.cells.countP id

end BorderMask

end VectorRaster
