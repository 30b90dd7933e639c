/-
  VectorRaster.Raster.Fill — the regions that an outline encloses.

  Cells that are not border fall into regions, joined by their four neighbours. A region
  with a cell at the edge of the surface is outside; every other region is enclosed.
  Regions are searched breadth first, from their first cell in row order.
-/

import VectorRaster.Raster.BorderMask
import VectorRaster.Raster.Frame

namespace VectorRaster

namespace BorderMask

/-- The neighbours of a cell to the right, below, to the left and above; none past the edge. -/
def neighbours (m : BorderMask) (c : Cell) : List (Option Cell) :=
  [if c.x + 1 < m.width then some ⟨c.x + 1, c.y⟩ else none,
   if c.y + 1 < m.height then some ⟨c.x, c.y + 1⟩ else none,
   if 0 < c.x then some ⟨c.x - 1, c.y⟩ else none,
   if 0 < c.y then some ⟨c.x, c.y - 1⟩ else none]

end BorderMask

/-- A search of one region. -/
structure RegionSearch where
  visited : Array Bool
  /-- The cells that have been found, in order; the search takes them in the same order. -/
  cells : Array Cell
  touchesEdge : Bool

namespace RegionSearch

def start (m : BorderMask) (visited : Array Bool) (seed : Cell) : RegionSearch :=
  ⟨visited.setIfInBounds (m.index seed) true, #[seed], false⟩

/-- Takes notice of a neighbour: new cells are added. -/
def meet (m : BorderMask) (s : RegionSearch) : Option Cell → RegionSearch
  | none => { s with touchesEdge := true }
  | some c =>
    if s.visited.getD (m.index c) false || m.isBorder c then s
    else { s with visited := s.visited.setIfInBounds (m.index c) true, cells := s.cells.push c }

/-- Takes the cells from number `next` on until there are no more, for at most `steps` cells. -/
def run (m : BorderMask) : (steps next : Nat) → RegionSearch → RegionSearch
  | 0, _, s => s
  | steps + 1, next, s =>
    match s.cells[next]? with
    | none => s
    | some c => run m steps (next + 1) ((m.neighbours c).foldl (meet m) s)

end RegionSearch

/-- A region: its cells in the order of the search, and whether one is at the edge. -/
structure Region where
  cells : List Cell
  touchesEdge : Bool
  deriving DecidableEq, Repr

/-- What has been found out about the regions of a mask. -/
structure Survey where
  visited : Array Bool
  regions : Array Region

namespace Survey

def start (m : BorderMask) : Survey := ⟨Array.replicate (m.width * m.height) false, #[]⟩

/-- Searches the region of a cell, unless that has been done. -/
def visit (m : BorderMask) (s : Survey) (c : Cell) : Survey :=
  if s.visited.getD (m.index c) false || m.isBorder c then s
  else
    match s with
    | ⟨visited, regions⟩ =>
      let search := (RegionSearch.start m visited c).run m (m.width * m.height) 0
      ⟨search.visited, regions.push ⟨search.cells.toList, search.touchesEdge⟩⟩

end Survey

namespace BorderMask

/-- All regions, in the row order of their first cells. -/
def regions (m : BorderMask) : List Region :=
  ((Cell.all m.width m.height).foldl (Survey.visit m) (Survey.start m)).regions.toList

/-- The cells of the enclosed regions, one region after another. -/
def enclosedCells (m : BorderMask) : List Cell := (m.regions.filter (!·.touchesEdge)).flatMap (·.cells)

end BorderMask

/-- Draws `color` over the enclosed cells. -/
def Frame.fill (f : Frame) (m : BorderMask) (color : Pixel) : Frame :=
  m.enclosedCells.foldl (fun f c => f.blend c.x c.y color) f

end VectorRaster
