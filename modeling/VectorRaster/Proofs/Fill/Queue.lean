/-
  VectorRaster.Proofs.Fill.Queue — the search of regions with its queue, and each cell's way through it.

  The library keeps the cells that a search has found in one array, takes them by number, and says
  beforehand how many steps there can be. Here a search has a queue that it takes cells from while
  it adds others, goes on until the queue is empty (`drain`, a partial value: there is none if that
  comes to no end), and moves what it has taken to the enclosed cells, or forgets it. Each look at a
  flag is checked to be at one that is there. A record is kept of the cells that join the queue, that
  leave it, and whose neighbours have been looked at.

  The array of the library is the region followed by the queue (`ofSearch`). So each turn is a step of
  the library's search (`meet?_ofSearch`, `turn?_ofSearch`), a search ends because the library's has
  enough steps to take all that it finds (`drain_ofSearch`), and between two cells that may start a
  search nothing is left in the queue or in the region (`visit_ofSurvey`).

  Main statement: `flood_takes_once`.
-/

import Mathlib.Data.PFun
import VectorRaster.Proofs.Fill.Marking

namespace VectorRaster

open Numeric

/-! ## Neighbours in words -/

theorem toInt_ofNat_add {n : Nat} {k : Int64} (hn : n < 9223372036854775807) (hlow : -1 ≤ k.toInt)
    (hhigh : k.toInt ≤ 1) : (Int64.ofNat n + k).toInt = n + k.toInt := by
  rw [Int64.toInt_add, Int64.toInt_ofNat_of_lt (by omega), Int.bmod_eq_of_le (by omega) (by omega)]

namespace BorderMask

variable {m : BorderMask} {c : Cell}

/-- The ways from a cell to its neighbours. -/
def ways : List GridPoint := [⟨1, 0⟩, ⟨0, 1⟩, ⟨-1, 0⟩, ⟨0, -1⟩]

/-- Where a way leads from a cell; none past the edge. -/
def follow (m : BorderMask) (c : Cell) (way : GridPoint) : Option Cell :=
  let x := Int64.ofNat c.x + way.x
  let y := Int64.ofNat c.y + way.y
  if x < 0 || y < 0 || Int64.ofNat m.width ≤ x || Int64.ofNat m.height ≤ y then none
  else some ⟨x.toUInt64.toNat, y.toUInt64.toNat⟩

/-- Where every side is a word with a sign, a way leads to a cell of the mask or past the edge. -/
theorem follow_eq_cell? (hwidth : m.width ≤ Word.lastSigned) (hheight : m.height ≤ Word.lastSigned) (way : GridPoint) :
    m.follow c way = (⟨Int64.ofNat c.x + way.x, Int64.ofNat c.y + way.y⟩ : GridPoint).cell? m.width m.height := by
  have hlast : Word.lastSigned = 9223372036854775807 := rfl
  have hside : ∀ {extent : Nat} {x : Int64}, extent ≤ Word.lastSigned → ¬x < 0 →
      (Int64.ofNat extent ≤ x ↔ ¬x.toUInt64.toNat < extent) := by
    intro extent x hextent hx
    have hx := Int64.not_lt.mp hx
    have hpos := Int64.le_iff_toInt_le.mp hx
    rw [Int64.toInt_zero] at hpos
    rw [Int64.le_iff_toInt_le, Int64.toInt_ofNat_of_lt (by omega), Int64.toNat_toUInt64_of_le hx, ← Int64.toNat_toInt]
    omega
  unfold follow GridPoint.cell?
  dsimp only
  generalize Int64.ofNat c.x + way.x = x
  generalize Int64.ofNat c.y + way.y = y
  by_cases hx : x < 0
  · simp [hx]
  by_cases hy : y < 0
  · simp [hy]
  by_cases hinside : x.toUInt64.toNat < m.width ∧ y.toUInt64.toNat < m.height
  · simp [hx, hy, hside hwidth hx, hside hheight hy, hinside]
  · have houtside : m.width ≤ x.toUInt64.toNat ∨ m.height ≤ y.toUInt64.toNat := by omega
    simp [hx, hy, hside hwidth hx, hside hheight hy, hinside, houtside]

section

variable (hwidth : m.width ≤ Word.lastSigned) (hheight : m.height ≤ Word.lastSigned) (hc : m.contains c = true)
include hwidth hheight hc

theorem follow_eq_some_iff {way : GridPoint} (hway : way ∈ ways) {d : Cell} :
    m.follow c way = some d ↔
      c.x + way.x.toInt = d.x ∧ c.y + way.y.toInt = d.y ∧ d.x < m.width ∧ d.y < m.height := by
  have hlast : Word.lastSigned = 9223372036854775807 := rfl
  have hsteps : ∀ way ∈ ways, (-1 ≤ way.x.toInt ∧ way.x.toInt ≤ 1) ∧ -1 ≤ way.y.toInt ∧ way.y.toInt ≤ 1 := by decide
  obtain ⟨hx, hy⟩ := hsteps way hway
  obtain ⟨hcx, hcy⟩ := contains_iff.mp hc
  rw [follow_eq_cell? hwidth hheight, GridPoint.cell?_eq_some_iff, toInt_ofNat_add (by omega) hx.1 hx.2,
    toInt_ofNat_add (by omega) hy.1 hy.2]

theorem follow_eq_ite {way : GridPoint} (hway : way ∈ ways) {d : Cell} {p : Prop} [Decidable p]
    (hd : p → c.x + way.x.toInt = d.x ∧ c.y + way.y.toInt = d.y ∧ d.x < m.width ∧ d.y < m.height)
    (hp : ∀ e : Cell, c.x + way.x.toInt = e.x → c.y + way.y.toInt = e.y → e.x < m.width → e.y < m.height → p) :
    m.follow c way = if p then some d else none := by
  have hiff := @follow_eq_some_iff m c hwidth hheight hc way hway
  by_cases h : p
  · rw [if_pos h, hiff]
    exact hd h
  · rw [if_neg h, Option.eq_none_iff_forall_ne_some]
    intro e he
    obtain ⟨hx, hy, hex, hey⟩ := hiff.mp he
    exact h (hp e hx hy hex hey)

/-- In words, a cell has the neighbours that it has in numbers. -/
theorem map_follow_ways : ways.map (m.follow c) = m.neighbours c := by
  obtain ⟨hcx, hcy⟩ := contains_iff.mp hc
  have hone : (1 : Int64).toInt = 1 ∧ (0 : Int64).toInt = 0 ∧ (-1 : Int64).toInt = -1 := by decide
  have hright : m.follow c ⟨1, 0⟩ = if c.x + 1 < m.width then some ⟨c.x + 1, c.y⟩ else none := by
    refine follow_eq_ite hwidth hheight hc (by decide) ?_ ?_ <;> simp only [hone] <;> omega
  have hbelow : m.follow c ⟨0, 1⟩ = if c.y + 1 < m.height then some ⟨c.x, c.y + 1⟩ else none := by
    refine follow_eq_ite hwidth hheight hc (by decide) ?_ ?_ <;> simp only [hone] <;> omega
  have hleft : m.follow c ⟨-1, 0⟩ = if 0 < c.x then some ⟨c.x - 1, c.y⟩ else none := by
    refine follow_eq_ite hwidth hheight hc (by decide) ?_ ?_ <;> simp only [hone] <;> omega
  have habove : m.follow c ⟨0, -1⟩ = if 0 < c.y then some ⟨c.x, c.y - 1⟩ else none := by
    refine follow_eq_ite hwidth hheight hc (by decide) ?_ ?_ <;> simp only [hone] <;> omega
  simp only [ways, List.map_cons, List.map_nil, neighbours, hright, hbelow, hleft, habove]

end

end BorderMask

/-! ## A search with a queue -/

/-- What a search of regions keeps: the flags of the cells that have been visited, the queue, the region
so far and whether it is at the edge, and the enclosed cells. The last three are a record: which cells have
joined the queue, which have left it, and the neighbours of which have been looked at, in order. -/
structure Flood where
  visited : Array Bool
  queue : List Cell
  region : List Cell
  touchesEdge : Bool
  enclosed : List Cell
  enqueued : List Cell
  dequeued : List Cell
  scanned : List Cell

namespace Flood

variable (m : BorderMask)

def start : Flood := ⟨Array.replicate (m.width * m.height) false, [], [], false, [], [], [], []⟩

/-- The index of a cell's flag; none if there is no such flag. -/
def slot? (s : Flood) (c : Cell) : Option Nat := if m.index c < s.visited.size then some (m.index c) else none

/-- Whether a cell is neither visited nor border. -/
def isNew? (s : Flood) (c : Cell) : Option Bool :=
  (s.slot? m c).map fun i => !(s.visited.getD i false || m.isBorder c)

/-- Raises the flag of a cell and puts it at the end of the queue. -/
def push? (s : Flood) (c : Cell) : Option Flood :=
  (s.slot? m c).map fun i =>
    { s with visited := s.visited.setIfInBounds i true, queue := s.queue ++ [c], enqueued := s.enqueued ++ [c] }

/-- Takes notice of a neighbour. -/
def meet? (s : Flood) : Option Cell → Option Flood
  | none => some { s with touchesEdge := true }
  | some c => do if ← s.isNew? m c then s.push? m c else some s

/-- Looks at the neighbours of a cell that has been taken. -/
def scan? (s : Flood) (c : Cell) : Option Flood := do
  let met ← (m.neighbours c).foldlM (meet? m) s
  return { met with scanned := met.scanned ++ [c] }

/-- Takes the first cell of the queue and looks at its neighbours; done if there is none. -/
def turn? (s : Flood) : Option (Flood ⊕ Flood) :=
  match s.queue with
  | [] => some (.inl s)
  | c :: queue =>
    let taken : Flood := { s with queue := queue, region := s.region ++ [c], dequeued := s.dequeued ++ [c] }
    (taken.scan? m c).map .inr

/-- Takes turns until it is done. Nothing bounds how many there are. -/
def drain (s : Flood) : Part Flood := PFun.fix (fun s => Part.ofOption (turn? m s)) s

/-- Moves the region to the enclosed cells, or forgets it if it is at the edge. -/
def close (s : Flood) : Flood :=
  { s with region := [], enclosed := if s.touchesEdge then s.enclosed else s.enclosed ++ s.region }

/-- Searches the region of a cell, unless it is border or has been visited. -/
def visit (s : Flood) (c : Cell) : Part Flood := do
  if ← Part.ofOption (s.isNew? m c) then
    let begun ← Part.ofOption (push? m { s with touchesEdge := false } c)
    let searched ← begun.drain m
    return searched.close
  else return s

def run : Part Flood := (Cell.all m.width m.height).foldlM (visit m) (start m)

/-! ## The library's search with its queue -/

/-- A search that the library has brought so far, after other regions: of what has been found, the first `taken`
cells have been taken and the first `seen` looked at. -/
def ofSearch (before enclosed : List Cell) (r : RegionSearch) (taken seen : Nat) : Flood where
  visited := r.visited
  queue := r.cells.toList.drop taken
  region := r.cells.toList.take taken
  touchesEdge := r.touchesEdge
  enclosed := enclosed
  enqueued := before ++ r.cells.toList
  dequeued := before ++ r.cells.toList.take taken
  scanned := before ++ r.cells.toList.take seen

/-- A survey that the library has brought so far. -/
def ofSurvey (s : Survey) (touchesEdge : Bool) : Flood where
  visited := s.visited
  queue := []
  region := []
  touchesEdge := touchesEdge
  enclosed := (s.regions.toList.filter (!·.touchesEdge)).flatMap (·.cells)
  enqueued := s.regions.toList.flatMap (·.cells)
  dequeued := s.regions.toList.flatMap (·.cells)
  scanned := s.regions.toList.flatMap (·.cells)

variable {m} {s t : Flood} {r : RegionSearch} {before enclosed : List Cell} {c : Cell} {taken seen next steps : Nat}
  {old : Array Bool} {seed : Cell}

theorem slot?_eq (hsize : s.visited.size = m.width * m.height) (hc : m.contains c = true) :
    s.slot? m c = some (m.index c) := by
  rw [slot?, hsize, if_pos (BorderMask.index_lt hc)]

theorem isNew?_eq (hsize : s.visited.size = m.width * m.height) (hc : m.contains c = true) :
    s.isNew? m c = some (!(s.visited.getD (m.index c) false || m.isBorder c)) := by
  rw [isNew?, slot?_eq hsize hc, Option.map_some]

theorem push?_eq (hsize : s.visited.size = m.width * m.height) (hc : m.contains c = true) :
    s.push? m c = some { s with
      visited := s.visited.setIfInBounds (m.index c) true
      queue := s.queue ++ [c]
      enqueued := s.enqueued ++ [c] } := by
  rw [push?, slot?_eq hsize hc, Option.map_some]

theorem size_visited_meet (r : RegionSearch) (o : Option Cell) : (r.meet m o).visited.size = r.visited.size := by
  cases o with
  | none => rfl
  | some c =>
    simp only [RegionSearch.meet]
    split
    · rfl
    · exact Array.size_setIfInBounds

theorem meet?_ofSearch (hsize : r.visited.size = m.width * m.height) (htaken : taken ≤ r.cells.size)
    (hseen : seen ≤ r.cells.size) {o : Option Cell} (ho : ∀ c ∈ o, m.contains c = true) :
    (ofSearch before enclosed r taken seen).meet? m o = some (ofSearch before enclosed (r.meet m o) taken seen) := by
  cases o with
  | none => rfl
  | some c =>
    have hc := ho c rfl
    have hnew : (ofSearch before enclosed r taken seen).isNew? m c =
        some (!(r.visited.getD (m.index c) false || m.isBorder c)) := isNew?_eq hsize hc
    by_cases hold : (r.visited.getD (m.index c) false || m.isBorder c) = true
    · have hmeet : r.meet m (some c) = r := if_pos hold
      rw [hold] at hnew
      rw [hmeet, meet?, hnew]
      rfl
    · have hmeet : r.meet m (some c) =
          { r with visited := r.visited.setIfInBounds (m.index c) true, cells := r.cells.push c } := if_neg hold
      have htaken : taken ≤ r.cells.toList.length := by simpa using htaken
      have hseen : seen ≤ r.cells.toList.length := by simpa using hseen
      rw [Bool.eq_false_of_not_eq_true hold] at hnew
      rw [hmeet, meet?, hnew]
      refine (push?_eq hsize hc).trans ?_
      simp only [ofSearch, Array.toList_push, List.drop_append_of_le_length htaken,
        List.take_append_of_le_length htaken, List.take_append_of_le_length hseen, List.append_assoc]

theorem foldlM_meet?_ofSearch (hsize : r.visited.size = m.width * m.height) (htaken : taken ≤ r.cells.size)
    (hseen : seen ≤ r.cells.size) {os : List (Option Cell)} (hos : ∀ o ∈ os, ∀ c ∈ o, m.contains c = true) :
    os.foldlM (meet? m) (ofSearch before enclosed r taken seen) =
      some (ofSearch before enclosed (os.foldl (RegionSearch.meet m) r) taken seen) := by
  induction os generalizing r with
  | nil => rfl
  | cons o os ih =>
    have hgrows : r.cells.size ≤ (r.meet m o).cells.size := by
      simpa using (RegionSearch.prefix_meet (m := m) r o).length_le
    have hrest := ih ((size_visited_meet r o).trans hsize) (htaken.trans hgrows) (hseen.trans hgrows)
      fun o ho => hos o (List.mem_cons_of_mem _ ho)
    rw [List.foldlM_cons, meet?_ofSearch hsize htaken hseen (hos o List.mem_cons_self)]
    exact hrest

/-- Taking a cell looks at its neighbours, which puts it among the cells that have been looked at. -/
theorem scan?_ofSearch (hsize : r.visited.size = m.width * m.height) (hnext : r.cells[next]? = some c)
    (hc : m.contains c = true) :
    (ofSearch before enclosed r (next + 1) next).scan? m c =
      some (ofSearch before enclosed (r.take m c) (next + 1) (next + 1)) := by
  obtain ⟨hlt, rfl⟩ := Array.getElem?_eq_some_iff.mp hnext
  have hcontained : ∀ o ∈ m.neighbours r.cells[next], ∀ d ∈ o, m.contains d = true := by
    intro o ho d hd
    rw [Option.mem_def.mp hd] at ho
    exact ((BorderMask.mem_neighbours hc).mp ho).2
  obtain ⟨more, hmore⟩ := RegionSearch.prefix_foldl_meet (m := m) (m.neighbours r.cells[next]) r
  have hlook : (r.take m r.cells[next]).cells.toList.take next ++ [r.cells[next]] =
      (r.take m r.cells[next]).cells.toList.take (next + 1) := by
    rw [RegionSearch.take, ← hmore, List.take_append_of_le_length (by simpa using hlt.le),
      List.take_append_of_le_length (by simpa using hlt)]
    exact List.take_append_getElem (by simpa using hlt)
  rw [scan?, foldlM_meet?_ofSearch hsize hlt hlt.le hcontained]
  show some _ = some _
  rw [← RegionSearch.take, Option.some.injEq, ofSearch, ofSearch, ← hlook, List.append_assoc]

theorem turn?_ofSearch (hsize : r.visited.size = m.width * m.height) (hnext : r.cells[next]? = some c)
    (hc : m.contains c = true) :
    (ofSearch before enclosed r next next).turn? m =
      some (.inr (ofSearch before enclosed (r.take m c) (next + 1) (next + 1))) := by
  obtain ⟨hlt, hget⟩ := Array.getElem?_eq_some_iff.mp hnext
  have hlt' : next < r.cells.toList.length := by simpa using hlt
  have hqueue : (ofSearch before enclosed r next next).queue = c :: r.cells.toList.drop (next + 1) := by
    rw [ofSearch, List.drop_eq_getElem_cons hlt', Array.getElem_toList, hget]
  have htake : r.cells.toList.take next ++ [c] = r.cells.toList.take (next + 1) := by
    rw [← List.take_append_getElem hlt', Array.getElem_toList, hget]
  have htaken : (ofSearch before enclosed r next next).turn? m =
      ((ofSearch before enclosed r (next + 1) next).scan? m c).map .inr := by
    rw [turn?, hqueue]
    simp only [ofSearch, List.append_assoc, htake]
  rw [htaken, scan?_ofSearch hsize hnext hc, Option.map_some]

theorem drain_of_turn? (h : s.turn? m = some (.inr t)) : s.drain m = t.drain m :=
  PFun.fix_fwd_eq (Part.mem_ofOption.mpr h)

/-- When all that has been found has been taken, the queue is empty. -/
theorem drain_of_le (hle : r.cells.size ≤ next) (hnext : next ≤ r.cells.size) :
    (ofSearch before enclosed r next next).drain m = .some (ofSearch before enclosed r r.cells.size r.cells.size) := by
  obtain rfl : next = r.cells.size := Nat.le_antisymm hnext hle
  have hempty : (ofSearch before enclosed r r.cells.size r.cells.size).queue = [] := by
    simp [ofSearch]
  refine Part.eq_some_iff.mpr (PFun.fix_stop (Part.mem_ofOption.mpr ?_))
  rw [Option.mem_def, turn?, hempty]

/-- A search comes to an end, and it is the end of the library's search: no cell is found twice, so there is a step
for each. -/
theorem drain_ofSearch (hr : RegionSearch.Sound m old seed r) (hnext : next ≤ r.cells.size)
    (hsteps : m.width * m.height ≤ steps + next) :
    (ofSearch before enclosed r next next).drain m = .some (ofSearch before enclosed (r.run m steps next)
      (r.run m steps next).cells.size (r.run m steps next).cells.size) := by
  induction steps generalizing r next with
  | zero =>
    have hcount := hr.size_cells_le
    exact drain_of_le (by omega) hnext
  | succ steps ih =>
    cases hc : r.cells[next]? with
    | none =>
      simp only [RegionSearch.run, hc]
      exact drain_of_le (by simpa using hc) hnext
    | some c =>
      have hmem : c ∈ r.cells := Array.mem_of_getElem? hc
      have hlt : next < r.cells.size := (Array.getElem?_eq_some_iff.mp hc).1
      have hr' : RegionSearch.Sound m old seed (r.take m c) := (hr.foldl_meet hmem (List.Subset.refl _)).1
      have hgrows : r.cells.size ≤ (r.take m c).cells.size := by
        simpa [RegionSearch.take] using (RegionSearch.prefix_foldl_meet (m := m) (m.neighbours c) r).length_le
      simp only [RegionSearch.run, hc]
      rw [drain_of_turn? (turn?_ofSearch hr.size hc (hr.isOpen c hmem).1)]
      exact ih hr' (by omega) (by omega)

/-! ## A survey -/

/-- A search begins with its first cell in the queue and nothing in the region. -/
theorem push?_ofSurvey {s : Survey} (hsize : s.visited.size = m.width * m.height) (hc : m.contains c = true)
    (touchesEdge : Bool) :
    ({ ofSurvey s touchesEdge with touchesEdge := false }).push? m c =
      some (ofSearch (s.regions.toList.flatMap (·.cells)) (ofSurvey s touchesEdge).enclosed
        (RegionSearch.start m s.visited c) 0 0) := by
  refine (push?_eq hsize hc).trans ?_
  simp [ofSurvey, ofSearch, RegionSearch.start]

theorem close_ofSearch (s : Survey) (touchesEdge : Bool) (r : RegionSearch) :
    (ofSearch (s.regions.toList.flatMap (·.cells)) (ofSurvey s touchesEdge).enclosed r r.cells.size
        r.cells.size).close =
      ofSurvey ⟨r.visited, s.regions.push ⟨r.cells.toList, r.touchesEdge⟩⟩ r.touchesEdge := by
  have hall : r.cells.toList.take r.cells.size = r.cells.toList := List.take_of_length_le (by simp)
  cases hedge : r.touchesEdge <;> simp [close, ofSearch, ofSurvey, hall, hedge]

/-- A visit is a visit of the library's survey, and leaves nothing in the queue or in the region. -/
theorem visit_ofSurvey {s : Survey} (hs : s.Sound m) (hc : m.contains c = true) (touchesEdge : Bool) :
    ∃ touchesEdge', (ofSurvey s touchesEdge).visit m c = .some (ofSurvey (s.visit m c) touchesEdge') := by
  have hnew : (ofSurvey s touchesEdge).isNew? m c = some (!(s.visited.getD (m.index c) false || m.isBorder c)) :=
    isNew?_eq hs.size hc
  by_cases hold : (s.visited.getD (m.index c) false || m.isBorder c) = true
  · have hvisit : s.visit m c = s := if_pos hold
    rw [hold] at hnew
    refine ⟨touchesEdge, ?_⟩
    rw [hvisit, visit, hnew, Part.coe_some, Part.bind_eq_bind, Part.bind_some]
    rfl
  · have hcond : ¬(m.Raised s.visited c ∨ ¬m.IsOpen c) := by
      simpa [BorderMask.Raised, BorderMask.IsOpen, hc] using hold
    obtain ⟨hn, ho⟩ : ¬m.Raised s.visited c ∧ m.IsOpen c := by simpa using hcond
    have hvisit := Survey.visit_eq (s := s) hc
    rw [if_neg hcond] at hvisit
    have hsearch : ∀ before enclosed, (ofSearch before enclosed (RegionSearch.start m s.visited c) 0 0).drain m =
        .some (ofSearch before enclosed (RegionSearch.whole m s.visited c) (RegionSearch.whole m s.visited c).cells.size
          (RegionSearch.whole m s.visited c).cells.size) := fun before enclosed =>
      drain_ofSearch (RegionSearch.Sound.start hs.size ho hn) (Nat.zero_le _) (Nat.le_add_right (m.width * m.height) 0)
    rw [Bool.eq_false_of_not_eq_true hold] at hnew
    refine ⟨(RegionSearch.whole m s.visited c).touchesEdge, ?_⟩
    rw [hvisit, visit, hnew]
    simp only [Bool.not_false, Part.coe_some, Part.bind_eq_bind, Part.bind_some, if_true, push?_ofSurvey hs.size hc,
      hsearch, close_ofSearch, Part.pure_eq_some]

theorem foldlM_visit_ofSurvey {s : Survey} (hs : s.Sound m) {cells : List Cell}
    (hcells : ∀ c ∈ cells, m.contains c = true) (touchesEdge : Bool) :
    ∃ touchesEdge', cells.foldlM (visit m) (ofSurvey s touchesEdge) =
      .some (ofSurvey (cells.foldl (Survey.visit m) s) touchesEdge') := by
  induction cells generalizing s touchesEdge with
  | nil => exact ⟨touchesEdge, rfl⟩
  | cons c cells ih =>
    have hc := hcells c List.mem_cons_self
    obtain ⟨edge, hvisit⟩ := visit_ofSurvey hs hc touchesEdge
    obtain ⟨edge', hrest⟩ := ih (hs.visit hc) (fun d hd => hcells d (List.mem_cons_of_mem _ hd)) edge
    refine ⟨edge', ?_⟩
    rw [List.foldlM_cons, hvisit, Part.bind_eq_bind, Part.bind_some]
    exact hrest

end Flood

namespace BorderMask

variable {m : BorderMask} {c : Cell}

/-! ## All regions -/

theorem mem_flatMap_regions : c ∈ m.regions.flatMap (·.cells) ↔ m.IsOpen c := by
  obtain ⟨hregion, -, hcover⟩ := regions_spec m
  rw [List.mem_flatMap]
  constructor
  · intro h
    obtain ⟨r, hr, hc⟩ := h
    exact (hregion r hr).isOpen c hc
  · exact hcover c

theorem nodup_flatMap_regions (m : BorderMask) : (m.regions.flatMap (·.cells)).Nodup := by
  obtain ⟨hregion, hapart, -⟩ := regions_spec m
  exact List.nodup_flatMap.mpr ⟨fun r hr => (hregion r hr).nodup, hapart⟩

theorem count_flatMap_regions (m : BorderMask) (c : Cell) :
    (m.regions.flatMap (·.cells)).count c = if m.IsOpen c then 1 else 0 := by
  by_cases h : m.IsOpen c
  · rw [if_pos h]
    exact List.count_eq_one_of_mem (nodup_flatMap_regions m) (mem_flatMap_regions.mpr h)
  · rw [if_neg h]
    exact List.count_eq_zero_of_not_mem (mt mem_flatMap_regions.mp h)

theorem length_flatMap_regions (m : BorderMask) :
    (m.regions.flatMap (·.cells)).length = (Cell.all m.width m.height).countP (!m.isBorder ·) := by
  have hperm : (m.regions.flatMap (·.cells)).Perm ((Cell.all m.width m.height).filter (!m.isBorder ·)) := by
    have hnodup := nodup_of_pairwise_before (pairwise_all m.width m.height)
    refine (List.perm_ext_iff_of_nodup (nodup_flatMap_regions m) (hnodup.filter _)).mpr fun c => ?_
    rw [mem_flatMap_regions, List.mem_filter, mem_all, ← contains_iff, Bool.not_eq_true', IsOpen]
  rw [hperm.length_eq, List.countP_eq_length_filter]

/-- What becomes of each cell while all regions of a mask are searched:
- whenever the search of a region may start, the queue is empty, and so is the region;
- every search comes to an end, with every look at the flag of a visited cell at one that is there, and the
  enclosed cells are those that the library lists;
- the cells that are not border join the queue once each, leave it once each and have their neighbours looked at
  once each, in one order, and no other cell joins it; so as many cells leave the queue as are not border;
- on a mask with a flag for each of its cells, as many as can be counted with a sign, the index of each cell
  is a word, and in words a cell has the same neighbours. -/
theorem flood_takes_once (m : BorderMask) :
    (∀ before after, Cell.all m.width m.height = before ++ after →
      ∃ s ∈ before.foldlM (Flood.visit m) (Flood.start m), s.queue = [] ∧ s.region = []) ∧
    (∃ s ∈ Flood.run m, s.enclosed = m.enclosedCells ∧
      (∀ c, s.enqueued.count c = if m.IsOpen c then 1 else 0) ∧ s.dequeued = s.enqueued ∧ s.scanned = s.enqueued ∧
      s.dequeued.length = (Cell.all m.width m.height).countP (!m.isBorder ·)) ∧
    (m.cells.size = m.width * m.height → m.width * m.height ≤ Word.lastSigned → ∀ c, m.contains c = true →
      m.flagAt? c = some (m.index c) ∧ ways.map (m.follow c) = m.neighbours c) := by
  have hcells : ∀ c ∈ Cell.all m.width m.height, m.contains c = true := fun c hc => contains_iff.mpr (mem_all.mp hc)
  refine ⟨fun before after hall => ?_, ?_, fun hsize hlast c hc => ?_⟩
  · obtain ⟨edge, hrun⟩ := Flood.foldlM_visit_ofSurvey (Survey.Sound.start m)
      (fun c hc => hcells c (hall ▸ List.mem_append_left after hc)) false
    exact ⟨_, Part.eq_some_iff.mp hrun, rfl, rfl⟩
  · obtain ⟨edge, hrun⟩ := Flood.foldlM_visit_ofSurvey (Survey.Sound.start m) hcells false
    exact ⟨_, Part.eq_some_iff.mp hrun, rfl, count_flatMap_regions m, rfl, rfl, length_flatMap_regions m⟩
  · have hsized : m.Sized m.width m.height := ⟨hsize, rfl, rfl⟩
    obtain ⟨hx, hy⟩ := contains_iff.mp hc
    have hwidth : m.width ≤ Word.lastSigned := (Nat.le_mul_of_pos_right _ (by omega)).trans hlast
    have hheight : m.height ≤ Word.lastSigned := (Nat.le_mul_of_pos_left _ (by omega)).trans hlast
    exact ⟨hsized.flagAt?_eq (Nat.lt_of_le_of_lt hlast (by decide)) hc, map_follow_ways hwidth hheight hc⟩

/-- Five cells of a diamond are not border: the middle and the corners. -/
theorem flood_takes_once_diamond :
    let m : BorderMask := ⟨3, 3, #[false, true, false, true, false, true, false, true, false]⟩
    (∃ s ∈ [⟨0, 0⟩, ⟨1, 0⟩].foldlM (Flood.visit m) (Flood.start m), s.queue = [] ∧ s.region = []) ∧
      (∃ s ∈ Flood.run m, s.enclosed = [⟨1, 1⟩] ∧ s.dequeued.length = 5 ∧ s.scanned.count ⟨2, 2⟩ = 1) ∧
      m.contains ⟨1, 1⟩ = true ∧ ways.map (m.follow ⟨1, 1⟩) = [some ⟨2, 1⟩, some ⟨1, 2⟩, some ⟨0, 1⟩, some ⟨1, 0⟩] := by
  intro m
  obtain ⟨hbetween, ⟨s, hrun, henclosed, hcount, -, hscanned, hlength⟩, hwords⟩ := flood_takes_once m
  refine ⟨hbetween _ ((Cell.all 3 3).drop 2) (by decide), ⟨s, hrun, ?_, ?_, ?_⟩, by decide, ?_⟩
  · rw [henclosed]
    decide +kernel
  · rw [hlength]
    decide +kernel
  · rw [hscanned, hcount]
    decide +kernel
  · rw [(hwords (by decide) (by decide) ⟨1, 1⟩ (by decide)).2]
    decide

end BorderMask

end VectorRaster
