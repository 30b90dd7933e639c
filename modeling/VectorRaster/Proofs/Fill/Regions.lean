/-
  VectorRaster.Proofs.Fill.Regions — what it means for an outline to enclose a cell.

  Cells that share a side are next to each other. A path steps from a cell that is not border
  to one next to it that is not border either; cells with a path between them are joined. A
  cell is enclosed if no path leads from it to the first or last row or column. A region is a
  set of cells that are joined to each other and to nothing else.

  Proved:
  - `mem_neighbours`, `none_mem_neighbours`: the neighbours that a search looks at are the
    cells next to a cell, and one is missing exactly at the edge of the surface.
  - `IsRegion.enclosed_iff`: either all cells of a region are enclosed or none is, and its
    flag tells which.
-/

import Mathlib.Logic.Relation
import VectorRaster.Proofs.Raster.Cells
import VectorRaster.Raster.Fill

namespace VectorRaster

/-- Two cells that share a side. -/
def Cell.NextTo (c d : Cell) : Prop :=
  (c.y = d.y ∧ (c.x + 1 = d.x ∨ d.x + 1 = c.x)) ∨ (c.x = d.x ∧ (c.y + 1 = d.y ∨ d.y + 1 = c.y))

theorem Cell.NextTo.symm {c d : Cell} (h : c.NextTo d) : d.NextTo c := by
  unfold NextTo at *
  omega

namespace BorderMask

/-- A cell of the surface that is not border. -/
def IsOpen (m : BorderMask) (c : Cell) : Prop := m.contains c = true ∧ m.isBorder c = false

instance (m : BorderMask) (c : Cell) : Decidable (m.IsOpen c) := inferInstanceAs (Decidable (_ ∧ _))

/-- One step of a path. -/
def Step (m : BorderMask) (c d : Cell) : Prop := c.NextTo d ∧ m.IsOpen c ∧ m.IsOpen d

/-- There is a path from one cell to the other. -/
def Joined (m : BorderMask) : Cell → Cell → Prop := Relation.ReflTransGen m.Step

/-- A cell of the first or last row, or of the first or last column. -/
def OnEdge (m : BorderMask) (c : Cell) : Prop := c.x = 0 ∨ c.y = 0 ∨ c.x + 1 = m.width ∨ c.y + 1 = m.height

/-- A cell that is not border and has no path to the edge of the surface. -/
def Enclosed (m : BorderMask) (c : Cell) : Prop := m.IsOpen c ∧ ∀ d, m.Joined c d → ¬m.OnEdge d

variable {m : BorderMask} {c d : Cell}

theorem Step.symm (h : m.Step c d) : m.Step d c := ⟨h.1.symm, h.2.2, h.2.1⟩

theorem Joined.symm (h : m.Joined c d) : m.Joined d c := by
  induction h with
  | refl => exact .refl
  | tail _ hs ih => exact .head hs.symm ih

/-! ## Neighbours -/

theorem mem_neighbours (hc : m.contains c = true) : some d ∈ m.neighbours c ↔ c.NextTo d ∧ m.contains d = true := by
  obtain ⟨hx, hy⟩ := contains_iff.mp hc
  rw [contains_iff]
  obtain ⟨x, y⟩ := d
  simp only [neighbours, Cell.NextTo, List.mem_cons, List.not_mem_nil, or_false]
  constructor
  · rintro (h | h | h | h) <;> split at h <;> simp at h <;> omega
  · rintro ⟨⟨h, h' | h'⟩ | ⟨h, h' | h'⟩, hb⟩
    · left
      rw [if_pos (by omega)]
      simp; omega
    · right; right; left
      rw [if_pos (by omega)]
      simp; omega
    · right; left
      rw [if_pos (by omega)]
      simp; omega
    · right; right; right
      rw [if_pos (by omega)]
      simp; omega

theorem none_mem_neighbours (hc : m.contains c = true) : none ∈ m.neighbours c ↔ m.OnEdge c := by
  obtain ⟨hx, hy⟩ := contains_iff.mp hc
  simp only [neighbours, OnEdge, List.mem_cons, List.not_mem_nil, or_false]
  constructor
  · rintro (h | h | h | h) <;> split at h <;> simp at h <;> omega
  · rintro (h | h | h | h)
    · right; right; left
      rw [if_neg (by omega)]
    · right; right; right
      rw [if_neg (by omega)]
    · left
      rw [if_neg (by omega)]
    · right; left
      rw [if_neg (by omega)]

/-! ## Regions -/

/-- All cells that are joined to one of them, each once, with a flag for the edge. -/
structure IsRegion (m : BorderMask) (r : Region) : Prop where
  nodup : r.cells.Nodup
  isOpen : ∀ c ∈ r.cells, m.IsOpen c
  mem_iff : ∀ c ∈ r.cells, ∀ d, d ∈ r.cells ↔ m.Joined c d
  touchesEdge_iff : r.touchesEdge = true ↔ ∃ c ∈ r.cells, m.OnEdge c

theorem IsRegion.step {r : Region} (h : m.IsRegion r) (hc : c ∈ r.cells) (hs : m.Step c d) : d ∈ r.cells :=
  (h.mem_iff c hc d).mpr (.single hs)

theorem IsRegion.enclosed_iff {r : Region} (h : m.IsRegion r) (hc : c ∈ r.cells) :
    m.Enclosed c ↔ r.touchesEdge = false := by
  rw [← Bool.not_eq_true, h.touchesEdge_iff]
  constructor
  · rintro ⟨-, hno⟩ ⟨d, hd, he⟩
    exact hno d ((h.mem_iff c hc d).mp hd) he
  · intro hno
    refine ⟨h.isOpen c hc, fun d hj he => hno ⟨d, ?_, he⟩⟩
    exact (h.mem_iff c hc d).mpr hj

end BorderMask

end VectorRaster
