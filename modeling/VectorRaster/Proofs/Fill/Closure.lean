/-
  VectorRaster.Proofs.Fill.Closure — the filled shape of an outline, as a closure.

  The shape of a mask is what is marked and what that encloses. On masks of one size:
  - it contains the marks;
  - more marks have no smaller shape. A cell that more marks leave open was open, so paths among more marks are
    paths among fewer (`Joined.of_marked_subset`), whatever becomes of the regions;
  - marking the whole shape adds nothing to it. A cell outside the shape has a path to the edge of the surface, and
    so has each cell of that path; none of them is in the shape, so the path stays (`Joined.of_escape`).

  Main statement: `shape_closure`.
-/

import Mathlib.Data.Set.Basic
import VectorRaster.Proofs.Fill.Enclosed

namespace VectorRaster.BorderMask

/-- A mask of this size with a flag for each of its cells. -/
structure Sized (m : BorderMask) (width height : Nat) : Prop where
  cells : m.cells.size = width * height
  width : m.width = width
  height : m.height = height

def marked (m : BorderMask) : Set Cell := {c | m.isBorder c = true}

/-- What an outline covers and what it encloses. -/
def shape (m : BorderMask) : Set Cell := {c | m.isBorder c = true ∨ c ∈ m.enclosedCells}

/-- The mask after all that it encloses has been marked. -/
def filledIn (m : BorderMask) : BorderMask := m.enclosedCells.foldl (fun m c => m.mark c.x c.y) m

variable {m m' : BorderMask} {width height : Nat} {c d : Cell}

theorem marked_subset_shape (m : BorderMask) : m.marked ⊆ m.shape := fun _ h => .inl h

theorem mem_shape : c ∈ m.shape ↔ m.isBorder c = true ∨ m.Enclosed c := by
  rw [← mem_enclosedCells]
  rfl

/-- What is in no shape is open, with a path to the edge. -/
theorem not_mem_shape_iff (hc : m.contains c = true) :
    c ∉ m.shape ↔ m.IsOpen c ∧ ∃ d, m.Joined c d ∧ m.OnEdge d := by
  rw [mem_shape, Enclosed, IsOpen]
  by_cases hb : m.isBorder c = true
  · simp [hb]
  · simp [hb, hc]

/-! ## Masks of one size -/

namespace Sized

theorem contains_iff (h : m.Sized width height) : m.contains c = true ↔ c.x < width ∧ c.y < height := by
  rw [BorderMask.contains_iff, h.width, h.height]

theorem contains_eq (h : m.Sized width height) (h' : m'.Sized width height) (c : Cell) :
    m.contains c = m'.contains c := by
  rw [Bool.eq_iff_iff, h.contains_iff, h'.contains_iff]

theorem onEdge_iff (h : m.Sized width height) (h' : m'.Sized width height) : m.OnEdge c ↔ m'.OnEdge c := by
  rw [OnEdge, OnEdge, h.width, h.height, h'.width, h'.height]

theorem size_eq (h : m.Sized width height) : m.cells.size = m.width * m.height := by
  rw [h.cells, h.width, h.height]

end Sized

theorem contains_of_mem_shape (hc : c ∈ m.shape) : m.contains c = true := by
  rcases mem_shape.mp hc with hb | he
  · exact (isBorder_iff.mp hb).1
  · exact he.1.1

theorem filledIn_eq (m : BorderMask) : m.filledIn = m.enclosedCells.foldl markCell m := by
  simp only [filledIn, mark_cell]

theorem Sized.filledIn (h : m.Sized width height) : m.filledIn.Sized width height := by
  rw [filledIn_eq]
  exact ⟨by rw [size_foldl_markCell, h.cells], by rw [width_foldl_markCell, h.width],
    by rw [height_foldl_markCell, h.height]⟩

theorem Sized.marked_filledIn (h : m.Sized width height) : m.filledIn.marked = m.shape := by
  ext c
  show m.filledIn.isBorder c = true ↔ m.isBorder c = true ∨ c ∈ m.enclosedCells
  rw [filledIn_eq, isBorder_foldl_markCell h.size_eq]
  constructor
  · intro hc
    rcases hc with ⟨-, hc⟩ | hc
    · exact .inr hc
    · exact .inl hc
  · intro hc
    rcases hc with hc | hc
    · exact .inr hc
    · exact .inl ⟨(mem_enclosedCells.mp hc).1.1, hc⟩

/-! ## More marks -/

section

variable (h : m.Sized width height) (h' : m'.Sized width height)
include h h'

theorem IsOpen.of_marked_subset (hsub : m.marked ⊆ m'.marked) (hc : m'.IsOpen c) : m.IsOpen c := by
  refine ⟨?_, ?_⟩
  · rw [h.contains_eq h' c]
    exact hc.1
  · by_contra hb
    have hmarked : m'.isBorder c = true := hsub (show m.isBorder c = true by simpa using hb)
    rw [hc.2] at hmarked
    cases hmarked

theorem Joined.of_marked_subset (hsub : m.marked ⊆ m'.marked) (hj : m'.Joined c d) : m.Joined c d := by
  have hopen {e : Cell} (he : m'.IsOpen e) : m.IsOpen e := IsOpen.of_marked_subset h h' hsub he
  exact Relation.ReflTransGen.mono (fun a b hs => ⟨hs.1, hopen hs.2.1, hopen hs.2.2⟩) c d hj

theorem shape_mono (hsub : m.marked ⊆ m'.marked) : m.shape ⊆ m'.shape := by
  intro c hc
  have hin : m'.contains c = true := by
    rw [← h.contains_eq h' c]
    exact contains_of_mem_shape hc
  by_contra hout
  obtain ⟨hopen', d, hj, hedge⟩ := (not_mem_shape_iff hin).mp hout
  have hopen := IsOpen.of_marked_subset h h' hsub hopen'
  refine (not_mem_shape_iff hopen.1).mpr ⟨hopen, d, ?_, ?_⟩ hc
  · exact Joined.of_marked_subset h h' hsub hj
  · exact (h.onEdge_iff h').mpr hedge

/-! ## The whole shape marked -/

/-- A path to the edge keeps clear of the shape. -/
theorem Joined.of_escape (hmarked : m'.marked = m.shape) (hj : m.Joined c d) (hc : m.IsOpen c) (hedge : m.OnEdge d) :
    m'.IsOpen c ∧ m'.Joined c d := by
  have hopen {e : Cell} (he : m.IsOpen e) (hed : m.Joined e d) : m'.IsOpen e := by
    have hout := (not_mem_shape_iff he.1).mpr ⟨he, d, hed, hedge⟩
    rw [← hmarked] at hout
    refine ⟨?_, by simpa [marked] using hout⟩
    rw [h'.contains_eq h e]
    exact he.1
  induction hj using Relation.ReflTransGen.head_induction_on with
  | refl => exact ⟨hopen hc .refl, .refl⟩
  | head hs hrest ih =>
    obtain ⟨hopen', hrest'⟩ := ih hs.2.2
    have hfirst := hopen hc (.head hs hrest)
    exact ⟨hfirst, .head ⟨hs.1, hfirst, hopen'⟩ hrest'⟩

theorem enclosedCells_eq_nil (hmarked : m'.marked = m.shape) : m'.enclosedCells = [] := by
  rw [List.eq_nil_iff_forall_not_mem]
  intro c hc
  obtain ⟨hopen', hno⟩ := mem_enclosedCells.mp hc
  have hin : m.contains c = true := by
    rw [h.contains_eq h' c]
    exact hopen'.1
  have hout : c ∉ m.shape := by
    rw [← hmarked]
    simp [marked, hopen'.2]
  obtain ⟨hopen, d, hj, hedge⟩ := (not_mem_shape_iff hin).mp hout
  exact hno d (Joined.of_escape h h' hmarked hj hopen hedge).2 ((h.onEdge_iff h').mp hedge)

theorem shape_eq_of_marked (hmarked : m'.marked = m.shape) : m'.shape = m.shape := by
  have hnone := enclosedCells_eq_nil h h' hmarked
  rw [← hmarked]
  ext c
  simp [shape, marked, hnone]

end

/-- The shape of an outline is a closure: it contains the marks, more marks have no smaller shape, and a mask of all
the shape encloses nothing more, in whatever order it has been marked. -/
theorem shape_closure (h : m.Sized width height) :
    m.marked ⊆ m.shape ∧
    (∀ m' : BorderMask, m'.Sized width height → m.marked ⊆ m'.marked → m.shape ⊆ m'.shape) ∧
    (∀ m' : BorderMask, m'.Sized width height → m'.marked = m.shape → m'.shape = m.shape ∧ m'.enclosedCells = []) ∧
    m.filledIn.Sized width height ∧ m.filledIn.marked = m.shape ∧ m.filledIn.filledIn = m.filledIn := by
  refine ⟨marked_subset_shape m, ?_, ?_, h.filledIn, h.marked_filledIn, ?_⟩
  · intro m' h' hsub
    exact shape_mono h h' hsub
  · intro m' h' hmarked
    exact ⟨shape_eq_of_marked h h' hmarked, enclosedCells_eq_nil h h' hmarked⟩
  · have hnone := enclosedCells_eq_nil h h.filledIn h.marked_filledIn
    rw [BorderMask.filledIn, hnone, List.foldl_nil]

/-- A diamond, and the same with one more mark, which joins no path to the edge. -/
theorem shape_closure_diamond :
    let m : BorderMask := ⟨3, 3, #[false, true, false, true, false, true, false, true, false]⟩
    let m' : BorderMask := ⟨3, 3, #[true, true, false, true, false, true, false, true, false]⟩
    m.Sized 3 3 ∧ m'.Sized 3 3 ∧ m.marked ⊆ m'.marked ∧ (⟨1, 1⟩ : Cell) ∈ m.shape ∧ m.shape ⊆ m'.shape ∧
      m.filledIn.filledIn = m.filledIn := by
  intro m m'
  have h : m.Sized 3 3 := ⟨rfl, rfl, rfl⟩
  have h' : m'.Sized 3 3 := ⟨rfl, rfl, rfl⟩
  have hsub : m.marked ⊆ m'.marked := by
    intro c hc
    have hin : c ∈ Cell.all 3 3 := mem_all.mpr (h.contains_iff.mp (isBorder_iff.mp hc).1)
    have hall : ∀ c ∈ Cell.all 3 3, m.isBorder c = true → m'.isBorder c = true := by decide +kernel
    exact hall c hin hc
  obtain ⟨-, hmono, -, -, -, hidem⟩ := shape_closure h
  exact ⟨h, h', hsub, .inr (by decide +kernel), hmono m' h' hsub, hidem⟩

end VectorRaster.BorderMask
