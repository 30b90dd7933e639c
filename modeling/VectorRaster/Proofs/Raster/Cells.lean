/-
  VectorRaster.Proofs.Raster.Cells — cells, and where a mask or a frame keeps them.

  A surface keeps the cell at `x` and `y` at the index `y * width + x`. Inside the surface no
  two cells share an index (`cell_ext_index`), so a write at one cell is not seen at another
  (`flag_set`, `isBorder_markCell`, `get?_set`). The other modules use no more than that of
  the layout.
-/

import Mathlib.Logic.Function.Iterate
import VectorRaster.Raster.BorderMask
import VectorRaster.Raster.Frame

namespace VectorRaster

/-! ## Indices -/

theorem cell_ext_index {width : Nat} {c d : Cell} (hc : c.x < width) (hd : d.x < width)
    (h : c.y * width + c.x = d.y * width + d.x) : c = d := by
  have hx : c.x = d.x := by
    have := congrArg (· % width) h
    simpa [Nat.mul_add_mod_self_right, Nat.mod_eq_of_lt hc, Nat.mod_eq_of_lt hd] using this
  have hy : c.y * width = d.y * width := by omega
  have hy := Nat.eq_of_mul_eq_mul_right (by omega) hy
  cases c; cases d; simp_all

theorem index_lt_area {width height : Nat} {c : Cell} (hx : c.x < width) (hy : c.y < height) :
    c.y * width + c.x < width * height := by
  calc c.y * width + c.x < c.y * width + width := by omega
    _ = width * (c.y + 1) := by rw [Nat.mul_add, Nat.mul_comm, Nat.mul_one]
    _ ≤ width * height := Nat.mul_le_mul_left _ hy

theorem mem_all {width height : Nat} {c : Cell} : c ∈ Cell.all width height ↔ c.x < width ∧ c.y < height := by
  obtain ⟨x, y⟩ := c
  simp only [Cell.all, List.mem_flatMap, List.mem_range, List.mem_map, Cell.mk.injEq]
  constructor
  · rintro ⟨y', hy, x', hx, rfl, rfl⟩
    exact ⟨hx, hy⟩
  · rintro ⟨hx, hy⟩
    exact ⟨y, hy, x, hx, rfl, rfl⟩

namespace BorderMask

variable {m : BorderMask} {c d : Cell}

theorem contains_iff : m.contains c = true ↔ c.x < m.width ∧ c.y < m.height := by
  simp [contains]

theorem index_inj (hc : m.contains c = true) (hd : m.contains d = true) (h : m.index c = m.index d) : c = d :=
  cell_ext_index (contains_iff.mp hc).1 (contains_iff.mp hd).1 h

theorem index_lt (hc : m.contains c = true) : m.index c < m.width * m.height :=
  index_lt_area (contains_iff.mp hc).1 (contains_iff.mp hc).2

/-! ## Flags, one for each cell -/

/-- Raising the flag of one cell is not seen at any other. -/
theorem flag_set {flags : Array Bool} (hsize : flags.size = m.width * m.height) (hc : m.contains c = true)
    (hd : m.contains d = true) :
    (flags.setIfInBounds (m.index c) true).getD (m.index d) false = true
      ↔ d = c ∨ flags.getD (m.index d) false = true := by
  have hlt := index_lt hd
  simp only [Array.getD_eq_getD_getElem?, Array.getElem?_setIfInBounds]
  by_cases e : m.index c = m.index d
  · have := index_inj hc hd e
    subst this
    simp [hsize, hlt]
  · have : d ≠ c := fun h => e (by rw [h])
    simp [e, this]

theorem isBorder_blank (width height : Nat) (c : Cell) : (blank width height).isBorder c = false := by
  have hflag : (blank width height).cells.getD ((blank width height).index c) false = false := by
    rw [blank, Array.getD_eq_getD_getElem?, Array.getElem?_replicate]
    split <;> rfl
  rw [isBorder, hflag, Bool.and_false]

theorem isBorder_iff : m.isBorder c = true ↔ m.contains c = true ∧ m.cells.getD (m.index c) false = true := by
  simp only [isBorder, Bool.and_eq_true]

@[simp] theorem width_markCell : (m.markCell c).width = m.width := by unfold markCell; split <;> rfl
@[simp] theorem height_markCell : (m.markCell c).height = m.height := by unfold markCell; split <;> rfl

@[simp] theorem size_markCell : (m.markCell c).cells.size = m.cells.size := by
  unfold markCell
  split
  · simp
  · rfl

/-- Marking a cell of the mask marks that cell and no other. -/
theorem isBorder_markCell (hsize : m.cells.size = m.width * m.height) (hc : m.contains c = true) :
    (m.markCell c).isBorder d = true ↔ d = c ∨ m.isBorder d = true := by
  have hb : (m.markCell c).isBorder d
      = (m.contains d && (m.cells.setIfInBounds (m.index c) true).getD (m.index d) false) := by
    simp only [markCell, hc, if_true]
    rfl
  rw [hb, Bool.and_eq_true, isBorder_iff]
  by_cases hd : m.contains d = true
  · rw [flag_set hsize hc hd]
    simp [hd]
  · have hne : d ≠ c := fun e => hd (e ▸ hc)
    simp [hd, hne]

theorem markCell_markCell (m : BorderMask) (c : Cell) : (m.markCell c).markCell c = m.markCell c := by
  by_cases h : m.contains c = true
  · have hmark : m.markCell c = { m with cells := m.cells.setIfInBounds (m.index c) true } := by
      simp only [markCell, h, if_true]
    have h' : (m.markCell c).contains c = true := by rwa [contains_iff, width_markCell, height_markCell, ← contains_iff]
    rw [markCell, if_pos h', hmark]
    simp only [index, Array.setIfInBounds_setIfInBounds]
  · have hmark : m.markCell c = m := by
      rw [markCell, if_neg h]
    rw [hmark, hmark]

/-- Marking some cells marks those of them that are in the mask, and no others. -/
theorem isBorder_foldl_markCell (hsize : m.cells.size = m.width * m.height) (cells : List Cell) :
    (cells.foldl markCell m).isBorder d = true
      ↔ m.contains d = true ∧ d ∈ cells ∨ m.isBorder d = true := by
  induction cells generalizing m with
  | nil => simp
  | cons c cells ih =>
    have hsize' : (m.markCell c).cells.size = (m.markCell c).width * (m.markCell c).height := by simpa using hsize
    have hcontains : (m.markCell c).contains d = m.contains d := by simp [contains]
    rw [List.foldl_cons, ih hsize', hcontains, List.mem_cons]
    by_cases hc : m.contains c = true
    · rw [isBorder_markCell hsize hc]
      constructor
      · intro h
        rcases h with ⟨hd, hmem⟩ | rfl | hd
        · exact .inl ⟨hd, .inr hmem⟩
        · exact .inl ⟨hc, .inl rfl⟩
        · exact .inr hd
      · intro h
        rcases h with ⟨hd, rfl | hmem⟩ | hd
        · exact .inr (.inl rfl)
        · exact .inl ⟨hd, hmem⟩
        · exact .inr (.inr hd)
    · have hmark : m.markCell c = m := by rw [markCell, if_neg hc]
      rw [hmark]
      constructor
      · intro h
        rcases h with ⟨hd, hmem⟩ | hd
        · exact .inl ⟨hd, .inr hmem⟩
        · exact .inr hd
      · intro h
        rcases h with ⟨hd, rfl | hmem⟩ | hd
        · exact absurd hd hc
        · exact .inl ⟨hd, hmem⟩
        · exact .inr hd

@[simp] theorem width_foldl_markCell (cells : List Cell) : (cells.foldl markCell m).width = m.width := by
  induction cells generalizing m with
  | nil => rfl
  | cons c cells ih => rw [List.foldl_cons, ih, width_markCell]

@[simp] theorem height_foldl_markCell (cells : List Cell) : (cells.foldl markCell m).height = m.height := by
  induction cells generalizing m with
  | nil => rfl
  | cons c cells ih => rw [List.foldl_cons, ih, height_markCell]

@[simp] theorem size_foldl_markCell (cells : List Cell) : (cells.foldl markCell m).cells.size = m.cells.size := by
  induction cells generalizing m with
  | nil => rfl
  | cons c cells ih => rw [List.foldl_cons, ih, size_markCell]

/-- A cell is marked as the point that it is. -/
theorem mark_cell (m : BorderMask) (c : Cell) : m.mark c.x c.y = m.markCell c := by
  simp [mark]

/-! ## Points, moved to the nearest cell -/

@[simp] theorem width_markClamped (x y : Int) : (m.markClamped x y).width = m.width := by
  unfold markClamped
  split <;> simp

@[simp] theorem height_markClamped (x y : Int) : (m.markClamped x y).height = m.height := by
  unfold markClamped
  split <;> simp

@[simp] theorem size_markClamped (x y : Int) : (m.markClamped x y).cells.size = m.cells.size := by
  unfold markClamped
  split <;> simp

/-- Marking a point marks the cell nearest to it and no other; a mask without cells stays as it is. -/
theorem isBorder_markClamped (hsize : m.cells.size = m.width * m.height) (x y : Int) :
    (m.markClamped x y).isBorder d = true ↔ m.contains d = true ∧ d = m.nearest x y ∨ m.isBorder d = true := by
  unfold markClamped
  split
  · rename_i hempty
    rw [Bool.or_eq_true, decide_eq_true_iff, decide_eq_true_iff] at hempty
    have hd : ¬ m.contains d = true := by
      rw [contains_iff]
      omega
    simp [hd]
  · rename_i hne
    rw [Bool.or_eq_true, decide_eq_true_iff, decide_eq_true_iff] at hne
    have hc : m.contains (m.nearest x y) = true := by
      rw [contains_iff]
      unfold nearest
      dsimp only
      omega
    rw [isBorder_markCell hsize hc]
    constructor
    · rintro (rfl | h)
      · exact .inl ⟨hc, rfl⟩
      · exact .inr h
    · rintro (⟨-, h⟩ | h)
      · exact .inl h
      · exact .inr h

theorem markClamped_markClamped (m : BorderMask) (x y : Int) :
    (m.markClamped x y).markClamped x y = m.markClamped x y := by
  by_cases h : (m.width = 0 || m.height = 0)
  · have hmark : m.markClamped x y = m := by
      rw [markClamped, if_pos h]
    rw [hmark, hmark]
  · have hmark : m.markClamped x y = m.markCell (m.nearest x y) := by
      rw [markClamped, if_neg h]
    have hnearest : (m.markCell (m.nearest x y)).nearest x y = m.nearest x y := by
      unfold nearest
      rw [width_markCell, height_markCell]
    rw [hmark, markClamped, width_markCell, height_markCell, if_neg h, hnearest, markCell_markCell]

end BorderMask

/-! ## Pixels -/

namespace Frame

variable {f : Frame} {c d : Cell} {p : Pixel}

@[simp] theorem width_set (x y : Nat) : (f.set x y p).width = f.width := by unfold set; split <;> rfl
@[simp] theorem height_set (x y : Nat) : (f.set x y p).height = f.height := by unfold set; split <;> rfl

theorem get?_eq_none_of_outside (h : ¬(c.x < f.width ∧ c.y < f.height)) : f.get? c.x c.y = none := by
  simp [get?, h]

/-- Writing one pixel is not seen at any other. -/
theorem get?_set :
    (f.set c.x c.y p).get? d.x d.y = if d = c then (f.get? d.x d.y).map fun _ => p else f.get? d.x d.y := by
  by_cases hc : c.x < f.width ∧ c.y < f.height
  · have hs : f.set c.x c.y p = { f with pixels := f.pixels.setIfInBounds (c.y * f.width + c.x) p } := by
      simp [set, hc]
    rw [hs]
    by_cases hd : d.x < f.width ∧ d.y < f.height
    · simp only [get?, hd, decide_true, Bool.and_self, if_true, Array.getElem?_setIfInBounds]
      by_cases e : d = c
      · subst e
        by_cases hlt : d.y * f.width + d.x < f.pixels.size
        · simp [hlt]
        · simp [hlt]
      · have : c.y * f.width + c.x ≠ d.y * f.width + d.x := fun h => e (cell_ext_index hc.1 hd.1 h).symm
        simp [e, this]
    · rw [get?_eq_none_of_outside (by simpa using hd), get?_eq_none_of_outside hd]
      simp
  · have hs : f.set c.x c.y p = f := by simp [set, hc]
    rw [hs]
    split
    · rename_i e
      rw [e, get?_eq_none_of_outside hc]
      rfl
    · rfl

@[simp] theorem width_blend (x y : Nat) : (f.blend x y p).width = f.width := by
  unfold blend
  split
  · simp
  · rfl

@[simp] theorem height_blend (x y : Nat) : (f.blend x y p).height = f.height := by
  unfold blend
  split
  · simp
  · rfl

/-- Drawing over one pixel is not seen at any other. -/
theorem get?_blend : (f.blend c.x c.y p).get? d.x d.y
    = if d = c then (f.get? d.x d.y).map p.sourceOver else f.get? d.x d.y := by
  unfold blend
  split
  · rename_i below h
    rw [get?_set]
    split
    · rename_i e
      rw [e, h, Option.map_some, Option.map_some]
    · rfl
  · rename_i h
    split
    · rename_i e
      rw [e, h, Option.map_none]
    · rfl

section

variable (cells : List Cell) (p : Pixel)

@[simp] theorem width_foldl_blend : (cells.foldl (fun f c => f.blend c.x c.y p) f).width = f.width := by
  induction cells generalizing f with
  | nil => rfl
  | cons d cells ih => rw [List.foldl_cons, ih, width_blend]

@[simp] theorem height_foldl_blend : (cells.foldl (fun f c => f.blend c.x c.y p) f).height = f.height := by
  induction cells generalizing f with
  | nil => rfl
  | cons d cells ih => rw [List.foldl_cons, ih, height_blend]

/-- Each time that a cell is listed, the pixel is drawn over it once more. -/
theorem get?_foldl_blend_count : (cells.foldl (fun f c => f.blend c.x c.y p) f).get? c.x c.y
    = (f.get? c.x c.y).map p.sourceOver^[cells.count c] := by
  induction cells generalizing f with
  | nil => rw [List.foldl_nil, List.count_nil, Function.iterate_zero, Option.map_id_fun, id]
  | cons d cells ih =>
    rw [List.foldl_cons, ih, get?_blend]
    by_cases hd : c = d
    · subst hd
      rw [if_pos rfl, List.count_cons_self, Option.map_map, Function.iterate_succ]
    · rw [if_neg hd, List.count_cons_of_ne (Ne.symm hd)]

end

end Frame

end VectorRaster
