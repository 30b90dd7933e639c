/-
  VectorRaster.Proofs.Raster.Rows — a surface as the list of its cells, row by row.

  A surface keeps one entry for each cell in a single list. Going through that list from the front
  goes through the cells row by row: the entry at an index belongs to the cell whose column is the
  remainder of the index by the width and whose row is the quotient (`all_eq_map_range`). So what
  is kept is known from what is found at each cell (`toList_eq_map_all`), and two frames of one size
  with the same pixels are the same frame (`Sized.ext`).
-/

import VectorRaster.Proofs.Raster.Sizes

namespace VectorRaster

/-! ## Cells by index -/

/-- The cell whose entry is kept at an index. -/
def Cell.ofIndex (width i : Nat) : Cell := ⟨i % width, i / width⟩

variable {width height i : Nat}

theorem Cell.ofIndex_index {c : Cell} (hx : c.x < width) : ofIndex width (c.y * width + c.x) = c := by
  have hcolumn : (c.y * width + c.x) % width = c.x := by rw [Nat.mul_add_mod_self_right, Nat.mod_eq_of_lt hx]
  have hrow : (c.y * width + c.x) / width = c.y := by
    rw [Nat.mul_comm, Nat.mul_add_div (Nat.zero_lt_of_lt hx), Nat.div_eq_of_lt hx, Nat.add_zero]
  rw [ofIndex, hcolumn, hrow]

/-- Every index of a surface is that of one of its cells. -/
theorem Cell.ofIndex_spec (h : i < width * height) : (ofIndex width i).x < width ∧ (ofIndex width i).y < height ∧
    (ofIndex width i).y * width + (ofIndex width i).x = i :=
  ⟨Nat.mod_lt i (Nat.pos_of_lt_mul_right h), Nat.div_lt_of_lt_mul h, Nat.div_add_mod' i width⟩

theorem Cell.all_eq_map_range (width height : Nat) :
    Cell.all width height = (List.range (width * height)).map (ofIndex width) := by
  induction height with
  | zero => rfl
  | succ height ih =>
    have hrow : (List.range width).map (fun x => (⟨x, height⟩ : Cell))
        = (List.range width).map fun x => ofIndex width (width * height + x) := by
      refine List.map_congr_left fun x hx => ?_
      rw [Nat.mul_comm]
      exact (@ofIndex_index width ⟨x, height⟩ (List.mem_range.mp hx)).symm
    rw [Nat.mul_succ, List.range_add, List.map_append, List.map_map, ← ih, all, all, List.range_succ,
      List.flatMap_append, List.flatMap_singleton, hrow]
    rfl

theorem Cell.length_all (width height : Nat) : (Cell.all width height).length = width * height := by
  rw [all_eq_map_range, List.length_map, List.length_range]

theorem zipIdx_map_range {α : Type} (f : Nat → α) (n : Nat) :
    ((List.range n).map f).zipIdx = (List.range n).map fun i => (f i, i) := by
  refine List.ext_getElem (by simp) fun i h₁ h₂ => ?_
  simp

/-- What is kept for each cell, in the order in which it is kept. -/
theorem toList_eq_map_all {α : Type} {kept : Array α} (hsize : kept.size = width * height) (f : Cell → α)
    (h : ∀ c : Cell, c.x < width → c.y < height → kept[c.y * width + c.x]? = some (f c)) :
    kept.toList = (Cell.all width height).map f := by
  refine List.ext_getElem (by rw [List.length_map, Cell.length_all, Array.length_toList, hsize]) fun i hi _ => ?_
  have hlt : i < width * height := by rwa [Array.length_toList, hsize] at hi
  obtain ⟨hx, hy, hindex⟩ := Cell.ofIndex_spec hlt
  have hentry := h (Cell.ofIndex width i) hx hy
  rw [hindex, Array.getElem?_eq_getElem (by rwa [hsize]), Option.some.injEq] at hentry
  simp only [Cell.all_eq_map_range, List.getElem_map, List.getElem_range, Array.getElem_toList, hentry]

/-! ## Frames -/

namespace Frame

variable {f g : Frame}

theorem Sized.getElem?_index (h : f.Sized width height) {c : Cell} (hx : c.x < width) (hy : c.y < height) :
    f.pixels[c.y * width + c.x]? = some (f.pixel c.x c.y) := by
  have hget := h.get? hx hy
  rw [Frame.get?, h.width, h.height, decide_eq_true hx, decide_eq_true hy, Bool.and_self, if_pos rfl] at hget
  exact hget

/-- The pixels of a frame are kept row by row. -/
theorem Sized.toList_pixels (h : f.Sized width height) :
    f.pixels.toList = (Cell.all width height).map fun c => f.pixel c.x c.y :=
  toList_eq_map_all h.pixels _ fun _ hx hy => h.getElem?_index hx hy

theorem Sized.ext (hf : f.Sized width height) (hg : g.Sized width height)
    (h : ∀ x < width, ∀ y < height, f.get? x y = g.get? x y) : f = g := by
  have hpixels : f.pixels = g.pixels := by
    apply Array.toList_inj.mp
    rw [hf.toList_pixels, hg.toList_pixels]
    refine List.map_congr_left fun c hc => ?_
    obtain ⟨hx, hy⟩ := mem_all.mp hc
    rw [pixel, pixel, h c.x hx c.y hy]
  obtain ⟨w, h, pixels⟩ := f
  obtain ⟨w', h', pixels'⟩ := g
  cases hf.width.trans hg.width.symm
  cases hf.height.trans hg.height.symm
  cases hpixels
  rfl

end Frame

end VectorRaster
