/-
  VectorRaster.Proofs.Raster.Marks — a stroke leaves the cells of its stamps marked.

  No stroke takes a mark away (`kept_holding`), and a stamp marks the cell nearest to it. So after a
  piece is drawn, each of its stamps on the surface is a border cell (`isBorder_drawPiece`).
-/

import VectorRaster.Proofs.Raster.Shortcut
import VectorRaster.Proofs.Raster.Strokes

namespace VectorRaster

/-- A canvas whose border has the size of its frame. -/
structure Canvas.Matched (canvas : Canvas) : Prop where
  width : canvas.border.width = canvas.frame.width
  height : canvas.border.height = canvas.frame.height
  size : canvas.border.cells.size = canvas.border.width * canvas.border.height

/-- A canvas of one size whose border holds some cells. -/
structure Canvas.Holding (cells : Cell → Prop) (width height : Nat) (canvas : Canvas) : Prop where
  frameWidth : canvas.frame.width = width
  frameHeight : canvas.frame.height = height
  borderWidth : canvas.border.width = width
  borderHeight : canvas.border.height = height
  size : canvas.border.cells.size = canvas.border.width * canvas.border.height
  isBorder : ∀ c, cells c → canvas.border.isBorder c = true

namespace Canvas.Holding

variable {cells : Cell → Prop} {width height : Nat} {canvas : Canvas} {c : Cell}

theorem contains (h : canvas.Holding cells width height) (hx : c.x < width) (hy : c.y < height) :
    canvas.border.contains c = true := by
  rw [BorderMask.contains_iff, h.borderWidth, h.borderHeight]
  exact ⟨hx, hy⟩

theorem paint (h : canvas.Holding cells width height) (color : Pixel) (hx : c.x < width) (hy : c.y < height) :
    (canvas.paint color c).Holding cells width height := by
  have hc := h.contains hx hy
  refine ⟨?_, ?_, ?_, ?_, ?_, fun d hd => ?_⟩
  · simpa [Canvas.paint] using h.frameWidth
  · simpa [Canvas.paint] using h.frameHeight
  · simpa [Canvas.paint] using h.borderWidth
  · simpa [Canvas.paint] using h.borderHeight
  · simpa [Canvas.paint] using h.size
  · exact (BorderMask.isBorder_markCell h.size hc).mpr (.inr (h.isBorder d hd))

theorem mark (h : canvas.Holding cells width height) (g : GridPoint) :
    (canvas.markClamped g).Holding cells width height := by
  rw [markClamped_eq]
  refine ⟨h.frameWidth, h.frameHeight, by simpa using h.borderWidth, by simpa using h.borderHeight,
    by simpa using h.size, fun d hd => ?_⟩
  exact (BorderMask.isBorder_markClamped h.size _ _).mpr (.inr (h.isBorder d hd))

end Canvas.Holding

theorem Canvas.Matched.holding {canvas : Canvas} (h : canvas.Matched) :
    canvas.Holding (fun _ => False) canvas.frame.width canvas.frame.height :=
  ⟨rfl, rfl, h.width, h.height, h.size, fun _ hd => hd.elim⟩

/-- Strokes keep the sizes of their canvas and all marks. -/
theorem kept_holding (cells : Cell → Prop) (width height : Nat) (color? : Option Pixel) :
    Kept (fun a b => a = b ∧ a.Holding cells width height) color? color? where
  isSome := rfl
  sameSizes := by
    rintro a _ ⟨rfl, -⟩
    exact ⟨rfl, rfl, rfl, rfl⟩
  paint := by
    rintro a _ c p q hp hq ⟨rfl, h⟩ hx hy
    cases hp.symm.trans hq
    rw [h.frameWidth] at hx
    rw [h.frameHeight] at hy
    exact ⟨rfl, h.paint p hx hy⟩
  mark := by
    rintro a _ g ⟨rfl, h⟩
    exact ⟨rfl, h.mark g⟩

/-! ## Stamps -/

/-- A point on the surface has the coordinates of its cell. -/
theorem GridPoint.toInt_of_cell? {g : GridPoint} {width height : Nat} {c : Cell} (h : g.cell? width height = some c) :
    g.x.toInt = c.x ∧ g.y.toInt = c.y := by
  have hword : ∀ x : Int64, ¬ x < 0 → x.toInt = x.toUInt64.toNat := by
    intro x hx
    have hx' : 0 ≤ x := Int64.not_lt.mp hx
    have h0 : (0 : Int) ≤ x.toInt := Int64.le_iff_toInt_le.mp hx'
    rw [Int64.toNat_toUInt64_of_le hx', Int64.toNatClampNeg, Int.toNat_of_nonneg h0]
  unfold cell? at h
  split at h
  · cases h
  · rename_i hneg
    rw [Bool.or_eq_true, decide_eq_true_iff, decide_eq_true_iff, not_or] at hneg
    dsimp only at h
    split at h
    · cases h
      exact ⟨hword g.x hneg.1, hword g.y hneg.2⟩
    · cases h

/-- On the surface, the cell nearest to a point is its own. -/
theorem GridPoint.nearest_of_cell? {g : GridPoint} {m : BorderMask} {c : Cell} (h : g.cell? m.width m.height = some c) :
    m.nearest g.x.toInt g.y.toInt = c := by
  obtain ⟨hx, hy⟩ := toInt_of_cell? h
  obtain ⟨hw, hh⟩ := lt_of_cell? h
  have hcx : min g.x.toInt.toNat (m.width - 1) = c.x := by omega
  have hcy : min g.y.toInt.toNat (m.height - 1) = c.y := by omega
  rw [BorderMask.nearest, hcx, hcy]

/-- The cell of a surface of this size that is nearest to a point. -/
def GridPoint.clampedTo (g : GridPoint) (width height : Nat) : Cell :=
  ⟨min g.x.toInt.toNat (width - 1), min g.y.toInt.toNat (height - 1)⟩

theorem GridPoint.nearest_eq_clampedTo (m : BorderMask) (g : GridPoint) :
    m.nearest g.x.toInt g.y.toInt = g.clampedTo m.width m.height := rfl

theorem GridPoint.clampedTo_of_cell? {g : GridPoint} {width height : Nat} {c : Cell} (h : g.cell? width height = some c) :
    g.clampedTo width height = c :=
  nearest_of_cell? (m := .blank width height) h

namespace Brush

variable {b : Brush} {canvas : Canvas} {width height : Nat} {g : GridPoint} {c : Cell}

/-- Every stamp ends with its mark. -/
theorem exists_stamp_eq {cells : Cell → Prop} (b : Brush) (h : canvas.Holding cells width height) (g : GridPoint) :
    ∃ canvas' : Canvas, canvas'.Holding cells width height ∧ b.stamp canvas g = canvas'.markClamped g := by
  obtain ⟨color?, radius⟩ := b
  unfold stamp
  split
  · exact ⟨canvas, h, rfl⟩
  · cases color? with
    | none => exact ⟨canvas, h, rfl⟩
    | some color =>
      have hrings := List.foldl_rel (l := List.range (reach ⟨some color, radius⟩)) (f := ring color g) (g := ring color g)
        (a := canvas) (b := canvas) (r := fun a b => a = b ∧ a.Holding cells width height) ⟨rfl, h⟩
        fun r _ _ _ hP => (kept_holding cells width height (some color)).ring hP g r
      exact ⟨_, hrings.2, rfl⟩

theorem holding_stamp {cells : Cell → Prop} (h : canvas.Holding cells width height) (g : GridPoint) :
    (b.stamp canvas g).Holding cells width height := by
  obtain ⟨canvas', h', he⟩ := exists_stamp_eq b h g
  rw [he]
  exact h'.mark g

theorem holding_foldl_stamp {cells : Cell → Prop} (h : canvas.Holding cells width height) (gs : List GridPoint) :
    (gs.foldl b.stamp canvas).Holding cells width height := by
  induction gs generalizing canvas with
  | nil => exact h
  | cons g gs ih => exact ih (holding_stamp h g)

/-- A stamp marks the cell nearest to it, on a surface that has cells. -/
theorem isBorder_stamp {cells : Cell → Prop} (h : canvas.Holding cells width height) (hwidth : 0 < width)
    (hheight : 0 < height) (g : GridPoint) : (b.stamp canvas g).border.isBorder (g.clampedTo width height) = true := by
  obtain ⟨canvas', h', he⟩ := exists_stamp_eq b h g
  rw [he, Canvas.markClamped_eq]
  refine (BorderMask.isBorder_markClamped h'.size _ _).mpr (.inl ⟨?_, ?_⟩)
  · exact h'.contains (show min _ _ < width by omega) (show min _ _ < height by omega)
  · rw [GridPoint.nearest_eq_clampedTo, h'.borderWidth, h'.borderHeight]

theorem isBorder_foldl_stamp {cells : Cell → Prop} (h : canvas.Holding cells width height) (hwidth : 0 < width)
    (hheight : 0 < height) {gs : List GridPoint} (hg : g ∈ gs) :
    (gs.foldl b.stamp canvas).border.isBorder (g.clampedTo width height) = true := by
  induction gs generalizing canvas with
  | nil => cases hg
  | cons g' gs ih =>
    rcases List.mem_cons.mp hg with rfl | hg
    · -- the mark of this stamp outlasts the others
      have hmarked : (b.stamp canvas g).Holding (fun d => d = g.clampedTo width height) width height := by
        have hsizes := holding_stamp (b := b) h g
        exact ⟨hsizes.frameWidth, hsizes.frameHeight, hsizes.borderWidth, hsizes.borderHeight, hsizes.size,
          fun d hd => hd ▸ isBorder_stamp h hwidth hheight g⟩
      exact (holding_foldl_stamp hmarked gs).isBorder _ rfl
    · exact ih (holding_stamp h g') hg

/-- The cells that a piece is stamped at are in the border. -/
theorem isBorder_drawPiece (h : canvas.Matched) {piece : Primitive Float}
    (hg : g ∈ b.stamps canvas.frame piece.controlPoints)
    (hc : g.cell? canvas.frame.width canvas.frame.height = some c) :
    (b.drawPiece canvas piece).border.isBorder c = true := by
  obtain ⟨hwidth, hheight⟩ := GridPoint.lt_of_cell? hc
  rw [drawPiece_eq, drawCurve_eq_foldl, ← GridPoint.clampedTo_of_cell? hc]
  exact isBorder_foldl_stamp h.holding (Nat.zero_lt_of_lt hwidth) (Nat.zero_lt_of_lt hheight) hg

end Brush

end VectorRaster
