/-
  VectorRaster.Proofs.Raster.Extent — how far from its control points a curve is marked, exactly.

  A curve is stamped at points of its own, the first and the last of which are its ends (`samples`). In exact
  arithmetic these are in the box of the control points, and a stamp marks what its circles come to and the cell nearest
  to its center. So what a curve marks is in that box, grown by less than the radius, but for the cells nearest to
  samples outside the surface; and curves with a common end have a common cell there.

  The words of a stamp can overflow if the radius is next to the last word. What is said of all radii is said of the
  same stamps with their circles in integers (`fullCurve`), which is what is drawn if nothing overflows.

  Main statement: `drawCurve_extent`.
-/

import VectorRaster.Proofs.Fill.Regions
import VectorRaster.Proofs.Geometry.Hull
import VectorRaster.Proofs.Raster.Stamps

namespace VectorRaster

open Numeric

/-! ## Samples -/

/-- The point is the first or the last. -/
def Curve.IsEnd {α : Type} (points : List (Point α)) (q : Point α) : Prop :=
  points.head? = some q ∨ points.getLast? = some q

theorem BinomialTable.fits_three : Fits 3 := by decide +kernel

namespace Curve

variable {count i : ℕ}

theorem position_bounds (hcount : 1 ≤ count) (hi : i ≤ count) :
    (0 : ℚ) ≤ position count i ∧ position count i ≤ (1 : ℚ) := by
  have hpos : (0 : ℚ) < count := by exact_mod_cast hcount
  have hle : (i : ℚ) ≤ count := by exact_mod_cast hi
  exact ⟨div_nonneg (Nat.cast_nonneg i) hpos.le, (div_le_one hpos).mpr hle⟩

theorem position_zero (count : ℕ) : position count 0 = (0 : ℚ) := by
  rw [position, ofCount_eq_cast, Nat.cast_zero, zero_div]

theorem position_self (hcount : 1 ≤ count) : position count count = (1 : ℚ) :=
  div_self (Nat.cast_ne_zero.mpr (Nat.ne_of_gt hcount))

end Curve

namespace Brush

/-- The points of a curve that are stamped, in order. -/
def samples {α : Type} [Scalar α] (b : Brush) (frame : Frame) (points : List (Point α)) : List (Point α) :=
  (List.range (b.stepCount frame points + 1)).map fun i =>
    Curve.evaluate .forCurves points (Curve.position (b.stepCount frame points) i)

theorem stamps_eq_map {α : Type} [Scalar α] (b : Brush) (frame : Frame) (points : List (Point α)) :
    b.stamps frame points = (b.samples frame points).map .nearest := by
  rw [samples, List.map_map]
  rfl

variable {b : Brush} {frame : Frame} {p q : Point ℚ} {ps : List (Point ℚ)}

theorem holds_of_mem_samples (hps : ps.length ≤ 3) (hq : q ∈ b.samples frame (p :: ps)) :
    (Curve.boundingBox p ps).Holds q := by
  obtain ⟨i, hi, rfl⟩ := List.mem_map.mp hq
  have hi : i ≤ b.stepCount frame (p :: ps) := Nat.le_of_lt_succ (List.mem_range.mp hi)
  obtain ⟨h0, h1⟩ := Curve.position_bounds (b.stepCount_spec frame (p :: ps)).1 hi
  exact Curve.boundingBox_holds BinomialTable.fits_three hps h0 h1

theorem head?_samples (hps : ps.length ≤ 3) : (b.samples frame (p :: ps)).head? = some p := by
  rw [samples, List.range_succ_eq_map, List.map_cons, List.head?_cons, Curve.position_zero]
  exact congrArg some (Curve.evaluate_zero BinomialTable.fits_three hps)

theorem getLast?_samples (hps : ps.length ≤ 3) : (b.samples frame (p :: ps)).getLast? = (p :: ps).getLast? := by
  rw [samples, List.range_succ, List.map_append, List.map_singleton, List.getLast?_concat,
    Curve.position_self (b.stepCount_spec frame (p :: ps)).1]
  exact (Curve.getLast?_evaluate_one BinomialTable.fits_three hps).symm

theorem mem_samples_of_isEnd (hps : ps.length ≤ 3) (hq : Curve.IsEnd (p :: ps) q) : q ∈ b.samples frame (p :: ps) := by
  rcases hq with hfirst | hlast
  · rw [List.head?_cons] at hfirst
    exact List.mem_of_head? ((head?_samples hps).trans hfirst)
  · exact List.mem_of_getLast? ((getLast?_samples hps).trans hlast)

end Brush

/-! ## Marks of one stamp -/

/-- What is nearest to a point outside a surface is on its edge. -/
theorem GridPoint.onEdge_clampedTo {g : GridPoint} {width height : ℕ} (hg : g.cell? width height = none)
    (hwidth : 0 < width) (hheight : 0 < height) : (BorderMask.blank width height).OnEdge (g.clampedTo width height) := by
  have hout : ¬(0 ≤ g.x.toInt ∧ g.x.toInt < width ∧ 0 ≤ g.y.toInt ∧ g.y.toInt < height) := by
    intro hin
    have hcell : g.cell? width height = some ⟨g.x.toInt.toNat, g.y.toInt.toNat⟩ := by
      rw [cell?_eq_some_iff]
      dsimp only
      omega
    cases hg.symm.trans hcell
  unfold BorderMask.OnEdge clampedTo BorderMask.blank
  dsimp only
  omega

namespace Brush

variable {b : Brush} {canvas : Canvas} {frame : Frame} {g : GridPoint} {width height : ℕ} {c : Cell}

/-- What a stamp marks: what it paints, and the cell nearest to its center. -/
def Marks (b : Brush) (width height : ℕ) (g : GridPoint) (c : Cell) : Prop :=
  b.Paints width height g c ∨ (c.x < width ∧ c.y < height) ∧ c = g.clampedTo width height

/-- A marked cell is less than the radius from the center, or the center is outside the surface. -/
theorem Marks.near (h : b.Marks width height g c) :
    |(c.x : ℤ) - g.x.toInt| ≤ (b.radius - 1 : ℕ) ∧ |(c.y : ℤ) - g.y.toInt| ≤ (b.radius - 1 : ℕ) ∨
      g.cell? width height = none ∧ c = g.clampedTo width height ∧ (BorderMask.blank width height).OnEdge c := by
  rcases h with hpaints | ⟨⟨hwidth, hheight⟩, hclamped⟩
  · obtain ⟨hx, hy⟩ := abs_lt_of_mem_dabs (paints_iff.mp hpaints).2
    have hreach : b.reach ≤ b.radius := min_le_left _ _
    exact .inl ⟨by omega, by omega⟩
  · cases hcell : g.cell? width height with
    | none =>
      have hedge := GridPoint.onEdge_clampedTo hcell (Nat.zero_lt_of_lt hwidth) (Nat.zero_lt_of_lt hheight)
      exact .inr ⟨rfl, hclamped, hclamped ▸ hedge⟩
    | some d =>
      rw [GridPoint.clampedTo_of_cell? hcell] at hclamped
      obtain ⟨hx, hy⟩ := GridPoint.toInt_of_cell? hcell
      rw [hclamped, hx, hy, sub_self, sub_self, abs_zero]
      exact .inl ⟨Int.natCast_nonneg _, Int.natCast_nonneg _⟩

theorem isBorder_fullStamp_iff_marks (h : canvas.Matched) : (b.fullStamp canvas g).border.isBorder c = true ↔
    canvas.border.isBorder c = true ∨ b.Marks canvas.frame.width canvas.frame.height g c := by
  rw [isBorder_fullStamp_iff h, Marks, BorderMask.contains_iff, GridPoint.nearest_eq_clampedTo, h.width, h.height]

theorem sameSizes_fullStamp (b : Brush) (canvas : Canvas) (g : GridPoint) : (b.fullStamp canvas g).SameSizes canvas := by
  cases hcolor : b.color? with
  | none =>
    rw [fullStamp_of_colorless hcolor, Canvas.markClamped_eq]
    exact ⟨rfl, rfl, BorderMask.width_markClamped _ _, BorderMask.height_markClamped _ _⟩
  | some color =>
    rw [fullStamp_of_color hcolor, Canvas.markClamped_eq]
    exact ⟨by simp, by simp, by simp, by simp⟩

theorem size_cells_fullStamp (b : Brush) (canvas : Canvas) (g : GridPoint) :
    (b.fullStamp canvas g).border.cells.size = canvas.border.cells.size := by
  cases hcolor : b.color? with
  | none => simp [fullStamp_of_colorless hcolor, Canvas.markClamped_eq]
  | some color => simp [fullStamp_of_color hcolor, Canvas.markClamped_eq]

theorem matched_fullStamp (h : canvas.Matched) (g : GridPoint) : (b.fullStamp canvas g).Matched := by
  have hsizes := b.sameSizes_fullStamp canvas g
  refine ⟨?_, ?_, ?_⟩
  · rw [hsizes.borderWidth, hsizes.frameWidth, h.width]
  · rw [hsizes.borderHeight, hsizes.frameHeight, h.height]
  · rw [size_cells_fullStamp, hsizes.borderWidth, hsizes.borderHeight, h.size]

/-! ## Marks of a curve -/

theorem isBorder_foldl_fullStamp_iff (h : canvas.Matched) (gs : List GridPoint) :
    (gs.foldl b.fullStamp canvas).border.isBorder c = true ↔
      canvas.border.isBorder c = true ∨ ∃ g ∈ gs, b.Marks canvas.frame.width canvas.frame.height g c := by
  induction gs generalizing canvas with
  | nil => simp
  | cons g gs ih =>
    have hsizes := b.sameSizes_fullStamp canvas g
    rw [List.foldl_cons, ih (matched_fullStamp h g), isBorder_fullStamp_iff_marks h, hsizes.frameWidth,
      hsizes.frameHeight, or_assoc, List.exists_mem_cons_iff]

end Brush

/-- A surface on which nothing is marked. -/
def Canvas.unmarked (frame : Frame) : Canvas := ⟨frame, .blank frame.width frame.height⟩

theorem Canvas.matched_unmarked (frame : Frame) : (unmarked frame).Matched :=
  ⟨rfl, rfl, Array.size_replicate⟩

namespace Brush

variable {b : Brush} {canvas : Canvas} {frame : Frame} {points : List (Point ℚ)} {p q : Point ℚ} {ps : List (Point ℚ)}
  {c : Cell}

/-- A curve with its stamps in integers of any size. -/
def fullCurve (b : Brush) (frame : Frame) (points : List (Point ℚ)) : Canvas :=
  ((b.samples frame points).map .nearest).foldl b.fullStamp (.unmarked frame)

theorem isBorder_fullCurve_iff : (b.fullCurve frame points).border.isBorder c = true ↔
    ∃ q ∈ b.samples frame points, b.Marks frame.width frame.height (.nearest q) c := by
  have hblank : (Canvas.unmarked frame).border.isBorder c = false := BorderMask.isBorder_blank _ _ c
  rw [fullCurve, isBorder_foldl_fullStamp_iff (Canvas.matched_unmarked frame), hblank]
  simp only [Bool.false_eq_true, false_or, List.mem_map, exists_exists_and_eq_and]
  rfl

theorem drawCurve_eq_foldl_samples (b : Brush) (frame : Frame) (points : List (Point ℚ)) :
    b.drawCurve (.unmarked frame) points = ((b.samples frame points).map .nearest).foldl b.stamp (.unmarked frame) := by
  rw [drawCurve_eq_foldl, stamps_eq_map]
  rfl

/-- If no stamp overflows, none does after others. -/
theorem foldl_stamp_eq_foldl_fullStamp {gs : List GridPoint}
    (h : ∀ g ∈ gs, stampIn Register.checked b canvas g ≠ none) : gs.foldl b.stamp canvas = gs.foldl b.fullStamp canvas := by
  induction gs generalizing canvas with
  | nil => rfl
  | cons g gs ih =>
    have hsizes := b.sameSizes_fullStamp canvas g
    rw [List.foldl_cons, List.foldl_cons, stamp_eq_fullStamp (h g List.mem_cons_self)]
    refine ih fun g' hg' => ?_
    rw [stampIn_checked_ne_none_iff, hsizes.frameWidth, hsizes.frameHeight, ← stampIn_checked_ne_none_iff]
    exact h g' (List.mem_cons_of_mem _ hg')

theorem stampIn_checked_of_size (canvas : Canvas) (hwidth : canvas.frame.width + 2 * b.radius ≤ 2 ^ 63)
    (hheight : canvas.frame.height + 2 * b.radius ≤ 2 ^ 63) (g : GridPoint) :
    stampIn Register.checked b canvas g ≠ none := by
  rw [stampIn_checked_ne_none_iff]
  cases hmiss : b.misses canvas.frame.width canvas.frame.height g with
  | true => exact .inl rfl
  | false => exact .inr (forall_hasRoom_iff.mpr (.inr (hasRoom_of_size hmiss hwidth hheight)))

/-- Every sample leaves its mark, whatever overflows. -/
theorem isBorder_drawCurve (hwidth : 0 < frame.width) (hheight : 0 < frame.height) (hq : q ∈ b.samples frame points) :
    (b.drawCurve (.unmarked frame) points).border.isBorder
      ((GridPoint.nearest q).clampedTo frame.width frame.height) = true := by
  rw [drawCurve_eq_foldl_samples]
  exact isBorder_foldl_stamp (Canvas.matched_unmarked frame).holding hwidth hheight (List.mem_map_of_mem hq)

end Brush

/-! ## The extent -/

/-- The cell is among the pixels of a box, grown by `margin` on every side. -/
def Curve.Box.Reaches (box : Box ℚ) (margin : ℕ) (c : Cell) : Prop :=
  ((GridPoint.nearest box.low).x.toInt - margin ≤ c.x ∧ (c.x : ℤ) ≤ (GridPoint.nearest box.high).x.toInt + margin) ∧
    (GridPoint.nearest box.low).y.toInt - margin ≤ c.y ∧ (c.y : ℤ) ≤ (GridPoint.nearest box.high).y.toInt + margin

theorem Curve.Box.Holds.reaches {box : Box ℚ} {q : Point ℚ} {margin : ℕ} {c : Cell} (h : box.Holds q)
    (hx : |(c.x : ℤ) - (GridPoint.nearest q).x.toInt| ≤ margin)
    (hy : |(c.y : ℤ) - (GridPoint.nearest q).y.toInt| ≤ margin) : box.Reaches margin c := by
  obtain ⟨⟨hlowX, hhighX⟩, hlowY, hhighY⟩ := h
  have hleft : (GridPoint.nearest box.low).x.toInt ≤ (GridPoint.nearest q).x.toInt := pixel_mono hlowX
  have hright : (GridPoint.nearest q).x.toInt ≤ (GridPoint.nearest box.high).x.toInt := pixel_mono hhighX
  have hup : (GridPoint.nearest box.low).y.toInt ≤ (GridPoint.nearest q).y.toInt := pixel_mono hlowY
  have hdown : (GridPoint.nearest q).y.toInt ≤ (GridPoint.nearest box.high).y.toInt := pixel_mono hhighY
  rw [abs_le] at hx hy
  exact ⟨⟨by omega, by omega⟩, by omega, by omega⟩

namespace Brush

/-- Where the curve of some control points is stamped and marked. -/
structure Extent (b : Brush) (frame : Frame) (p : Point ℚ) (ps : List (Point ℚ)) : Prop where
  drawCurve_eq : b.drawCurve (.unmarked frame) (p :: ps)
    = ((b.samples frame (p :: ps)).map .nearest).foldl b.stamp (.unmarked frame)
  holds : ∀ q ∈ b.samples frame (p :: ps), (Curve.boundingBox p ps).Holds q
  first : (b.samples frame (p :: ps)).head? = some p
  last : (b.samples frame (p :: ps)).getLast? = (p :: ps).getLast?
  /-- The pixels of both ends are marked; where they are outside, the cells nearest to them. -/
  isBorder_end : 0 < frame.width → 0 < frame.height → ∀ q, Curve.IsEnd (p :: ps) q →
    (b.drawCurve (.unmarked frame) (p :: ps)).border.isBorder
      ((GridPoint.nearest q).clampedTo frame.width frame.height) = true
  /-- A curve with a common end, of any brush, has a common cell. -/
  exists_common : 0 < frame.width → 0 < frame.height → ∀ (b' : Brush) (p' : Point ℚ) (ps' : List (Point ℚ)),
    ps'.length ≤ 3 → ∀ q, Curve.IsEnd (p :: ps) q → Curve.IsEnd (p' :: ps') q →
    ∃ c, (b.drawCurve (.unmarked frame) (p :: ps)).border.isBorder c = true ∧
      (b'.drawCurve (.unmarked frame) (p' :: ps')).border.isBorder c = true
  /-- A marked cell is in the grown box, or it is the cell nearest to a sample outside the surface. -/
  reaches : ∀ c, (b.fullCurve frame (p :: ps)).border.isBorder c = true →
    (Curve.boundingBox p ps).Reaches (b.radius - 1) c ∨
      ∃ q ∈ b.samples frame (p :: ps), (GridPoint.nearest q).cell? frame.width frame.height = none ∧
        c = (GridPoint.nearest q).clampedTo frame.width frame.height ∧
        (BorderMask.blank frame.width frame.height).OnEdge c
  /-- If no stamp overflows, this is what is drawn. -/
  eq_fullCurve : (∀ g ∈ b.stamps frame (p :: ps), stampIn Register.checked b (.unmarked frame) g ≠ none) →
    b.drawCurve (.unmarked frame) (p :: ps) = b.fullCurve frame (p :: ps)
  calculated : frame.width + 2 * b.radius ≤ 2 ^ 63 → frame.height + 2 * b.radius ≤ 2 ^ 63 →
    ∀ g ∈ b.stamps frame (p :: ps), stampIn Register.checked b (.unmarked frame) g ≠ none

/-- Every curve of at most four control points, on every surface and with every brush, keeps to the box of its control
points. -/
theorem drawCurve_extent (b : Brush) (frame : Frame) (p : Point ℚ) (ps : List (Point ℚ)) (hps : ps.length ≤ 3) :
    b.Extent frame p ps where
  drawCurve_eq := b.drawCurve_eq_foldl_samples frame (p :: ps)
  holds := fun q hq => holds_of_mem_samples hps hq
  first := head?_samples hps
  last := getLast?_samples hps
  isBorder_end := fun hwidth hheight q hq => isBorder_drawCurve hwidth hheight (mem_samples_of_isEnd hps hq)
  exists_common := by
    intro hwidth hheight b' p' ps' hps' q hq hq'
    exact ⟨_, isBorder_drawCurve hwidth hheight (mem_samples_of_isEnd hps hq),
      isBorder_drawCurve hwidth hheight (mem_samples_of_isEnd hps' hq')⟩
  reaches := by
    intro c hc
    obtain ⟨q, hq, hmarks⟩ := isBorder_fullCurve_iff.mp hc
    rcases hmarks.near with ⟨hx, hy⟩ | houtside
    · exact .inl ((holds_of_mem_samples hps hq).reaches hx hy)
    · exact .inr ⟨q, hq, houtside⟩
  eq_fullCurve := by
    intro h
    rw [stamps_eq_map] at h
    rw [drawCurve_eq_foldl_samples]
    exact foldl_stamp_eq_foldl_fullStamp h
  calculated := fun hwidth hheight g _ => stampIn_checked_of_size (.unmarked frame) hwidth hheight g

/-- A line from outside to the middle of a surface of six pixels by four. Its first end is moved to the left side, and
nothing is marked two pixels past its last end. -/
theorem drawCurve_extent_line :
    let b : Brush := ⟨some ⟨255, 0, 0, 255⟩, 2⟩
    let mask := (b.drawCurve (.unmarked (.blank 6 4)) [(⟨-2, 1⟩ : Point ℚ), ⟨3 / 2, 1⟩]).border
    [(⟨3 / 2, 1⟩ : Point ℚ)].length ≤ 3 ∧
      mask.isBorder ⟨0, 1⟩ = true ∧ mask.isBorder ⟨2, 1⟩ = true ∧ ¬mask.isBorder ⟨4, 1⟩ = true := by
  intro b mask
  have hps : [(⟨3 / 2, 1⟩ : Point ℚ)].length ≤ 3 := by decide
  have hextent := drawCurve_extent b (.blank 6 4) ⟨-2, 1⟩ [⟨3 / 2, 1⟩] hps
  have hfirst : (GridPoint.nearest (⟨-2, 1⟩ : Point ℚ)).clampedTo 6 4 = ⟨0, 1⟩ := by decide +kernel
  have hlast : (GridPoint.nearest (⟨3 / 2, 1⟩ : Point ℚ)).clampedTo 6 4 = ⟨2, 1⟩ := by decide +kernel
  refine ⟨hps, ?_, ?_, ?_⟩
  · rw [← hfirst]
    exact hextent.isBorder_end (by decide) (by decide) _ (.inl rfl)
  · rw [← hlast]
    exact hextent.isBorder_end (by decide) (by decide) _ (.inr rfl)
  · intro hmarked
    have hwords := hextent.calculated (by decide) (by decide)
    rw [show mask = (b.fullCurve (.blank 6 4) _).border from congrArg Canvas.border (hextent.eq_fullCurve hwords)] at hmarked
    rcases hextent.reaches _ hmarked with ⟨⟨-, hright⟩, -⟩ | ⟨q, hq, hout, hclamped, -⟩
    · exact absurd hright (by decide +kernel)
    · have hcells : ∀ q ∈ b.samples (.blank 6 4) [(⟨-2, 1⟩ : Point ℚ), ⟨3 / 2, 1⟩],
          (GridPoint.nearest q).cell? 6 4 = none → ¬(⟨4, 1⟩ : Cell) = (GridPoint.nearest q).clampedTo 6 4 := by
        decide +kernel
      exact hcells q hq hout hclamped

end Brush

end VectorRaster
