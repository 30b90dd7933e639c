/-
  VectorRaster.Proofs.Raster.Stamps — exactly what a stamp does.

  A stamp lists the cells of its circles that are on the surface (`Brush.dabs`), paints and marks them, and marks the
  cell nearest to its center. No circle below the reach comes as far as the surface from a center that is out of reach
  (`dabs_of_misses`), so leaving the circles out there changes nothing: a stamp is always all its circles, calculated in
  integers, unless its words overflow (`stamp_eq_fullStamp`).

  Main statement: `stamp_effect`.
-/

import VectorRaster.Proofs.Raster.Overflow

namespace VectorRaster

/-! ## Painting a list of cells -/

namespace Canvas

variable (color : Pixel) (cells : List Cell) (canvas : Canvas)

@[simp] theorem frame_foldl_paint : (cells.foldl (paint color) canvas).frame
    = cells.foldl (fun f c => f.blend c.x c.y color) canvas.frame := by
  induction cells generalizing canvas with
  | nil => rfl
  | cons c cells ih => rw [List.foldl_cons, ih, List.foldl_cons, paint]

@[simp] theorem border_foldl_paint :
    (cells.foldl (paint color) canvas).border = cells.foldl BorderMask.markCell canvas.border := by
  induction cells generalizing canvas with
  | nil => rfl
  | cons c cells ih => rw [List.foldl_cons, ih, List.foldl_cons, paint]

end Canvas

namespace Brush

variable {b : Brush} {canvas : Canvas} {p : GridPoint} {width height : ℕ} {c : Cell}

/-! ## The cells of a stamp -/

/-- The cells of the surface on the circles of a stamp, as often as these come to them. -/
def dabs (b : Brush) (width height : ℕ) (p : GridPoint) : List Cell :=
  (List.range b.reach).flatMap fun r : ℕ =>
    (Circle.exactOutline p.x.toInt p.y.toInt r).filterMap (Cell.at? width height)

theorem mem_dabs : c ∈ b.dabs width height p ↔
    (c.x < width ∧ c.y < height) ∧
      ∃ r < b.reach, ((c.x : ℤ), (c.y : ℤ)) ∈ Circle.exactOutline p.x.toInt p.y.toInt r := by
  simp only [dabs, List.mem_flatMap, List.mem_range, List.mem_filterMap, Cell.at?_eq_some_iff]
  constructor
  · intro h
    obtain ⟨r, hr, q, hq, rfl, hin⟩ := h
    exact ⟨hin, r, hr, hq⟩
  · intro h
    obtain ⟨hin, r, hr, hq⟩ := h
    exact ⟨r, hr, _, hq, rfl, hin⟩

theorem abs_lt_of_mem_dabs (h : c ∈ b.dabs width height p) :
    |(c.x : ℤ) - p.x.toInt| < b.reach ∧ |(c.y : ℤ) - p.y.toInt| < b.reach := by
  obtain ⟨-, r, hr, hq⟩ := mem_dabs.mp h
  obtain ⟨hx, hy⟩ := Circle.abs_le_of_mem_exactOutline (Int.natCast_nonneg r) hq
  have hr' : (r : ℤ) < b.reach := by exact_mod_cast hr
  exact ⟨hx.trans_lt hr', hy.trans_lt hr'⟩

/-- A center out of reach has no circle on the surface: each of the four sides is further off than the widest. -/
theorem dabs_of_misses (h : b.misses width height p = true) : b.dabs width height p = [] := by
  rw [List.eq_nil_iff_forall_not_mem]
  intro c hc
  obtain ⟨⟨hw, hh⟩, -⟩ := mem_dabs.mp hc
  obtain ⟨hx, hy⟩ := abs_lt_of_mem_dabs hc
  rw [abs_lt] at hx hy
  simp only [misses, Bool.or_eq_true, decide_eq_true_eq] at h
  omega

/-! ## All circles -/

theorem foldl_dab {color : Pixel} (hcolor : b.color? = some color) (points : List (ℤ × ℤ)) (canvas : Canvas) :
    points.foldl b.dab canvas
      = (points.filterMap (Cell.at? canvas.frame.width canvas.frame.height)).foldl (Canvas.paint color) canvas := by
  induction points generalizing canvas with
  | nil => rfl
  | cons q points ih =>
    rw [List.foldl_cons, ih, dab, hcolor]
    cases hq : Cell.at? canvas.frame.width canvas.frame.height q with
    | none => rw [List.filterMap_cons_none hq]
    | some d =>
      rw [List.filterMap_cons_some hq, List.foldl_cons]
      simp [Canvas.paint]

theorem foldl_circles {color : Pixel} (hcolor : b.color? = some color) (x y : ℤ) (radii : List ℕ) (canvas : Canvas) :
    radii.foldl (fun canvas (r : ℕ) => (Circle.exactOutline x y r).foldl b.dab canvas) canvas
      = (radii.flatMap fun r : ℕ => (Circle.exactOutline x y r).filterMap
          (Cell.at? canvas.frame.width canvas.frame.height)).foldl (Canvas.paint color) canvas := by
  induction radii generalizing canvas with
  | nil => rfl
  | cons r radii ih =>
    rw [List.foldl_cons, ih, foldl_dab hcolor, List.flatMap_cons, List.foldl_append]
    simp only [Canvas.frame_foldl_paint, Frame.width_foldl_blend, Frame.height_foldl_blend]

theorem fullStamp_of_color {color : Pixel} (hcolor : b.color? = some color) (canvas : Canvas) (p : GridPoint) :
    b.fullStamp canvas p
      = ((b.dabs canvas.frame.width canvas.frame.height p).foldl (Canvas.paint color) canvas).markClamped p := by
  rw [fullStamp_eq, foldl_circles hcolor, dabs]

theorem fullStamp_of_colorless (hcolor : b.color? = none) (canvas : Canvas) (p : GridPoint) :
    b.fullStamp canvas p = canvas.markClamped p := by
  have hdab : b.dab = fun canvas _ => canvas := by
    funext canvas q
    exact dab_of_colorless hcolor canvas q
  rw [fullStamp_eq, hdab]
  simp only [List.foldl_fixed]

/-- The circles that a stamp leaves out would change nothing. -/
theorem fullStamp_of_misses (h : b.misses canvas.frame.width canvas.frame.height p = true) :
    b.fullStamp canvas p = canvas.markClamped p := by
  cases hcolor : b.color? with
  | none => exact fullStamp_of_colorless hcolor canvas p
  | some color => rw [fullStamp_of_color hcolor, dabs_of_misses h, List.foldl_nil]

theorem stamp_eq_fullStamp (h : stampIn Register.checked b canvas p ≠ none) :
    b.stamp canvas p = b.fullStamp canvas p := by
  by_cases hmiss : b.misses canvas.frame.width canvas.frame.height p = true
  · rw [fullStamp_of_misses hmiss, stamp, if_pos hmiss]
  · have hroom := (stampIn_checked_ne_none_iff.mp h).resolve_left hmiss
    exact stamp_eq_fullStamp_of_room (by simpa using hmiss) hroom

/-! ## Effects -/

/-- The brush has a colour, and one of its circles around `p` comes to the cell, which is on the surface. -/
def Paints (b : Brush) (width height : ℕ) (p : GridPoint) (c : Cell) : Prop :=
  b.color? ≠ none ∧ (c.x < width ∧ c.y < height) ∧
    ∃ r < b.reach, ((c.x : ℤ), (c.y : ℤ)) ∈ Circle.exactOutline p.x.toInt p.y.toInt r

theorem paints_iff : b.Paints width height p c ↔ b.color? ≠ none ∧ c ∈ b.dabs width height p := by
  rw [Paints, mem_dabs]

theorem frame_fullStamp_of_color {color : Pixel} (hcolor : b.color? = some color) :
    (b.fullStamp canvas p).frame.get? c.x c.y = (canvas.frame.get? c.x c.y).map
      color.sourceOver^[(b.dabs canvas.frame.width canvas.frame.height p).count c] := by
  rw [fullStamp_of_color hcolor, Canvas.markClamped_eq, Canvas.frame_foldl_paint]
  exact Frame.get?_foldl_blend_count _ _

/-- What is marked after a stamp: what was, what it paints, and the cell nearest to its center. -/
theorem isBorder_fullStamp_iff (hcanvas : canvas.Matched) : (b.fullStamp canvas p).border.isBorder c = true ↔
    canvas.border.isBorder c = true ∨ b.Paints canvas.frame.width canvas.frame.height p c ∨
      canvas.border.contains c = true ∧ c = canvas.border.nearest p.x.toInt p.y.toInt := by
  rw [paints_iff]
  cases hcolor : b.color? with
  | none =>
    rw [fullStamp_of_colorless hcolor, Canvas.markClamped_eq, BorderMask.isBorder_markClamped hcanvas.size]
    simp only [ne_eq, not_true_eq_false, false_and, false_or]
    exact or_comm
  | some color =>
    have hlisted (hc : c ∈ b.dabs canvas.frame.width canvas.frame.height p) : canvas.border.contains c = true := by
      rw [BorderMask.contains_iff, hcanvas.width, hcanvas.height]
      exact (mem_dabs.mp hc).1
    rw [fullStamp_of_color hcolor, Canvas.markClamped_eq, Canvas.border_foldl_paint,
      BorderMask.isBorder_markClamped (by simpa using hcanvas.size), BorderMask.isBorder_foldl_markCell hcanvas.size]
    simp only [BorderMask.contains, BorderMask.nearest, BorderMask.width_foldl_markCell,
      BorderMask.height_foldl_markCell] at hlisted ⊢
    simp only [ne_eq, reduceCtorEq, not_false_eq_true, true_and]
    tauto

/-- Exactly what a stamp does that does not overflow, wherever its center is. It is what all its circles do, in
integers of any size, and so leaving them out far from the surface makes no difference. It marks what it paints and the
cell nearest to its center; it paints the cells of its circles, each at least once, and with no colour none. So what it
marks is the nearest cell or less than the radius from the center. -/
theorem stamp_effect (hcanvas : canvas.Matched) (hwords : stampIn Register.checked b canvas p ≠ none) :
    b.stamp canvas p = b.fullStamp canvas p ∧
    (∀ c, (b.stamp canvas p).border.isBorder c = true ↔
      canvas.border.isBorder c = true ∨ b.Paints canvas.frame.width canvas.frame.height p c ∨
        canvas.border.contains c = true ∧ c = canvas.border.nearest p.x.toInt p.y.toInt) ∧
    (∀ c, b.Paints canvas.frame.width canvas.frame.height p c → ∃ color n, b.color? = some color ∧ 1 ≤ n ∧
      (b.stamp canvas p).frame.get? c.x c.y = (canvas.frame.get? c.x c.y).map color.sourceOver^[n]) ∧
    (∀ c : Cell, ¬ b.Paints canvas.frame.width canvas.frame.height p c →
      (b.stamp canvas p).frame.get? c.x c.y = canvas.frame.get? c.x c.y) ∧
    (b.color? = none →
      b.stamp canvas p = ⟨canvas.frame, canvas.border.markClamped p.x.toInt p.y.toInt⟩) ∧
    (∀ c, (b.stamp canvas p).border.isBorder c = true → canvas.border.isBorder c = true ∨
      c = canvas.border.nearest p.x.toInt p.y.toInt ∨
        (c.x < canvas.frame.width ∧ c.y < canvas.frame.height) ∧
          |(c.x : ℤ) - p.x.toInt| ≤ b.radius - 1 ∧ |(c.y : ℤ) - p.y.toInt| ≤ b.radius - 1) := by
  rw [stamp_eq_fullStamp hwords]
  refine ⟨rfl, fun c => isBorder_fullStamp_iff hcanvas, ?_, ?_, ?_, ?_⟩
  · intro c hc
    obtain ⟨hsome, hlisted⟩ := paints_iff.mp hc
    obtain ⟨color, hcolor⟩ := Option.ne_none_iff_exists'.mp hsome
    exact ⟨color, _, hcolor, List.count_pos_iff.mpr hlisted, frame_fullStamp_of_color hcolor⟩
  · intro c hc
    cases hcolor : b.color? with
    | none => rw [fullStamp_of_colorless hcolor, Canvas.markClamped_eq]
    | some color =>
      have hunlisted : c ∉ b.dabs canvas.frame.width canvas.frame.height p := by
        intro hlisted
        exact hc (paints_iff.mpr ⟨by simp [hcolor], hlisted⟩)
      rw [frame_fullStamp_of_color hcolor, List.count_eq_zero_of_not_mem hunlisted, Function.iterate_zero,
        Option.map_id_fun, id]
  · intro hcolor
    exact fullStamp_of_colorless hcolor canvas p
  · intro c hc
    rcases (isBorder_fullStamp_iff hcanvas).mp hc with hbefore | hpaints | ⟨-, hnearest⟩
    · exact .inl hbefore
    · obtain ⟨-, hlisted⟩ := paints_iff.mp hpaints
      obtain ⟨hx, hy⟩ := abs_lt_of_mem_dabs hlisted
      have hreach : b.reach ≤ b.radius := min_le_left _ _
      exact .inr (.inr ⟨(mem_dabs.mp hlisted).1, by omega, by omega⟩)
    · exact .inr (.inl hnearest)

/-- Radius 3 next to the left side of a surface: the stamp paints on the fourth column, and not on the fifth. -/
theorem stamp_effect_near_side :
    let b : Brush := ⟨some ⟨255, 0, 0, 255⟩, 3⟩
    let canvas : Canvas := ⟨.blank 5 5, .blank 5 5⟩
    let p : GridPoint := ⟨1, 2⟩
    canvas.Matched ∧ stampIn Register.checked b canvas p ≠ none ∧ b.Paints 5 5 p ⟨3, 2⟩ ∧
      (b.stamp canvas p).border.isBorder ⟨3, 2⟩ = true ∧ ¬ (b.stamp canvas p).border.isBorder ⟨4, 2⟩ = true := by
  intro b canvas p
  have hcanvas : canvas.Matched := ⟨rfl, rfl, rfl⟩
  have hwords : stampIn Register.checked b canvas p ≠ none := by
    have hsome : (stampIn Register.checked b canvas p).isSome = true := by decide +kernel
    exact Option.isSome_iff_ne_none.mp hsome
  have hpaints : b.Paints 5 5 p ⟨3, 2⟩ := ⟨nofun, by decide, 2, by decide, by decide +kernel⟩
  obtain ⟨-, hmarks, -, -, -, hnear⟩ := stamp_effect hcanvas hwords
  refine ⟨hcanvas, hwords, hpaints, (hmarks ⟨3, 2⟩).mpr (.inr (.inl hpaints)), ?_⟩
  intro hmarked
  rcases hnear ⟨4, 2⟩ hmarked with hbefore | hnearest | ⟨-, hx, -⟩
  · exact absurd hbefore (by decide)
  · exact absurd hnearest (by decide)
  · exact absurd hx (by decide)

end Brush

end VectorRaster
