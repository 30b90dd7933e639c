/-
  VectorRaster.Proofs.Geometry.ArcSweep — the sweep of an arc, and its cut into sections.

  All is over a field with exact arithmetic, where of the functions only this is assumed: an arc cosine
  of a number between minus one and one is between zero and a half turn (`HalfTurns`).

  The angle between two vectors is then between minus and plus half a turn, and the direction that is
  asked for adds a whole turn where the sign is the other one: a sweep stays below a whole turn and
  never goes the other way (`directedSweep_within`). A sweep below four quarter turns needs four
  sections at most (`Centered.evenlyCut`), and an arc has none exactly where it has no ellipse
  (`sections_eq_nil_iff`).
-/

import Mathlib.Analysis.Real.Pi.Bounds
import VectorRaster.Proofs.Geometry.SegmentCount

namespace VectorRaster.EllipticalArc

open Numeric

variable {K : Type} [Field K] [LinearOrder K] [FloorRing K]

attribute [local instance] Scalar.exact Analytic.exact

/-- A sweep in the direction of the flag, of less than a whole turn. -/
structure Within (sweep : Bool) (angle : K) : Prop where
  short : |angle| < 2 * halfTurn
  directed : if sweep then 0 ≤ angle else angle ≤ 0

theorem Within.quarterTurns_lt [IsStrictOrderedRing K] {sweep : Bool} {angle : K} (h : Within sweep angle) :
    |angle| / quarterTurn < 4 := by
  rw [div_lt_iff₀ quarterTurn_pos]
  calc |angle| < 2 * halfTurn := h.short
    _ = 4 * quarterTurn := by
      rw [halfTurn_eq]
      ring

variable [Functions K]

/-! ## The sweep -/

/-- Arc cosines are between zero and a half turn. -/
def HalfTurns (K : Type) [Field K] [LinearOrder K] [FloorRing K] [Functions K] : Prop :=
  ∀ x : K, -1 ≤ x → x ≤ 1 → 0 ≤ Functions.arccos x ∧ Functions.arccos x ≤ halfTurn

theorem angleBetween_eq (u v : Point K) :
    angleBetween u v = (if u.x * v.y - u.y * v.x < 0 then -1 else 1) *
      Functions.arccos (min (max (u.x * v.x + u.y * v.y) (-1)) 1) := by
  simp only [angleBetween, exact_zero, exact_one]
  rfl

theorem directedSweep_true (angle : K) :
    directedSweep true angle = if angle < 0 then angle + 2 * halfTurn else angle := by
  simp [directedSweep, exact_zero, exact_two]

theorem directedSweep_false (angle : K) :
    directedSweep false angle = if 0 < angle then angle - 2 * halfTurn else angle := by
  simp [directedSweep, exact_zero, exact_two]

section Ordered

variable [IsStrictOrderedRing K]

theorem angleBetween_bounds (harccos : HalfTurns K) (u v : Point K) :
    -halfTurn ≤ angleBetween u v ∧ angleBetween u v ≤ halfTurn := by
  have hlow : -1 ≤ min (max (u.x * v.x + u.y * v.y) (-1)) 1 := le_min (le_max_right _ _) (by norm_num)
  obtain ⟨hzero, hhalf⟩ := harccos _ hlow (min_le_right _ _)
  rw [angleBetween_eq]
  split
  · rw [neg_one_mul]
    exact ⟨neg_le_neg hhalf, by linarith⟩
  · rw [one_mul]
    exact ⟨by linarith, hhalf⟩

/-- A sweep of half a turn at most, either way, is turned into the direction of the flag. -/
theorem directedSweep_within {angle : K} (hlow : -halfTurn ≤ angle) (hhigh : angle ≤ halfTurn) (sweep : Bool) :
    Within sweep (directedSweep sweep angle) := by
  have hpos := @halfTurn_pos K _ _ _ _
  cases sweep with
  | true =>
    rw [directedSweep_true]
    split
    · exact ⟨abs_lt.mpr ⟨by linarith, by linarith⟩, show 0 ≤ _ by linarith⟩
    · exact ⟨abs_lt.mpr ⟨by linarith, by linarith⟩, show 0 ≤ _ by linarith⟩
  | false =>
    rw [directedSweep_false]
    split
    · exact ⟨abs_lt.mpr ⟨by linarith, by linarith⟩, show _ ≤ 0 by linarith⟩
    · exact ⟨abs_lt.mpr ⟨by linarith, by linarith⟩, show _ ≤ 0 by linarith⟩

theorem centered_within (harccos : HalfTurns K) (arc : EllipticalArc K) (sinRotation cosRotation : K)
    (chord : Point K) (radiusX radiusY : K) :
    Within arc.sweep (arc.centered sinRotation cosRotation chord radiusX radiusY).sweepAngle := by
  obtain ⟨hlow, hhigh⟩ := angleBetween_bounds harccos _ _
  exact directedSweep_within hlow hhigh arc.sweep

end Ordered

/-! ## The cut -/

/-- The sweep is cut into this many sections of this sweep, which begin where the sweep begins and follow each other.
Together they are the whole sweep; each is a quarter turn at most, up to the tolerance, and goes in the direction of
the flag. -/
structure Centered.EvenlyCut (ellipse : Centered K) (sweep : Bool) (count : ℕ) (step : K) : Prop where
  cuts : ellipse.cuts = (List.range count).map fun i : ℕ => (ellipse.startAngle + i * step, step)
  count : 1 ≤ count ∧ count ≤ 4
  total : (ellipse.cuts.map Prod.snd).sum = ellipse.sweepAngle
  short : |step| ≤ (1 + 1 / 10 ^ 7) * quarterTurn
  directed : if sweep then 0 ≤ step else step ≤ 0

theorem Centered.cuts_eq (ellipse : Centered K) :
    ellipse.cuts = (List.range (segmentCount ellipse.sweepAngle)).map fun i : ℕ =>
      (ellipse.startAngle + i * (ellipse.sweepAngle / segmentCount ellipse.sweepAngle),
        ellipse.sweepAngle / segmentCount ellipse.sweepAngle) := rfl

theorem Centered.sum_cuts (ellipse : Centered K) :
    (ellipse.cuts.map Prod.snd).sum
      = segmentCount ellipse.sweepAngle * (ellipse.sweepAngle / segmentCount ellipse.sweepAngle) := by
  rw [cuts_eq, List.map_map]
  simp only [Function.comp_def, List.map_const', List.length_range, List.sum_replicate, nsmul_eq_mul]

theorem Centered.evenlyCut [IsStrictOrderedRing K] {ellipse : Centered K} {sweep : Bool}
    (h : Within sweep ellipse.sweepAngle) :
    ellipse.EvenlyCut sweep (segmentCount ellipse.sweepAngle)
      (ellipse.sweepAngle / segmentCount ellipse.sweepAngle) := by
  have hlt := h.quarterTurns_lt
  have htolerance := (@ratioTolerance_bounds K _ _ _ _).1
  have hpos : (0 : K) < segmentCount ellipse.sweepAngle := by exact_mod_cast one_le_segmentCount ellipse.sweepAngle
  have hfits : CountFits ellipse.sweepAngle := by
    have hlast : (4 : K) ≤ Word.last := by exact_mod_cast (by decide : 4 ≤ Word.last)
    rw [CountFits]
    linarith
  refine ⟨ellipse.cuts_eq, ⟨one_le_segmentCount _, ?_⟩, ?_, ?_, ?_⟩
  · refine (segmentCount_le_iff (by decide)).mpr (.inr ?_)
    push_cast
    linarith
  · rw [ellipse.sum_cuts, mul_div_cancel₀ _ hpos.ne']
  · have hshort := hfits.section_lt
    rw [abs_div, abs_of_pos hpos]
    norm_num [ratioTolerance] at hshort ⊢
    exact hshort.le
  · cases sweep with
    | true => exact div_nonneg h.directed hpos.le
    | false => exact div_nonpos_of_nonpos_of_nonneg h.directed hpos.le

/-! ## Sections -/

/-- Half the chord of an arc in the frame of its ellipse. -/
def rotatedChord (arc : EllipticalArc K) : Point K :=
  arc.halfChord (Functions.sin (degreesToRadians arc.rotation)) (Functions.cos (degreesToRadians arc.rotation))

/-- There is nothing to draw: a radius is zero, or the ends are the same point. -/
def IsDegenerate (arc : EllipticalArc K) : Prop :=
  arc.radiusX = 0 ∨ arc.radiusY = 0 ∨ arc.rotatedChord.x = 0 ∧ arc.rotatedChord.y = 0

/-- The ellipse of an arc that is not degenerate. -/
def spanningEllipse (arc : EllipticalArc K) : Centered K :=
  arc.centered (Functions.sin (degreesToRadians arc.rotation)) (Functions.cos (degreesToRadians arc.rotation))
    arc.rotatedChord (arc.spanningRadii arc.rotatedChord).1 (arc.spanningRadii arc.rotatedChord).2

variable {arc : EllipticalArc K}

theorem ellipse?_of_degenerate (h : arc.IsDegenerate) : arc.ellipse? = none := by
  unfold ellipse?
  simp only [exact_zero]
  split
  · rfl
  · rename_i hradii
    simp only [Bool.or_eq_true, beq_iff_eq] at hradii
    obtain ⟨hx, hy⟩ := (h.resolve_left fun hx => hradii (.inl hx)).resolve_left fun hy => hradii (.inr hy)
    refine if_pos ?_
    simp only [Bool.and_eq_true, beq_iff_eq]
    exact ⟨hx, hy⟩

theorem ellipse?_of_not_degenerate (h : ¬arc.IsDegenerate) : arc.ellipse? = some arc.spanningEllipse := by
  unfold ellipse?
  simp only [exact_zero]
  split
  · rename_i hradii
    simp only [Bool.or_eq_true, beq_iff_eq] at hradii
    exact absurd (hradii.imp_right .inl) h
  · refine if_neg ?_
    simp only [Bool.and_eq_true, beq_iff_eq]
    exact fun hchord => h (.inr (.inr hchord))

theorem sections_of_not_degenerate (h : ¬arc.IsDegenerate) :
    arc.sections = arc.spanningEllipse.cuts.map fun cut =>
      arc.spanningEllipse.placeSection (unitSection cut.1 cut.2) := by
  rw [sections, ellipse?_of_not_degenerate h]

variable [IsStrictOrderedRing K]

theorem sections_eq_nil_iff : arc.sections = [] ↔ arc.IsDegenerate := by
  constructor
  · intro hnil
    by_contra h
    have hcount := one_le_segmentCount arc.spanningEllipse.sweepAngle
    rw [sections_of_not_degenerate h, List.map_eq_nil_iff, Centered.cuts_eq, List.map_eq_nil_iff, List.range_eq_nil]
      at hnil
    omega
  · intro h
    rw [sections, ellipse?_of_degenerate h]

/-- Whatever arc it is, its sweep is of less than a whole turn and in the direction of the flag. An arc has no
sections exactly if it is degenerate. Else it has up to four, the images of equal parts of its sweep. -/
theorem sections_evenlyCut (harccos : HalfTurns K) (arc : EllipticalArc K) :
    (∀ (sinRotation cosRotation : K) (chord : Point K) (radiusX radiusY : K),
        Within arc.sweep (arc.centered sinRotation cosRotation chord radiusX radiusY).sweepAngle) ∧
      (arc.sections = [] ↔ arc.IsDegenerate) ∧
      (¬arc.IsDegenerate → ∃ ellipse count step, arc.ellipse? = some ellipse ∧ Within arc.sweep ellipse.sweepAngle ∧
        ellipse.EvenlyCut arc.sweep count step ∧ arc.sections.length = count ∧
        arc.sections = ellipse.cuts.map fun cut => ellipse.placeSection (unitSection cut.1 cut.2)) := by
  refine ⟨centered_within harccos arc, sections_eq_nil_iff, fun h => ?_⟩
  have hwithin : Within arc.sweep arc.spanningEllipse.sweepAngle := centered_within harccos arc _ _ _ _ _
  have hsections := sections_of_not_degenerate h
  refine ⟨_, _, _, ellipse?_of_not_degenerate h, hwithin, Centered.evenlyCut hwithin, ?_, hsections⟩
  rw [hsections, List.length_map, Centered.cuts_eq, List.length_map, List.length_range]

/-! ## The reals -/

section Real

/-- The functions of the reals; no arc cosine is above the number of the double nearest to a half turn. -/
@[reducible]
noncomputable def realFunctions : Functions ℝ where
  sqrt := Real.sqrt
  sin := Real.sin
  cos := Real.cos
  tan := Real.tan
  arccos x := min (Real.arccos x) halfTurn

attribute [local instance] realFunctions

theorem halfTurns_real : HalfTurns ℝ := by
  intro x _ _
  exact ⟨le_min (Real.arccos_nonneg x) halfTurn_pos.le, min_le_right _ _⟩

theorem arccos_neg_one : (Functions.arccos (-1) : ℝ) = halfTurn := by
  show min (Real.arccos (-1)) halfTurn = halfTurn
  rw [Real.arccos_neg_one]
  refine min_eq_right ?_
  have hpi := Real.pi_gt_d20
  norm_num [halfTurn]
  linarith

/-- From one end of the first axis of the unit circle to the other, in the direction in which angles increase. -/
def semicircle : EllipticalArc ℝ := ⟨⟨1, 0⟩, ⟨-1, 0⟩, 1, 1, 0, false, true⟩

theorem rotatedChord_semicircle : semicircle.rotatedChord = ⟨1, 0⟩ := by
  have hsin : (Functions.sin 0 : ℝ) = 0 := Real.sin_zero
  have hcos : (Functions.cos 0 : ℝ) = 1 := Real.cos_zero
  simp [rotatedChord, halfChord, semicircle, degreesToRadians, hsin, hcos, exact_two]

theorem spanningRadii_semicircle : semicircle.spanningRadii ⟨1, 0⟩ = (1, 1) := by
  simp [spanningRadii, semicircle, Scalar.abs, exact_one]

theorem sweepAngle_semicircle : semicircle.spanningEllipse.sweepAngle = halfTurn := by
  have hangle : angleBetween (⟨1, 0⟩ : Point ℝ) ⟨-1, 0⟩ = halfTurn := by
    rw [angleBetween_eq]
    norm_num [arccos_neg_one]
  have hsqrt : (Analytic.sqrt 0 : ℝ) = 0 := Real.sqrt_zero
  rw [spanningEllipse, rotatedChord_semicircle, spanningRadii_semicircle]
  have hback : ¬(halfTurn : ℝ) < 0 := not_lt.mpr halfTurn_pos.le
  simp [centered, semicircle, Scalar.larger, exact_zero, exact_one, hsqrt, hangle, directedSweep_true, hback]

theorem not_isDegenerate_semicircle : ¬semicircle.IsDegenerate := by
  rw [IsDegenerate, rotatedChord_semicircle]
  simp [semicircle]

/-- A half turn is cut into up to four sections that make up a half turn. -/
theorem sections_evenlyCut_semicircle :
    HalfTurns ℝ ∧ ¬semicircle.IsDegenerate ∧ semicircle.sections ≠ [] ∧
      ∃ ellipse count step, semicircle.ellipse? = some ellipse ∧ ellipse.sweepAngle = halfTurn ∧
        ellipse.EvenlyCut true count step ∧ semicircle.sections.length = count := by
  obtain ⟨-, hnil, hcut⟩ := sections_evenlyCut halfTurns_real semicircle
  obtain ⟨ellipse, count, step, hsome, -, heven, hlength, -⟩ := hcut not_isDegenerate_semicircle
  obtain rfl : semicircle.spanningEllipse = ellipse :=
    Option.some.inj ((ellipse?_of_not_degenerate not_isDegenerate_semicircle).symm.trans hsome)
  exact ⟨halfTurns_real, not_isDegenerate_semicircle, fun h => not_isDegenerate_semicircle (hnil.mp h),
    _, count, step, hsome, sweepAngle_semicircle, heven, hlength⟩

end Real

end VectorRaster.EllipticalArc
