/-
  VectorRaster.Proofs.Geometry.Hull — a curve stays in the box of its control points, exactly.

  What is between numbers is within the bounds of these, and a curve is what is left of its control points when the
  points between neighbours are taken again and again. So in exact arithmetic every point of it is in the box that
  also says how often it is sampled (`boundingBox_holds`); it begins at its first control point and ends at its last
  (`evaluate_zero`, `getLast?_evaluate_one`).

  A point in the box is nearest to a pixel between those of the corners, for rounding keeps the order (`pixel_mono`).
-/

import VectorRaster.Proofs.Geometry.Interpolation
import VectorRaster.Proofs.Numeric.Extremes
import VectorRaster.Proofs.Raster.Nearest

namespace VectorRaster

open Numeric

/-! ## Rounding -/

namespace Numeric

theorem round_eq_nearestInt (q : ℚ) : Scalar.round q = (nearestInt q : ℚ) := by
  show (if q < 0 then -((⌊-q + 1 / 2⌋ : ℤ) : ℚ) else (⌊q + 1 / 2⌋ : ℤ)) = _
  rw [nearestInt, Int.cast_ite, Int.cast_neg]

theorem integerPart_intCast (n : ℤ) : integerPart (n : ℚ) = n := by
  simp [integerPart]

/-- The word of the nearest whole number, which is the last word where that is greater. -/
theorem toInt_pixel (q : ℚ) : (Scalar.toInt64 (Scalar.round q)).toInt = clampWord (nearestInt q) := by
  have hword : Scalar.toInt64 (nearestInt q : ℚ) = .ofInt (clampWord (integerPart (nearestInt q))) := rfl
  rw [round_eq_nearestInt, hword, integerPart_intCast]
  exact Int64.toInt_ofInt_of_le (by unfold clampWord; omega) (by unfold clampWord; omega)

theorem pixel_mono {p q : ℚ} (h : p ≤ q) :
    (Scalar.toInt64 (Scalar.round p)).toInt ≤ (Scalar.toInt64 (Scalar.round q)).toInt := by
  rw [toInt_pixel, toInt_pixel]
  exact clampWord_mono (nearestInt_mono h)

end Numeric

namespace Curve

/-! ## The box of the control points -/

structure Box (α : Type) where
  low : Point α
  high : Point α

/-- The box around a point and others. -/
def boundingBox {α : Type} [Scalar α] (p : Point α) (ps : List (Point α)) : Box α where
  low := ⟨minimum p.x (ps.map (·.x)), minimum p.y (ps.map (·.y))⟩
  high := ⟨maximum p.x (ps.map (·.x)), maximum p.y (ps.map (·.y))⟩

def Box.Holds (box : Box ℚ) (q : Point ℚ) : Prop :=
  (box.low.x ≤ q.x ∧ q.x ≤ box.high.x) ∧ box.low.y ≤ q.y ∧ q.y ≤ box.high.y

theorem within_minimum_maximum (x : ℚ) (xs : List ℚ) : Bezier.Within (minimum x xs) (maximum x xs) (x :: xs) :=
  fun y hy => ⟨(foldl_min_spec x xs).1 y hy, (foldl_max_spec x xs).1 y hy⟩

section

variable {m : ℕ} {p : Point ℚ} {ps points : List (Point ℚ)} {c : Point ℚ → ℚ} {t lo hi : ℚ}

theorem IsAxis.evaluate_bounds (hc : IsAxis c) (hm : BinomialTable.Fits m) (hne : points ≠ [])
    (hdegree : points.length - 1 ≤ m) (h : Bezier.Within lo hi (points.map c)) (h0 : 0 ≤ t) (h1 : t ≤ 1) :
    lo ≤ c (evaluate (.upTo m) points t) ∧ c (evaluate (.upTo m) points t) ≤ hi := by
  have hleft := hc.map_iterate_between t (points.length - 1) points
  rw [iterate_between_eq hm hne hdegree, List.map_singleton] at hleft
  have hposition : ∀ s ∈ List.replicate (points.length - 1) t, 0 ≤ s ∧ s ≤ 1 := by
    intro s hs
    rw [List.eq_of_mem_replicate hs]
    exact ⟨h0, h1⟩
  refine h.blend hposition _ ?_
  rw [← hleft]
  exact List.mem_singleton_self _

theorem boundingBox_holds (hm : BinomialTable.Fits m) (hdegree : ps.length ≤ m) (h0 : 0 ≤ t) (h1 : t ≤ 1) :
    (boundingBox p ps).Holds (evaluate (.upTo m) (p :: ps) t) :=
  ⟨isAxis_x.evaluate_bounds hm (List.cons_ne_nil p ps) hdegree (within_minimum_maximum _ _) h0 h1,
    isAxis_y.evaluate_bounds hm (List.cons_ne_nil p ps) hdegree (within_minimum_maximum _ _) h0 h1⟩

/-! ## Ends -/

theorem IsAxis.evaluate_zero (hc : IsAxis c) (hm : BinomialTable.Fits m) (hdegree : ps.length ≤ m) :
    c (evaluate (.upTo m) (p :: ps) 0) = c p := by
  rw [hc.apply_evaluate hm hdegree List.length_cons, Bezier.bernstein, Finset.sum_eq_single 0]
  · simp
  · intro i _ hi
    simp [hi]
  · intro h
    simp at h

theorem evaluate_zero (hm : BinomialTable.Fits m) (hdegree : ps.length ≤ m) : evaluate (.upTo m) (p :: ps) 0 = p :=
  congrArg₂ Point.mk (isAxis_x.evaluate_zero hm hdegree) (isAxis_y.evaluate_zero hm hdegree)

/-- Backwards, a curve begins where it ends. -/
theorem getLast?_evaluate_one (hm : BinomialTable.Fits m) (hdegree : ps.length ≤ m) :
    (p :: ps).getLast? = some (evaluate (.upTo m) (p :: ps) 1) := by
  obtain ⟨q, qs, hreverse⟩ : ∃ q qs, (p :: ps).reverse = q :: qs := List.exists_cons_of_ne_nil (by simp)
  have hlength : qs.length = ps.length := by
    have h := congrArg List.length hreverse
    simpa using h.symm
  have hback := evaluate_reverse hm (List.cons_ne_nil p ps) hdegree 1
  rw [hreverse, sub_self, evaluate_zero hm (hlength ▸ hdegree)] at hback
  rw [← hback, ← List.head?_reverse, hreverse, List.head?_cons]


end

end Curve

end VectorRaster
