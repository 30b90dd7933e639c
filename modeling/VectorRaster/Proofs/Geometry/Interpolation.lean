/-
  VectorRaster.Proofs.Geometry.Interpolation — points on a curve by repeated interpolation, exactly.

  A point of a curve is the sum of its control points with their Bernstein weights. It is also
  what is left when the points between neighbours are taken as often as the curve has
  degrees. Along one axis both are the same sum (`bernstein`): of a degree more it is the sum
  between two neighbours (`bernstein_succ`).

  What can be said of one interpolation holds of the curve then. Proved: `evaluate_exact`, that
  curves are interpolated so, that transforming the control points transforms the curve, and
  that a curve backwards is the curve of its control points backwards.
-/

import Mathlib.Data.List.GetD
import Mathlib.Data.Nat.Choose.Sum
import VectorRaster.Geometry.Curve
import VectorRaster.Proofs.Geometry.Bezier
import VectorRaster.Proofs.Geometry.Pascal
import VectorRaster.Proofs.Numeric.Rationals

namespace VectorRaster

open Numeric Finset

/-! ## Bernstein sums -/

namespace Bezier

/-- The sum of `n + 1` numbers with their Bernstein weights. -/
def bernstein (n : ℕ) (t : ℚ) (x : ℕ → ℚ) : ℚ := ∑ i ∈ range (n + 1), n.choose i * (x i * ((1 - t) ^ (n - i) * t ^ i))

variable {t : ℚ} {x : ℕ → ℚ} {xs : List ℚ}

theorem bernstein_succ (n : ℕ) (t : ℚ) (x : ℕ → ℚ) :
    bernstein (n + 1) t x = bernstein n t x * (1 - t) + bernstein n t (fun i => x (i + 1)) * t := by
  rw [bernstein, sum_choose_succ_mul fun i j => x i * ((1 - t) ^ j * t ^ i), bernstein, bernstein, sum_mul, sum_mul]
  congr 1
  · refine sum_congr rfl fun i hi => ?_
    rw [Nat.succ_sub (Nat.le_of_lt_succ (mem_range.mp hi)), pow_succ]
    ring
  · refine sum_congr rfl fun i _ => ?_
    rw [pow_succ]
    ring

/-- Interpolating `n` times between neighbours leaves Bernstein sums of `n + 1` numbers in a row. -/
theorem getElem_blend_replicate (n : ℕ) {i : ℕ} (h : i < (blend (List.replicate n t) xs).length) :
    (blend (List.replicate n t) xs)[i] = bernstein n t fun j => xs.getD (i + j) 0 := by
  induction n generalizing i with
  | zero =>
    have hi : i < xs.length := h
    simp [bernstein, hi]
  | succ n ih =>
    have hstep : blend (List.replicate (n + 1) t) xs = lerp t (blend (List.replicate n t) xs) := blend_lerp _
    simp only [hstep, getElem_lerp, ih, bernstein_succ n, Nat.add_assoc, Nat.add_comm 1]

end Bezier

namespace Curve

variable {m : ℕ} {points : List (Point ℚ)} {c : Point ℚ → ℚ}

/-- A coordinate of points in exact arithmetic. -/
structure IsAxis (c : Point ℚ → ℚ) : Prop where
  origin : c .origin = 0
  add : ∀ p q, c (p + q) = c p + c q
  scale : ∀ p k, c (p.scale k) = c p * k

theorem isAxis_x : IsAxis Point.x := ⟨by norm_num [Point.origin], fun _ _ => rfl, fun _ _ => rfl⟩

theorem isAxis_y : IsAxis Point.y := ⟨by norm_num [Point.origin], fun _ _ => rfl, fun _ _ => rfl⟩

/-! ## Sums of terms -/

theorem IsAxis.apply_sumFrom (hc : IsAxis c) (t : ℚ) (terms : List (Term ℚ)) (p : Point ℚ) :
    c (sumFrom t terms p.x p.y) = c p + (terms.map fun term => c term.point * term.weight t).sum := by
  induction terms generalizing p with
  | nil => simp [sumFrom]
  | cons term rest ih =>
    have hnext := ih (p + term.point.scale (term.weight t))
    rw [hc.add, hc.scale] at hnext
    rw [List.map_cons, List.sum_cons, ← add_assoc, ← hnext]
    rfl

theorem zipIdx_eq_map_range (points : List (Point ℚ)) :
    points.zipIdx = (List.range points.length).map fun i => (points.getD i .origin, i) := by
  refine List.ext_getElem (by simp) fun i h _ => ?_
  have hi : i < points.length := by simpa using h
  simp [hi]

/-- The weight of a control point, when the table holds the row of the degree. -/
theorem weight_upTo {degree i : ℕ} (hm : BinomialTable.Fits m) (hdegree : degree ≤ m) (t : ℚ) (p : Point ℚ) :
    (⟨ofCount ((BinomialTable.upTo m).coefficient degree i).toNat, degree - i, i, p⟩ : Term ℚ).weight t
      = degree.choose i * ((1 - t) ^ (degree - i) * t ^ i) := by
  rw [BinomialTable.toNat_coefficient_of_le hdegree (hm.of_le hdegree), BinomialTable.choose_natCast]
  simp only [Term.weight, power_eq_pow, one_literal, ofCount_eq_cast, mul_assoc]

/-- A point of a curve returns when the table holds the row of its degree. -/
theorem evaluate?_upTo {α : Type} [Scalar α] {points : List (Point α)} (hdegree : points.length - 1 ≤ m) (t : α) :
    evaluate? (.upTo m) points t = some (evaluate (.upTo m) points t) := by
  refine if_pos (List.all_eq_true.mpr fun i _ => ?_)
  rw [BinomialTable.coefficient?_of_le hdegree]
  rfl

/-- Along an axis, a curve is the Bernstein sum of its control points. -/
theorem IsAxis.apply_evaluate (hc : IsAxis c) {degree : ℕ} (hm : BinomialTable.Fits m) (hdegree : degree ≤ m)
    (hlength : points.length = degree + 1) (t : ℚ) :
    c (evaluate (.upTo m) points t) = Bezier.bernstein degree t fun i => (points.map c).getD i 0 := by
  have hsum : c (evaluate (.upTo m) points t)
      = c .origin + ((terms (.upTo m) points).map fun term => c term.point * term.weight t).sum :=
    hc.apply_sumFrom t _ .origin
  rw [hsum, hc.origin, zero_add, terms, hlength, Nat.add_sub_cancel, zipIdx_eq_map_range, hlength, List.map_map,
    List.map_map]
  change ∑ i ∈ range (degree + 1), _ = _
  refine sum_congr rfl fun i _ => ?_
  have hpoint : (points.map c).getD i 0 = c (points.getD i .origin) := by
    rw [← hc.origin, List.getD_map]
  simp only [Function.comp_apply, weight_upTo hm hdegree, hpoint]
  ring

/-! ## Interpolation -/

theorem IsAxis.map_between (hc : IsAxis c) (t : ℚ) (points : List (Point ℚ)) :
    (between t points).map c = Bezier.lerp t (points.map c) := by
  simp only [between, Bezier.lerp, List.map_zipWith, ← List.map_tail, List.zipWith_map, hc.add, hc.scale, one_literal]

theorem IsAxis.map_iterate_between (hc : IsAxis c) (t : ℚ) (n : ℕ) (points : List (Point ℚ)) :
    ((between t)^[n] points).map c = Bezier.blend (List.replicate n t) (points.map c) := by
  induction n generalizing points with
  | zero => rfl
  | succ n ih => rw [Function.iterate_succ_apply, ih, hc.map_between, List.replicate_succ, Bezier.blend_cons]

theorem IsAxis.eq_evaluate (hc : IsAxis c) {degree : ℕ} (hm : BinomialTable.Fits m) (hdegree : degree ≤ m)
    (hlength : points.length = degree + 1) {t : ℚ} {p : Point ℚ} (hp : (between t)^[degree] points = [p]) :
    c p = c (evaluate (.upTo m) points t) := by
  have hblend := hc.map_iterate_between t degree points
  rw [hp, List.map_singleton] at hblend
  have hpos : 0 < (Bezier.blend (List.replicate degree t) (points.map c)).length := by
    rw [← hblend]
    exact Nat.one_pos
  rw [hc.apply_evaluate hm hdegree hlength]
  calc c p = (Bezier.blend (List.replicate degree t) (points.map c))[0] := by simp only [← hblend, List.getElem_cons_zero]
    _ = Bezier.bernstein degree t fun i => (points.map c).getD i 0 := by
      rw [Bezier.getElem_blend_replicate]
      simp only [Nat.zero_add]

/-- A curve is what repeated interpolation leaves. -/
theorem iterate_between_eq (hm : BinomialTable.Fits m) (hne : points ≠ []) (hdegree : points.length - 1 ≤ m) (t : ℚ) :
    (between t)^[points.length - 1] points = [evaluate (.upTo m) points t] := by
  have hlength : points.length = points.length - 1 + 1 := by
    have := List.length_pos_iff.mpr hne
    omega
  have hone : ((between t)^[points.length - 1] points).length = 1 := by
    have h := congrArg List.length (isAxis_x.map_iterate_between t (points.length - 1) points)
    rw [List.length_map, Bezier.length_blend, List.length_map, List.length_replicate] at h
    omega
  obtain ⟨p, hp⟩ := List.length_eq_one_iff.mp hone
  have hx : p.x = (evaluate (.upTo m) points t).x := isAxis_x.eq_evaluate hm hdegree hlength hp
  have hy : p.y = (evaluate (.upTo m) points t).y := isAxis_y.eq_evaluate hm hdegree hlength hp
  rw [hp]
  exact congrArg (fun q => [q]) (congrArg₂ Point.mk hx hy)

/-! ## Images and curves backwards -/

theorem apply_between (transform : Transform ℚ) (t : ℚ) (p q : Point ℚ) :
    transform.apply (p.scale (1.0 - t) + q.scale t)
      = (transform.apply p).scale (1.0 - t) + (transform.apply q).scale t := by
  have hx : (p.x * (1 - t) + q.x * t - transform.offsetX) * transform.scaleX
      = (p.x - transform.offsetX) * transform.scaleX * (1 - t) + (q.x - transform.offsetX) * transform.scaleX * t := by
    ring
  have hy : (p.y * (1 - t) + q.y * t - transform.offsetY) * transform.scaleY
      = (p.y - transform.offsetY) * transform.scaleY * (1 - t) + (q.y - transform.offsetY) * transform.scaleY * t := by
    ring
  rw [one_literal]
  exact congrArg₂ Point.mk hx hy

theorem map_apply_between (transform : Transform ℚ) (t : ℚ) :
    Function.Semiconj (List.map transform.apply) (between t) (between t) := by
  intro points
  simp only [between, List.map_zipWith, ← List.map_tail, List.zipWith_map, apply_between]

theorem reverse_between (t : ℚ) : Function.Semiconj List.reverse (between t) (between (1 - t)) := by
  intro points
  refine List.ext_getElem (by simp [between]) fun i h h' => ?_
  have hi : i + 1 < points.length := by
    rw [between, List.length_zipWith, List.length_tail, List.length_reverse] at h'
    omega
  obtain ⟨k, hk⟩ : ∃ k, points.length = i + 1 + 1 + k := ⟨points.length - (i + 1 + 1), by omega⟩
  have hback : (1 : ℚ) - (1 - t) = t := by ring
  have hlast : points.length - 1 - i = k + 1 := by omega
  have hnext : points.length - 1 - (i + 1) = k := by omega
  have hlength : (List.zipWith (fun p q => p.scale (1 - t) + q.scale t) points points.tail).length - 1 - i = k := by
    rw [List.length_zipWith, List.length_tail]
    omega
  simp only [between, one_literal, List.getElem_reverse, List.getElem_zipWith, List.getElem_tail, hlength, hlast, hnext,
    hback]
  exact congrArg₂ Point.mk (add_comm _ _) (add_comm _ _)

theorem evaluate_map_apply (hm : BinomialTable.Fits m) (hne : points ≠ []) (hdegree : points.length - 1 ≤ m) (t : ℚ)
    (transform : Transform ℚ) :
    evaluate (.upTo m) (points.map transform.apply) t = transform.apply (evaluate (.upTo m) points t) := by
  have hne' : points.map transform.apply ≠ [] := by simpa using hne
  have himage := iterate_between_eq hm hne' (by simpa using hdegree) t
  rw [List.length_map, ← (map_apply_between transform t).iterate_right _ points, iterate_between_eq hm hne hdegree]
    at himage
  exact (List.singleton_inj.mp himage).symm

theorem evaluate_reverse (hm : BinomialTable.Fits m) (hne : points ≠ []) (hdegree : points.length - 1 ≤ m) (t : ℚ) :
    evaluate (.upTo m) points.reverse (1 - t) = evaluate (.upTo m) points t := by
  have hne' : points.reverse ≠ [] := by simpa using hne
  have hback := iterate_between_eq hm hne' (by simpa using hdegree) (1 - t)
  rw [List.length_reverse, ← (reverse_between t).iterate_right _ points, iterate_between_eq hm hne hdegree] at hback
  exact (List.singleton_inj.mp hback).symm

/-- The image of a piece is drawn where the piece itself would be, transformed. -/
theorem evaluate_transform (piece : Primitive ℚ) (transform : Transform ℚ) (t : ℚ) :
    evaluate .forCurves (piece.transform transform).controlPoints t
      = transform.apply (evaluate .forCurves piece.controlPoints t) := by
  have hfits : BinomialTable.Fits 3 := by decide +kernel
  have hne : piece.controlPoints ≠ [] := by cases piece <;> exact List.cons_ne_nil _ _
  have hdegree : piece.controlPoints.length - 1 ≤ 3 := by cases piece <;> simp [Primitive.controlPoints]
  rw [Primitive.transform, Primitive.controlPoints_map]
  exact evaluate_map_apply hfits hne hdegree t transform

/-- A curve in exact arithmetic is what repeated interpolation between its control points leaves.
Its image under a transform is the curve of the images of the control points, and the control
points backwards give it backwards. -/
theorem evaluate_exact (hm : BinomialTable.Fits m) (hne : points ≠ []) (hdegree : points.length - 1 ≤ m) (t : ℚ)
    (transform : Transform ℚ) :
    evaluate (.upTo m) (points.map transform.apply) t = transform.apply (evaluate (.upTo m) points t) ∧
      (between t)^[points.length - 1] points = [evaluate (.upTo m) points t] ∧
      evaluate (.upTo m) points.reverse (1 - t) = evaluate (.upTo m) points t :=
  ⟨evaluate_map_apply hm hne hdegree t transform, iterate_between_eq hm hne hdegree t, evaluate_reverse hm hne hdegree t⟩

theorem evaluate_exact_cubic : BinomialTable.Fits 3 ∧
    evaluate (.upTo 3) [⟨0, 0⟩, ⟨0, 9⟩, ⟨9, 9⟩, ⟨9, 0⟩] (1 / 3) = (⟨7 / 3, 6⟩ : Point ℚ) ∧
    evaluate (.upTo 3) [⟨9, 0⟩, ⟨9, 9⟩, ⟨0, 9⟩, ⟨0, 0⟩] (1 - 1 / 3) = (⟨7 / 3, 6⟩ : Point ℚ) ∧
    evaluate (.upTo 3) [⟨-6, 4⟩, ⟨-6, -5⟩, ⟨12, -5⟩, ⟨12, 4⟩] (1 / 3) = (⟨-4 / 3, -2⟩ : Point ℚ) := by
  have hfits : BinomialTable.Fits 3 := by decide +kernel
  have hne := List.cons_ne_nil (⟨0, 0⟩ : Point ℚ) [⟨0, 9⟩, ⟨9, 9⟩, ⟨9, 0⟩]
  obtain ⟨himage, hcurve, hback⟩ := evaluate_exact hfits hne (by decide) (1 / 3) ⟨2, -1, 3, 4⟩
  have hpoint : (between (1 / 3))^[3] [⟨0, 0⟩, ⟨0, 9⟩, ⟨9, 9⟩, ⟨9, 0⟩] = [(⟨7 / 3, 6⟩ : Point ℚ)] := by decide +kernel
  have heval := List.singleton_inj.mp (hcurve.symm.trans hpoint)
  rw [heval] at hback himage
  refine ⟨hfits, heval, hback, ?_⟩
  have hcorners : [(⟨0, 0⟩ : Point ℚ), ⟨0, 9⟩, ⟨9, 9⟩, ⟨9, 0⟩].map (⟨2, -1, 3, 4⟩ : Transform ℚ).apply
      = [⟨-6, 4⟩, ⟨-6, -5⟩, ⟨12, -5⟩, ⟨12, 4⟩] := by decide +kernel
  have hend : (⟨2, -1, 3, 4⟩ : Transform ℚ).apply ⟨7 / 3, 6⟩ = ⟨-4 / 3, -2⟩ := by decide +kernel
  rw [← hcorners, himage, hend]

end Curve

end VectorRaster
