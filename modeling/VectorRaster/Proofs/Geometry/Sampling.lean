/-
  VectorRaster.Proofs.Geometry.Sampling — how far the samples of a curve are from the curve.

  Each coordinate is a sum of control numbers with weights (`weighted`). A position, a power, a
  weight and a sum cost a few grains each, so that a sample of a line, a quadratic or a cubic
  curve is off the curve by no more than `sampleError` grains of its greatest control number.
-/

import VectorRaster.Geometry.Curve
import VectorRaster.Proofs.Geometry.Bezier
import VectorRaster.Proofs.Numeric.Near

namespace VectorRaster

open Numeric

namespace Curve

/-! ## Positions -/

theorem count_error {n m : Nat} (hm : m < 2 ^ 64) (hn : n ≤ m) (hm1 : 1 ≤ m) :
    (Float.ofNat n).isFinite = true ∧ |value (Float.ofNat n) - n| ≤ 3 / 4 / 2 ^ 52 * m := by
  have hmq : (1 : ℚ) ≤ m := by exact_mod_cast hm1
  have hnq : (n : ℚ) ≤ m := by exact_mod_cast hn
  have hround := ofNat_rounded (n := n) (by
    calc (n : ℚ) < 2 ^ (64 : Int) := by exact_mod_cast Nat.lt_of_le_of_lt hn hm
      _ ≤ 2 ^ (1023 : Int) := zpow_le_zpow_right₀ one_le_two (by omega))
  refine ⟨hround.finite, hround.error.trans ?_⟩
  rw [Nat.abs_cast]
  linarith [halfLeast_le]

theorem position_near {n i : Nat} (hn1 : 1 ≤ n) (hn : n < 2 ^ 64) (hi : i ≤ n) :
    Near (position n i) (i / n) (1 * grain 1) := by
  obtain ⟨hfi, hei⟩ := count_error hn hi hn1
  obtain ⟨hfn, hen⟩ := count_error hn (Nat.le_refl n) hn1
  have hnq : (1 : ℚ) ≤ n := by exact_mod_cast hn1
  have hiq : (i : ℚ) ≤ n := by exact_mod_cast hi
  generalize hA : value (Float.ofNat i) = A at hei
  generalize hB : value (Float.ofNat n) = B at hen
  have hBn : (1 - 1 / 2 ^ 52) * n ≤ B := by
    have := (abs_le.mp hen).1
    linarith
  have hBpos : 0 < B := by linarith
  have hratio : |A / B - i / n| ≤ 1 / 2 * grain 1 := by
    have hsplit : A / B - i / n = ((A - i) * n + i * (n - B)) / (B * n) := by
      field_simp
      ring
    have h1 : |(A - i) * n| ≤ 3 / 4 / 2 ^ 52 * n * n := by
      rw [abs_mul, Nat.abs_cast]
      exact mul_le_mul_of_nonneg_right hei (Nat.cast_nonneg n)
    have h2 : |i * (n - B)| ≤ n * (3 / 4 / 2 ^ 52 * n) := by
      rw [abs_mul, Nat.abs_cast, abs_sub_comm]
      exact mul_le_mul hiq hen (abs_nonneg _) (Nat.cast_nonneg n)
    rw [hsplit, abs_div, abs_of_pos (by positivity : 0 < B * n), div_le_iff₀ (by positivity)]
    have h3 : (1 - 1 / 2 ^ 52) * n * n ≤ B * n := mul_le_mul_of_nonneg_right hBn (Nat.cast_nonneg n)
    have h4 : 1 / 2 ^ 51 * (B * n) ≤ 1 / 2 * grain 1 * (B * n) := by
      refine mul_le_mul_of_nonneg_right ?_ (by positivity)
      linarith [div_le_grain 1]
    calc |(A - i) * n + i * (n - B)| ≤ |(A - i) * n| + |i * (n - B)| := abs_add_le _ _
      _ ≤ 1 / 2 * grain 1 * (B * n) := by linarith [mul_self_nonneg (n : ℚ)]
  have hle : |(i : ℚ) / n| ≤ 1 := by
    rw [abs_of_nonneg (by positivity)]
    exact (div_le_one (by linarith)).mpr hiq
  have hround := div_rounded (x := Float.ofNat i) (y := Float.ofNat n) hfi hfn (by rw [hB]; exact hBpos.ne')
    (by rw [hA, hB]; exact Near.lt_range hratio (by linarith [grain_pos zero_le_one]) hle one_le_scaleLimit)
  rw [hA, hB] at hround
  exact (hround.near hratio hle (by norm_num)).mono (by linarith)

theorem one_near (a : ℚ) (ha : 0 ≤ a) {s : ℚ} (hs : 0 ≤ s) : Near 1.0 1 (a * grain s) := by
  refine ⟨finite_one, ?_⟩
  rw [value_one, sub_self, abs_zero]
  exact mul_nonneg ha (grain_pos hs).le

theorem complement_near {t : Float} {τ : ℚ} (h : Near t τ (1 * grain 1)) (h0 : 0 ≤ τ) (h1 : τ ≤ 1) :
    Near (1.0 - t) (1 - τ) (2 * grain 1) := by
  have hone : Near 1.0 1 (0 * grain 1) := one_near 0 le_rfl zero_le_one
  have habs : |1 - τ| ≤ 1 := by
    rw [abs_le]
    constructor <;> linarith
  exact (hone.sub h habs one_le_scaleLimit (by norm_num) (by norm_num)).mono (by linarith)

/-! ## Weights -/

theorem power_near {x : Float} {v a : ℚ} (h : Near x v (a * grain 1)) (h0 : 0 ≤ v) (h1 : v ≤ 1) (ha : a ≤ 2 ^ 4)
    {e : Nat} (he : e ≤ 3) : Near (power x e) (v ^ e) (e * (a + 1) * grain 1) := by
  have hlim := one_le_scaleLimit
  have habs : |v| ≤ 1 := by rwa [abs_of_nonneg h0]
  have habs2 : |v * v| ≤ 1 := by
    rw [abs_mul]
    exact mul_le_one₀ habs (abs_nonneg v) habs
  have ha0 := h.nonneg zero_le_one
  have hone : Near 1.0 1 (0 * grain 1) := one_near 0 le_rfl zero_le_one
  have hfirst := hone.mul h (by norm_num) habs hlim (by norm_num) (by linarith)
  have hsquare := h.mul h habs habs hlim (by linarith) (by linarith)
  match e, he with
  | 0, _ =>
    show Near 1.0 (v ^ 0) _
    rw [pow_zero, Nat.cast_zero, zero_mul]
    exact hone
  | 1, _ =>
    show Near (1.0 * x) (v ^ 1) _
    rw [pow_one, ← one_mul v, Nat.cast_one]
    exact hfirst.mono (by linarith)
  | 2, _ =>
    show Near (1.0 * (x * x)) (v ^ 2) _
    have := hone.mul hsquare (by norm_num) habs2 hlim (by norm_num) (by linarith)
    rw [pow_two, ← one_mul (v * v)]
    exact this.mono (by push_cast; linarith [grain_pos zero_le_one])
  | 3, _ =>
    show Near (1.0 * x * (x * x)) (v ^ 3) _
    have := hfirst.mul hsquare (by rwa [one_mul]) habs2 hlim (by linarith) (by linarith)
    rw [show v ^ 3 = 1 * v * (v * v) by ring]
    exact this.mono (by push_cast; linarith [grain_pos zero_le_one])

/-- A term with its coefficient as a count. -/
structure Shape where
  coefficient : Nat
  falling : Nat
  rising : Nat
  point : Point Float

namespace Shape

def term (shape : Shape) : Term Float := ⟨Float.ofNat shape.coefficient, shape.falling, shape.rising, shape.point⟩

/-- The exact weight at a position. -/
def weight (shape : Shape) (τ : ℚ) : ℚ := shape.coefficient * (1 - τ) ^ shape.falling * τ ^ shape.rising

theorem weight_nonneg {τ : ℚ} (h0 : 0 ≤ τ) (h1 : τ ≤ 1) (shape : Shape) : 0 ≤ shape.weight τ := by
  have : 0 ≤ 1 - τ := by linarith
  unfold weight
  positivity

/-- A term of degree at most three. -/
def IsCurve (shape : Shape) : Prop := shape.coefficient ≤ 3 ∧ shape.falling + shape.rising ≤ 3

end Shape

/-- What a weight is off by, in grains. -/
def weightError : ℚ := 36

theorem weight_near {t : Float} {τ : ℚ} (h : Near t τ (1 * grain 1)) (h0 : 0 ≤ τ) (h1 : τ ≤ 1) {shape : Shape}
    (hshape : shape.IsCurve) : Near (shape.term.weight t) (shape.weight τ) (weightError * grain 1) := by
  obtain ⟨k, f, r, p⟩ := shape
  obtain ⟨hk, hfr⟩ : k ≤ 3 ∧ f + r ≤ 3 := hshape
  have hlim : (3 : ℚ) ≤ scaleLimit := le_trans (by norm_num) two_pow_le_scaleLimit
  have hkq : (k : ℚ) ≤ 3 := by exact_mod_cast hk
  have hfq : (f : ℚ) + r ≤ 3 := by exact_mod_cast hfr
  have hr0 : (0 : ℚ) ≤ r := Nat.cast_nonneg r
  have hf0 : (0 : ℚ) ≤ f := Nat.cast_nonneg f
  have hcoef : Near (Float.ofNat k) k (0 * grain 3) := by
    have hround := ofNat_rounded (n := k) (hkq.trans_lt (lt_of_lt_of_le (by norm_num : (3 : ℚ) < 2 ^ (2 : Int))
      (zpow_le_zpow_right₀ one_le_two (by omega))))
    refine ⟨hround.finite, ?_⟩
    rw [hround.value_of_int (n := k) (Int.cast_natCast k).symm (by rw [Nat.abs_cast]; omega), Int.cast_natCast, sub_self,
      abs_zero, zero_mul]
  have hfall := power_near (complement_near h h0 h1) (by linarith) (by linarith) (by norm_num) (by omega : f ≤ 3)
  have hrise := power_near h h0 h1 (by norm_num) (by omega : r ≤ 3)
  have hfall1 : |(1 - τ) ^ f| ≤ 1 := by
    rw [abs_of_nonneg (pow_nonneg (by linarith) f)]
    exact pow_le_one₀ (by linarith) (by linarith)
  have hrise1 : |τ ^ r| ≤ 1 := by
    rw [abs_of_nonneg (pow_nonneg h0 r)]
    exact pow_le_one₀ h0 h1
  have hk3 : |(k : ℚ)| ≤ 3 := by rwa [Nat.abs_cast]
  have hkf : |(k : ℚ) * (1 - τ) ^ f| ≤ 3 := by
    rw [abs_mul]
    exact (mul_le_mul hk3 hfall1 (abs_nonneg _) (by norm_num)).trans_eq (mul_one 3)
  have hprod := ((hcoef.mul hfall hk3 hfall1 hlim (by norm_num) (by linarith)).mul hrise hkf hrise1 hlim
    (by linarith) (by linarith))
  refine hprod.mono ?_
  have hgrain : grain 3 ≤ 3 * grain 1 := by
    unfold grain
    linarith [halfLeast_pos]
  calc (0 + f * (2 + 1) + 1 + r * (1 + 1) + 1) * grain 3 ≤ 12 * grain 3 :=
        mul_le_mul_of_nonneg_right (by linarith) (grain_pos (by norm_num)).le
    _ ≤ 12 * (3 * grain 1) := mul_le_mul_of_nonneg_left hgrain (by norm_num)
    _ = weightError * grain 1 := by rw [weightError]; ring

/-! ## Sums -/

/-- One coordinate of a sum of terms. -/
def weighted (c : Point Float → Float) (t : Float) (terms : List (Term Float)) (start : Float) : Float :=
  terms.foldl (fun sum term => sum + c term.point * term.weight t) start

theorem sumFrom_eq (t : Float) (terms : List (Term Float)) (x y : Float) :
    sumFrom t terms x y = ⟨weighted Point.x t terms x, weighted Point.y t terms y⟩ := by
  induction terms generalizing x y with
  | nil => rfl
  | cons term terms ih => exact ih _ _

/-- Each term adds what its weight is off by, a product and a sum; the weights are of one at most. -/
theorem weighted_near {c : Point Float → Float} {s τ : ℚ} {t : Float} (hs : s ≤ scaleLimit)
    (ht : Near t τ (1 * grain 1)) (h0 : 0 ≤ τ) (h1 : τ ≤ 1) (shapes : List Shape)
    (hshapes : ∀ shape ∈ shapes, shape.IsCurve ∧ (c shape.point).isFinite = true ∧ |value (c shape.point)| ≤ s)
    {start : Float} {u w a : ℚ} (hstart : Near start u (a * grain s)) (ha : a + shapes.length * (weightError + 2) ≤ 2 ^ 9)
    (ha0 : 0 ≤ a) (hw : 0 ≤ w) (hu : |u| ≤ s * w) (hsum : w + (shapes.map (·.weight τ)).sum ≤ 1) :
    Near (weighted c t (shapes.map Shape.term) start)
      (u + (shapes.map fun shape => value (c shape.point) * shape.weight τ).sum)
      ((a + shapes.length * (weightError + 2)) * grain s) := by
  induction shapes generalizing start u w a with
  | nil => simpa [weighted] using hstart
  | cons shape shapes ih =>
    obtain ⟨hcurve, hfinite, hsize⟩ := hshapes shape (List.mem_cons_self ..)
    have hs0 : 0 ≤ s := (abs_nonneg _).trans hsize
    have hw0 := shape.weight_nonneg h0 h1
    have hrest : 0 ≤ (shapes.map (·.weight τ)).sum :=
      List.sum_nonneg fun v hv => by
        obtain ⟨shape', -, rfl⟩ := List.mem_map.mp hv
        exact shape'.weight_nonneg h0 h1
    rw [List.map_cons, List.sum_cons] at hsum
    rw [List.length_cons, Nat.cast_succ] at ha
    have hlen : (0 : ℚ) ≤ shapes.length * (weightError + 2) := by
      unfold weightError
      positivity
    have hpoint : Near (c shape.point) (value (c shape.point)) (0 * grain s) := by
      rw [zero_mul]
      exact .of_finite hfinite
    have hprod := hpoint.mul (weight_near ht h0 h1 hcurve) hsize (by rw [abs_of_nonneg hw0]; linarith) hs
      (by norm_num) (by norm_num [weightError])
    have hu' : |u + value (c shape.point) * shape.weight τ| ≤ s * (w + shape.weight τ) := by
      rw [mul_add]
      refine (abs_add_le _ _).trans (add_le_add hu ?_)
      rw [abs_mul, abs_of_nonneg hw0]
      exact mul_le_mul_of_nonneg_right hsize hw0
    have hle : s * (w + shape.weight τ) ≤ s := (mul_le_mul_of_nonneg_left (by linarith) hs0).trans_eq (mul_one s)
    have hadd := hstart.add hprod (hu'.trans hle) hs (by norm_num [weightError] at ha hlen ⊢; linarith)
      (by norm_num [weightError])
    have hnext := ih (fun shape' h => hshapes shape' (List.mem_cons_of_mem _ h))
      (hadd.mono (le_of_eq (by ring) : _ ≤ (a + (weightError + 2)) * grain s)) (by linarith)
      (by unfold weightError; linarith) (by linarith) hu' (by linarith)
    rw [List.map_cons, List.map_cons, List.sum_cons, ← add_assoc, List.length_cons, Nat.cast_succ]
    exact hnext.mono (le_of_eq (by ring))

/-! ## Samples -/

/-- What a sample is off by, in grains. -/
def sampleError : ℚ := 4 * (weightError + 2)

/-- The terms of a line, a quadratic or a cubic curve. -/
def shapes : Primitive Float → List Shape
  | .line p q => [⟨1, 1, 0, p⟩, ⟨1, 0, 1, q⟩]
  | .quadratic p c q => [⟨1, 2, 0, p⟩, ⟨2, 1, 1, c⟩, ⟨1, 0, 2, q⟩]
  | .cubic p c d q => [⟨1, 3, 0, p⟩, ⟨3, 2, 1, c⟩, ⟨3, 1, 2, d⟩, ⟨1, 0, 3, q⟩]

theorem terms_eq (piece : Primitive Float) : terms .forCurves piece.controlPoints = (shapes piece).map Shape.term := by
  cases piece <;> rfl

theorem sum_weight (piece : Primitive Float) (τ : ℚ) : ((shapes piece).map (·.weight τ)).sum = 1 := by
  cases piece <;> simp [shapes, Shape.weight] <;> ring

theorem sum_shapes (c : Point Float → Float) (piece : Primitive Float) (τ : ℚ) :
    ((shapes piece).map fun shape => value (c shape.point) * shape.weight τ).sum
      = Bezier.bezier (piece.controlPoints.map fun p => value (c p)) τ := by
  cases piece <;>
    simp [shapes, Shape.weight, Primitive.controlPoints, Bezier.bezier_line, Bezier.bezier_quadratic, Bezier.bezier_cubic] <;>
    ring

theorem shapes_spec (piece : Primitive Float) :
    (shapes piece).length ≤ 4 ∧ ∀ shape ∈ shapes piece, shape.IsCurve ∧ shape.point ∈ piece.controlPoints := by
  cases piece <;> simp [shapes, Shape.IsCurve, Primitive.controlPoints]

theorem evaluate_eq (points : List (Point Float)) (t : Float) :
    evaluate .forCurves points t
      = ⟨weighted Point.x t (terms .forCurves points) 0.0, weighted Point.y t (terms .forCurves points) 0.0⟩ :=
  sumFrom_eq t _ 0.0 0.0

/-- A sample is near the curve. -/
theorem sample_near {c : Point Float → Float} {s τ : ℚ} {t : Float} (hs : s ≤ scaleLimit) (hs0 : 0 ≤ s)
    (ht : Near t τ (1 * grain 1)) (h0 : 0 ≤ τ) (h1 : τ ≤ 1) (piece : Primitive Float)
    (hpoints : ∀ p ∈ piece.controlPoints, (c p).isFinite = true ∧ |value (c p)| ≤ s) :
    Near (weighted c t (terms .forCurves piece.controlPoints) 0.0)
      (Bezier.bezier (piece.controlPoints.map fun p => value (c p)) τ) (sampleError * grain s) := by
  obtain ⟨hlen, hshapes⟩ := shapes_spec piece
  have hlenq : ((shapes piece).length : ℚ) ≤ 4 := by exact_mod_cast hlen
  have hzero : Near 0.0 0 (0 * grain s) := by
    rw [zero_mul]
    exact .of_finite zero_exact.1
  have h := weighted_near (c := c) hs ht h0 h1 (shapes piece)
    (fun shape hmem => ⟨(hshapes shape hmem).1, hpoints _ (hshapes shape hmem).2⟩) hzero
    (by unfold weightError; linarith) le_rfl le_rfl (by rw [abs_zero, mul_zero]) (by rw [sum_weight, zero_add])
  rw [terms_eq, ← sum_shapes, ← zero_add (List.sum _)]
  refine h.mono (mul_le_mul_of_nonneg_right ?_ (grain_pos hs0).le)
  rw [sampleError, zero_add]
  exact mul_le_mul_of_nonneg_right hlenq (by norm_num [weightError])

end Curve

end VectorRaster
