/-
  VectorRaster.Proofs.Geometry.SampleCount — how many steps the bounding box of a curve asks for.

  Proved: a side is the extent of the control numbers, rounded to a whole number, and one at
  least; and where the coordinates are no more than `sizeLimit`, the steps are the product of the
  two sides (`sampleCount_spec`). So a curve that extends over as many pixels as it has control
  points, in both directions, has more steps than its speed asks for (`speed_of_wide`).
-/

import VectorRaster.Proofs.Geometry.Bezier
import VectorRaster.Proofs.Numeric.Extremes
import VectorRaster.Proofs.Numeric.Near
import VectorRaster.Geometry.Curve

namespace VectorRaster

open Numeric

namespace Curve

/-- What some numbers extend over. -/
def extent : List ℚ → ℚ
  | [] => 0
  | x :: xs => xs.foldl max x - xs.foldl min x

/-- Coordinates up to this one give sides whose product is a word. -/
def sizeLimit : ℚ := 2 ^ 30

/-- What a side is off by, before it is rounded. -/
def sideError : ℚ := 1 / 2 ^ 20

theorem abs_sub_le_extent {xs : List ℚ} {u v : ℚ} (hu : u ∈ xs) (hv : v ∈ xs) : |u - v| ≤ extent xs := by
  cases xs with
  | nil => cases hu
  | cons x xs =>
    have hmax := (foldl_max_spec x xs).1
    have hmin := (foldl_min_spec x xs).1
    rw [extent, abs_le]
    constructor <;> linarith [hmax u hu, hmin v hv, hmax v hv, hmin u hu]

theorem exists_extent_eq {xs : List ℚ} (hne : xs ≠ []) : ∃ u ∈ xs, ∃ v ∈ xs, extent xs = u - v := by
  cases xs with
  | nil => exact (hne rfl).elim
  | cons x xs => exact ⟨_, (foldl_max_spec x xs).2, _, (foldl_min_spec x xs).2, rfl⟩

theorem extent_nonneg {xs : List ℚ} (hne : xs ≠ []) : 0 ≤ extent xs := by
  obtain ⟨u, hu, -⟩ := exists_extent_eq hne
  exact (abs_nonneg _).trans (abs_sub_le_extent hu hu)

theorem extent_le {xs : List ℚ} {M : ℚ} (hne : xs ≠ []) (h : ∀ x ∈ xs, |x| ≤ M) : extent xs ≤ 2 * M := by
  obtain ⟨u, hu, v, hv, he⟩ := exists_extent_eq hne
  have hu := abs_le.mp (h u hu)
  have hv := abs_le.mp (h v hv)
  linarith

/-! ## Sides -/

/-- A side is a rounded difference. -/
theorem side_spec {low high : Float} (hlow : low.isFinite = true) (hhigh : high.isFinite = true)
    (hle : value low ≤ value high) (hsize : value high - value low ≤ 2 * sizeLimit) :
    ∃ k : Nat, side low high = max k 1 ∧ |k - (value high - value low)| ≤ 1 / 2 + sideError := by
  unfold sizeLimit at hsize
  unfold sideError
  have habs : |value high - value low| = value high - value low := abs_of_nonneg (by linarith)
  have hround := sub_rounded hhigh hlow (by
    rw [habs]
    calc value high - value low ≤ 4 * scaleLimit := by linarith [two_pow_le_scaleLimit]
      _ < 2 ^ (1023 : Int) := scaleLimit_lt)
  have herr := hround.error
  rw [habs] at herr
  obtain ⟨hf, n, hn, hnear⟩ := roundHalfAway_spec hround.finite
  have herr := abs_le.mp herr
  have hnear := abs_le.mp hnear
  have hhalf := halfLeast_le
  have hn0 : 0 ≤ n := by
    have : (-1 : ℚ) < n := by linarith
    have : -1 < n := by exact_mod_cast this
    omega
  have hnq : (0 : ℚ) ≤ n := by exact_mod_cast hn0
  have hword := toUInt64_eq hf (by rwa [hn]) (by rw [hn]; linarith)
  rw [hn, Int.floor_intCast] at hword
  refine ⟨(roundHalfAway (high - low)).toUInt64.toNat, rfl, ?_⟩
  rw [← Int.cast_natCast (roundHalfAway (high - low)).toUInt64.toNat, hword, abs_le]
  constructor <;> linarith

theorem maximum_sub_minimum {x : Float} {xs : List Float} (hfinite : ∀ y ∈ x :: xs, y.isFinite = true) :
    value (maximum x xs) - value (minimum x xs) = extent ((x :: xs).map value) := by
  have hx := hfinite x (List.mem_cons_self ..)
  have hxs : ∀ y ∈ xs, y.isFinite = true := fun y hy => hfinite y (List.mem_cons_of_mem _ hy)
  rw [(minimum_exact hx hxs).2, (maximum_exact hx hxs).2]
  rfl

/-- A side of the bounding box, from the coordinates of the control points. -/
theorem side_coordinates (x : Float) (xs : List Float) (hfinite : ∀ y ∈ x :: xs, y.isFinite = true)
    (hsize : ∀ y ∈ x :: xs, |value y| ≤ sizeLimit) :
    ∃ k : Nat, side (minimum x xs) (maximum x xs) = max k 1 ∧
      |k - extent ((x :: xs).map value)| ≤ 1 / 2 + sideError := by
  have hx := hfinite x (List.mem_cons_self ..)
  have hxs : ∀ y ∈ xs, y.isFinite = true := fun y hy => hfinite y (List.mem_cons_of_mem _ hy)
  have hlow := (minimum_exact hx hxs).1
  have hhigh := (maximum_exact hx hxs).1
  have hne : (x :: xs).map value ≠ [] := by simp
  have hle : extent ((x :: xs).map value) ≤ 2 * sizeLimit := extent_le hne fun v hv => by
    obtain ⟨y, hy, rfl⟩ := List.mem_map.mp hv
    exact hsize y hy
  have h0 := extent_nonneg hne
  rw [← maximum_sub_minimum hfinite] at h0 hle ⊢
  exact side_spec hlow hhigh (by linarith) hle

/-! ## Steps -/

/-- The steps are the product of the sides. -/
theorem sampleCount_spec {points : List (Point Float)} (hne : points ≠ [])
    (hfinite : ∀ p ∈ points, p.x.isFinite = true ∧ p.y.isFinite = true)
    (hsize : ∀ p ∈ points, |value p.x| ≤ sizeLimit ∧ |value p.y| ≤ sizeLimit) :
    ∃ j k : Nat, sampleCount points = max j 1 * max k 1 ∧
      |j - extent (points.map fun p => value p.x)| ≤ 1 / 2 + sideError ∧
      |k - extent (points.map fun p => value p.y)| ≤ 1 / 2 + sideError := by
  cases points with
  | nil => exact (hne rfl).elim
  | cons p ps =>
    have hside : ∀ c : Point Float → Float, (∀ q ∈ p :: ps, (c q).isFinite = true) →
        (∀ q ∈ p :: ps, |value (c q)| ≤ sizeLimit) →
        ∃ k : Nat, side (minimum (c p) (ps.map c)) (maximum (c p) (ps.map c)) = max k 1 ∧ k < 4294967295 ∧
          |k - extent ((p :: ps).map fun q => value (c q))| ≤ 1 / 2 + sideError := by
      intro c hf hs
      have hmap : c p :: ps.map c = (p :: ps).map c := rfl
      obtain ⟨k, hk, hnear⟩ := side_coordinates (c p) (ps.map c) (by rwa [hmap, List.forall_mem_map])
        (by rwa [hmap, List.forall_mem_map])
      rw [hmap, List.map_map] at hnear
      have hle : extent ((p :: ps).map fun q => value (c q)) ≤ 2 * sizeLimit := extent_le (by simp) fun v hv => by
        obtain ⟨q, hq, rfl⟩ := List.mem_map.mp hv
        exact hs q hq
      have hlt : (k : ℚ) < 4294967295 := by
        have := (abs_le.mp hnear).2
        unfold sizeLimit at hle
        unfold sideError at this
        change k - extent ((p :: ps).map fun q => value (c q)) ≤ _ at this
        linarith
      exact ⟨k, hk, by exact_mod_cast hlt, hnear⟩
    obtain ⟨j, hj, hj32, hjnear⟩ := hside Point.x (fun q hq => (hfinite q hq).1) fun q hq => (hsize q hq).1
    obtain ⟨k, hk, hk32, hknear⟩ := hside Point.y (fun q hq => (hfinite q hq).2) fun q hq => (hsize q hq).2
    refine ⟨j, k, ?_, hjnear, hknear⟩
    have hlast : Word.last = 2 ^ 64 - 1 := rfl
    have hlt : max j 1 * max k 1 ≤ 4294967295 * 4294967295 := Nat.mul_le_mul (by omega) (by omega)
    rw [sampleCount, hj, hk, Word.capped]
    omega

/-- Where both sides are at least one more than the degree, there are more steps than degrees times a side. -/
theorem speed_of_wide {d j k : Nat} (hd : d ≤ 3) {W H : ℚ} (hW : d + 1 ≤ W) (hH : d + 1 ≤ H)
    (hj : |j - W| ≤ 1 / 2 + sideError) (hk : |k - H| ≤ 1 / 2 + sideError) :
    64 * (d * W) ≤ 63 * (max j 1 * max k 1 : ℕ) := by
  have hj := (abs_le.mp hj).1
  have hk := (abs_le.mp hk).1
  have hmaxj : (j : ℚ) ≤ (max j 1 : ℕ) := by exact_mod_cast Nat.le_max_left j 1
  have hmaxk : (k : ℚ) ≤ (max k 1 : ℕ) := by exact_mod_cast Nat.le_max_left k 1
  have hd0 : (0 : ℚ) ≤ d := Nat.cast_nonneg d
  have hprod : (W - 1 / 2 - sideError) * (d + 1 / 2 - sideError) ≤ (max j 1 : ℕ) * (max k 1 : ℕ) := by
    unfold sideError at hj hk ⊢
    exact mul_le_mul (by linarith) (by linarith) (by linarith) (by linarith)
  rw [Nat.cast_mul]
  unfold sideError at hprod
  have hcases : d = 0 ∨ d = 1 ∨ d = 2 ∨ d = 3 := by omega
  rcases hcases with rfl | rfl | rfl | rfl <;> push_cast at hW hprod ⊢ <;> linarith

end Curve

end VectorRaster
