/-
  VectorRaster.Proofs.Raster.Nearest — the pixel that a point in doubles is nearest to.

  Proved: along one axis, the pixels nearest to two numbers are no further apart than the
  numbers, and one; the lesser number has no greater pixel; and a number less than a half away
  from a whole one has that pixel.
-/

import VectorRaster.Proofs.Numeric.Conversion
import VectorRaster.Raster.Stroke

namespace VectorRaster

open Numeric

/-- The pixel nearest to a number, along one axis. -/
def pixelAt (x : Float) : Int64 := truncateInt64 (roundHalfAway x)

/-- A whole number, moved into the range of words with a sign. -/
def clampWord (n : Int) : Int := max (-2 ^ 63) (min (2 ^ 63 - 1) n)

theorem clampWord_mono {m n : Int} (h : m ≤ n) : clampWord m ≤ clampWord n := by
  unfold clampWord
  omega

theorem abs_clampWord_sub_le (m n : Int) : |clampWord m - clampWord n| ≤ |m - n| := by
  rw [Int.abs_eq_natAbs, Int.abs_eq_natAbs]
  unfold clampWord
  omega

section

variable {x y : Float}

theorem toInt_pixelAt (hx : x.isFinite = true) : (pixelAt x).toInt = clampWord (nearestInt (value x)) := by
  obtain ⟨hf, hv⟩ := roundHalfAway_exact hx
  exact truncateInt64_spec hf hv

theorem pixelAt_spec (hx : x.isFinite = true) : ∃ n : Int, (pixelAt x).toInt = clampWord n ∧ |n - value x| ≤ 1 / 2 :=
  ⟨nearestInt (value x), toInt_pixelAt hx, abs_nearestInt_sub_le (value x)⟩

theorem pixelAt_apart (hx : x.isFinite = true) (hy : y.isFinite = true) :
    |((pixelAt x).toInt - (pixelAt y).toInt : ℚ)| ≤ 1 + |value x - value y| := by
  obtain ⟨m, hm, hmx⟩ := pixelAt_spec hx
  obtain ⟨n, hn, hny⟩ := pixelAt_spec hy
  have hle : |((clampWord m : ℚ) - clampWord n)| ≤ |(m - n : ℚ)| := by exact_mod_cast abs_clampWord_sub_le m n
  have hsplit : (m - n : ℚ) = (m - value x) + (value x - value y) + (value y - n) := by ring
  rw [hm, hn]
  rw [abs_sub_comm] at hny
  calc |((clampWord m : ℚ) - clampWord n)| ≤ |(m - n : ℚ)| := hle
    _ ≤ |m - value x| + |value x - value y| + |value y - n| := by
      rw [hsplit]
      exact (abs_add_le _ _).trans (add_le_add_left (abs_add_le _ _) _)
    _ ≤ 1 + |value x - value y| := by linarith

theorem pixelAt_mono (hx : x.isFinite = true) (hy : y.isFinite = true) (h : value x < value y) :
    (pixelAt x).toInt ≤ (pixelAt y).toInt := by
  rw [toInt_pixelAt hx, toInt_pixelAt hy]
  exact clampWord_mono (nearestInt_mono h.le)

theorem pixelAt_of_near {n : Int} (hx : x.isFinite = true) (h : |value x - n| < 1 / 2) :
    (pixelAt x).toInt = clampWord n := by
  obtain ⟨m, hm, hmx⟩ := pixelAt_spec hx
  have hmn : |((m - n : Int) : ℚ)| < 1 := by
    rw [Int.cast_sub]
    have := abs_sub_le (m : ℚ) (value x) n
    linarith
  have : m - n = 0 := Int.abs_lt_one_iff.mp (by exact_mod_cast hmn)
  rw [hm, show m = n by omega]

/-- Numbers around zero have the same pixel. -/
theorem pixelAt_le (hx : x.isFinite = true) (hy : y.isFinite = true)
    (h : value x < value y ∨ (|value x| < 1 / 2 ∧ |value y| < 1 / 2)) : (pixelAt x).toInt ≤ (pixelAt y).toInt := by
  rcases h with h | ⟨h, h'⟩
  · exact pixelAt_mono hx hy h
  · have hx0 : (pixelAt x).toInt = clampWord 0 := pixelAt_of_near hx (by rwa [Int.cast_zero, sub_zero])
    have hy0 : (pixelAt y).toInt = clampWord 0 := pixelAt_of_near hy (by rwa [Int.cast_zero, sub_zero])
    rw [hx0, hy0]

end

end VectorRaster
