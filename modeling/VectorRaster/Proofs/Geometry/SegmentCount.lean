/-
  VectorRaster.Proofs.Geometry.SegmentCount — how many sections a sweep is cut into.

  The number of quarter turns in a sweep is taken for a whole number if it is within the tolerance
  of one, and then rounded up. Both together ask for the least whole number that the sweep exceeds
  by less than the tolerance (`ceil_settled_le_iff`), so a count of sections is enough for a sweep
  exactly if the sweep is less than that many quarter turns and the tolerance
  (`segmentCount_le_iff`). All that is said here of the count comes from that; counts are words, so
  it stops at the last of them.
-/

import VectorRaster.Proofs.Numeric.Fields
import VectorRaster.Geometry.Arc

namespace VectorRaster.EllipticalArc

open Numeric

section Exact

variable {K : Type} [Field K] [LinearOrder K] [IsStrictOrderedRing K] [FloorRing K]

/-! ## Rounding up within a tolerance -/

/-- A number, or the nearest whole one if that is within the tolerance. -/
def settled (tolerance x : K) : K := if |x - round x| < tolerance then round x else x

theorem ceil_settled_le_iff {tolerance x : K} (hpos : 0 < tolerance) (hhalf : tolerance ≤ 1 / 2) {n : ℤ} :
    ⌈settled tolerance x⌉ ≤ n ↔ x < n + tolerance := by
  have hfloor := Int.floor_le (x + 1 / 2)
  have hceil := Int.lt_floor_add_one (x + 1 / 2)
  rw [Int.ceil_le, settled, round_eq]
  split
  · rename_i hnear
    obtain ⟨hbelow, habove⟩ := abs_lt.mp hnear
    constructor
    · intro hle
      linarith
    · -- a lesser whole number would be below `x` by more than a half
      intro hlt
      by_contra hgt
      have hstep : (n : K) + 1 ≤ ⌊x + 1 / 2⌋ := by exact_mod_cast lt_of_not_ge hgt
      linarith
  · rename_i hfar
    constructor
    · intro hle
      linarith
    · -- what exceeds a whole number by less than the tolerance is near to it
      intro hlt
      by_contra hgt
      have hnearest : ⌊x + 1 / 2⌋ = n := Int.floor_eq_iff.mpr ⟨by linarith, by linarith⟩
      refine hfar ?_
      rw [hnearest, abs_of_pos (by linarith)]
      linarith

/-! ## Counts -/

attribute [local instance] Scalar.exact

variable {a b : K} {n : ℕ}

theorem ratioTolerance_bounds : (0 : K) < ratioTolerance ∧ (ratioTolerance : K) ≤ 1 / 2 := by
  norm_num [ratioTolerance]

theorem quarterTurns_nonneg (a : K) : 0 ≤ |a| / quarterTurn := div_nonneg (abs_nonneg a) quarterTurn_pos.le

theorem segmentCount_eq (a : K) :
    segmentCount a = max (Word.capped ⌈settled ratioTolerance (|a| / quarterTurn)⌉.toNat) 1 := by
  simp only [segmentCount, Scalar.round, Scalar.abs, Scalar.ceil, Scalar.toCount, not_lt.mpr (quarterTurns_nonneg a),
    if_false, Int.floor_intCast, Int.ceil_intCast, ite_self, settled, round_eq]

theorem one_le_segmentCount (a : K) : 1 ≤ segmentCount a := by
  rw [segmentCount_eq]
  exact le_max_right _ _

/-- So many sections are enough. -/
theorem segmentCount_le_iff (hn : 1 ≤ n) :
    segmentCount a ≤ n ↔ Word.last ≤ n ∨ |a| / quarterTurn < n + ratioTolerance := by
  obtain ⟨hpos, hhalf⟩ := @ratioTolerance_bounds K _ _ _ _
  have hcount : ⌈settled ratioTolerance (|a| / quarterTurn)⌉.toNat ≤ n ↔ |a| / quarterTurn < n + ratioTolerance := by
    rw [Int.toNat_le, ceil_settled_le_iff hpos hhalf, Int.cast_natCast]
  rw [segmentCount_eq, max_le_iff, and_iff_left hn, Word.capped, min_le_iff, hcount, or_comm]

theorem segmentCount_neg (a : K) : segmentCount (-a) = segmentCount a := by
  rw [segmentCount_eq, segmentCount_eq, abs_neg]

theorem segmentCount_mono (h : |a| ≤ |b|) : segmentCount a ≤ segmentCount b := by
  refine (segmentCount_le_iff (one_le_segmentCount b)).mpr ?_
  refine ((segmentCount_le_iff (one_le_segmentCount b)).mp le_rfl).imp_right fun hb => ?_
  exact (div_le_div_of_nonneg_right h quarterTurn_pos.le).trans_lt hb

/-- The count is a word without being cut short. -/
def CountFits (a : K) : Prop := |a| / quarterTurn < Word.last + ratioTolerance

theorem CountFits.lt_segmentCount (h : CountFits a) : |a| / quarterTurn < segmentCount a + ratioTolerance := by
  rcases (segmentCount_le_iff (one_le_segmentCount a)).mp le_rfl with hlast | hlt
  · have hcast : (Word.last : K) ≤ segmentCount a := by exact_mod_cast hlast
    exact h.trans_le (add_le_add_left hcast _)
  · exact hlt

theorem CountFits.isLeast (h : CountFits a) :
    IsLeast {n : ℕ | 1 ≤ n ∧ |a| / quarterTurn < n + ratioTolerance} (segmentCount a) := by
  refine ⟨⟨one_le_segmentCount a, h.lt_segmentCount⟩, fun n hn => ?_⟩
  exact (segmentCount_le_iff hn.1).mpr (.inr hn.2)

/-- A section is hardly longer than a quarter turn. -/
theorem CountFits.section_lt (h : CountFits a) : |a| / segmentCount a < (1 + ratioTolerance) * quarterTurn := by
  have hone : (1 : K) ≤ segmentCount a := by exact_mod_cast one_le_segmentCount a
  have hpos : (0 : K) < segmentCount a := by linarith
  have htolerance := (@ratioTolerance_bounds K _ _ _ _).1
  have hquarter := @quarterTurn_pos K _ _ _ _
  have hlt := h.lt_segmentCount
  rw [div_lt_iff₀ hquarter] at hlt
  rw [div_lt_iff₀ hpos]
  calc |a| < (segmentCount a + ratioTolerance) * quarterTurn := hlt
    _ ≤ (segmentCount a + ratioTolerance * segmentCount a) * quarterTurn := by
      refine mul_le_mul_of_nonneg_right ?_ hquarter.le
      linarith [le_mul_of_one_le_right htolerance.le hone]
    _ = (1 + ratioTolerance) * quarterTurn * segmentCount a := by ring

/-- With fewer sections each is longer than a quarter turn. -/
theorem le_section_of_lt (hn : 1 ≤ n) (h : n < segmentCount a) :
    (1 + ratioTolerance / n) * quarterTurn ≤ |a| / n := by
  have hpos : (0 : K) < n := by exact_mod_cast hn
  have hle : (n : K) + ratioTolerance ≤ |a| / quarterTurn := by
    by_contra hlt
    exact absurd ((segmentCount_le_iff hn).mpr (.inr (lt_of_not_ge hlt))) (Nat.not_le_of_lt h)
  rw [le_div_iff₀ hpos]
  calc (1 + ratioTolerance / n) * quarterTurn * n = ((n : K) + ratioTolerance) * quarterTurn := by field_simp
    _ ≤ |a| := (le_div_iff₀ quarterTurn_pos).mp hle

end Exact

/-! ## Finite sweeps -/

/-- The number of sections of a sweep is the least that is not exceeded by the tolerance: whatever the direction, more
for a longer sweep, none of more than a quarter turn and the tolerance, and one less would make them longer than a
quarter turn. -/
theorem segmentCount_isLeast {a : ℚ} (h : |a| / value quarterTurn < Word.last + 1 / 10 ^ 7) :
    IsLeast {n : ℕ | 1 ≤ n ∧ |a| / value quarterTurn < n + 1 / 10 ^ 7} (segmentCount a) ∧
      segmentCount (-a) = segmentCount a ∧ (∀ b, |b| ≤ |a| → segmentCount b ≤ segmentCount a) ∧
      |a| / segmentCount a < (1 + 1 / 10 ^ 7) * value quarterTurn ∧
      ∀ n : ℕ, 1 ≤ n → n < segmentCount a → (1 + 1 / 10 ^ 7 / n) * value quarterTurn ≤ |a| / n := by
  have htolerance : (1 / 10 ^ 7 : ℚ) = ratioTolerance := by norm_num [ratioTolerance]
  rw [value_quarterTurn, htolerance] at h ⊢
  have hfits : CountFits a := h
  exact ⟨hfits.isLeast, segmentCount_neg a, fun b hb => segmentCount_mono hb, hfits.section_lt,
    fun n hn hlt => le_section_of_lt hn hlt⟩

/-- A half turn backwards that is longer by a tenth of the tolerance has two sections. -/
theorem segmentCount_isLeast_half_turn :
    let a : ℚ := -(2 + 1 / 10 ^ 8) * value quarterTurn
    |a| / value quarterTurn < Word.last + 1 / 10 ^ 7 ∧ segmentCount a = 2 := by
  intro a
  have hquarter : 0 < value quarterTurn := by
    rw [value_quarterTurn]
    exact quarterTurn_pos
  have hturns : |a| / value quarterTurn = 2 + 1 / 10 ^ 8 := by
    rw [abs_mul, abs_neg, abs_of_pos hquarter, mul_div_cancel_right₀ _ hquarter.ne']
    norm_num
  have hfits : |a| / value quarterTurn < Word.last + 1 / 10 ^ 7 := by
    rw [hturns]
    norm_num [Word.last, Word.size]
  refine ⟨hfits, (segmentCount_isLeast hfits).1.unique ⟨⟨by norm_num, ?_⟩, fun n hn => ?_⟩⟩
  · rw [hturns]
    norm_num
  · obtain ⟨-, hlt⟩ := hn
    rw [hturns] at hlt
    have hone : (1 : ℚ) < n := by linarith
    exact_mod_cast hone

end VectorRaster.EllipticalArc
