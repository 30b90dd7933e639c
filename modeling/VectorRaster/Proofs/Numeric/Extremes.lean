/-
  VectorRaster.Proofs.Numeric.Extremes — the least and the greatest of some doubles.

  Proved: for finite doubles `minimum` and `maximum` give one of their arguments, and no
  argument is below the one or above the other. The greatest finite double, which both start
  from, changes nothing.
-/

import VectorRaster.Numeric.Scalar
import VectorRaster.Proofs.Numeric.Conversion

namespace VectorRaster.Numeric

/-! ## The greatest double -/

theorem greatestDouble_eq : (1.7976931348623157e308 : Float) = .ofBits 0x7FEFFFFFFFFFFFFF := by decide +kernel

theorem greatestDouble_exact : (1.7976931348623157e308 : Float).isFinite = true ∧
    value 1.7976931348623157e308 = (2 ^ 53 - 1) * 2 ^ (971 : Int) := by
  rw [greatestDouble_eq]
  have h : (Float.ofBits 0x7FEFFFFFFFFFFFFF).toModel.unpack = .finite .positive (2 ^ 53 - 1) 971 (by decide) := rfl
  refine ⟨rfl, ?_⟩
  rw [value, h, rational_positive]
  norm_num

section

variable {x y : Float}

theorem abs_value_le_greatest (hx : x.isFinite = true) : |value x| ≤ value 1.7976931348623157e308 := by
  rw [greatestDouble_exact.2]
  obtain ⟨hf, hr⟩ := fits_of_isFinite hx
  rw [value]
  cases h : x.toModel.unpack with
  | infinity s => rw [h] at hf; exact hf.elim
  | notANumber => rw [h] at hf; exact hf.elim
  | zero s =>
    show |(0 : ℚ)| ≤ _
    rw [abs_zero]
    exact mul_nonneg (by norm_num) (zpow_pos two_pos _).le
  | finite s m e hm =>
    rw [h] at hf hr
    have hm53 : (m : ℚ) ≤ 2 ^ 53 - 1 := by
      have : m + 1 ≤ 2 ^ 53 := hf.1
      have : (m : ℚ) + 1 ≤ 2 ^ 53 := by exact_mod_cast this
      linarith
    rw [abs_rational_finite]
    exact mul_le_mul hm53 (zpow_le_zpow_right₀ one_le_two hr) (zpow_pos two_pos e).le (by norm_num)

/-! ## Two doubles -/

theorem smallerFloat_exact (hx : x.isFinite = true) (hy : y.isFinite = true) :
    (smallerFloat x y).isFinite = true ∧ value (smallerFloat x y) = min (value x) (value y) := by
  unfold smallerFloat
  rw [isNaN_of_isFinite hx, if_neg (by decide)]
  split
  · rename_i h
    rw [lt_iff hy hx] at h
    exact ⟨hy, (min_eq_right h.le).symm⟩
  · rename_i h
    rw [lt_iff hy hx] at h
    exact ⟨hx, (min_eq_left (not_lt.mp h)).symm⟩

theorem largerFloat_exact (hx : x.isFinite = true) (hy : y.isFinite = true) :
    (largerFloat x y).isFinite = true ∧ value (largerFloat x y) = max (value x) (value y) := by
  unfold largerFloat
  rw [isNaN_of_isFinite hx, if_neg (by decide)]
  split
  · rename_i h
    rw [lt_iff hx hy] at h
    exact ⟨hy, (max_eq_right h.le).symm⟩
  · rename_i h
    rw [lt_iff hx hy] at h
    exact ⟨hx, (max_eq_left (not_lt.mp h)).symm⟩

/-! ## Lists of doubles -/

theorem foldl_smaller_exact (xs : List Float) (hxs : ∀ y ∈ xs, y.isFinite = true) (hx : x.isFinite = true) :
    (xs.foldl smallerFloat x).isFinite = true ∧
      value (xs.foldl smallerFloat x) = (xs.map value).foldl min (value x) := by
  induction xs generalizing x with
  | nil => exact ⟨hx, rfl⟩
  | cons y ys ih =>
    obtain ⟨hf, hv⟩ := smallerFloat_exact hx (hxs y (List.mem_cons_self ..))
    rw [List.foldl_cons, List.map_cons, List.foldl_cons, ← hv]
    exact ih (fun z hz => hxs z (List.mem_cons_of_mem _ hz)) hf

theorem foldl_larger_exact (xs : List Float) (hxs : ∀ y ∈ xs, y.isFinite = true) (hx : x.isFinite = true) :
    (xs.foldl largerFloat x).isFinite = true ∧
      value (xs.foldl largerFloat x) = (xs.map value).foldl max (value x) := by
  induction xs generalizing x with
  | nil => exact ⟨hx, rfl⟩
  | cons y ys ih =>
    obtain ⟨hf, hv⟩ := largerFloat_exact hx (hxs y (List.mem_cons_self ..))
    rw [List.foldl_cons, List.map_cons, List.foldl_cons, ← hv]
    exact ih (fun z hz => hxs z (List.mem_cons_of_mem _ hz)) hf

theorem minimum_eq (x : Float) (xs : List Float) :
    minimum x xs = xs.foldl smallerFloat (smallerFloat 1.7976931348623157e308 x) := by
  have hgreatest : (Scalar.greatest? : Option Float) = some 1.7976931348623157e308 := rfl
  rw [minimum, hgreatest, Option.map_some, Option.getD_some]
  rfl

theorem maximum_eq (x : Float) (xs : List Float) :
    maximum x xs = xs.foldl largerFloat (largerFloat (-1.7976931348623157e308) x) := by
  have hleast : (Scalar.least? : Option Float) = some (-1.7976931348623157e308) := rfl
  rw [maximum, hleast, Option.map_some, Option.getD_some]
  rfl

theorem minimum_exact (hx : x.isFinite = true) {xs : List Float} (hxs : ∀ y ∈ xs, y.isFinite = true) :
    (minimum x xs).isFinite = true ∧ value (minimum x xs) = (xs.map value).foldl min (value x) := by
  obtain ⟨hf, hv⟩ := smallerFloat_exact greatestDouble_exact.1 hx
  have hle := (le_abs_self (value x)).trans (abs_value_le_greatest hx)
  rw [min_eq_right hle] at hv
  rw [← hv, minimum_eq]
  exact foldl_smaller_exact xs hxs hf

theorem maximum_exact (hx : x.isFinite = true) {xs : List Float} (hxs : ∀ y ∈ xs, y.isFinite = true) :
    (maximum x xs).isFinite = true ∧ value (maximum x xs) = (xs.map value).foldl max (value x) := by
  obtain ⟨hneg, hvneg⟩ := neg_exact greatestDouble_exact.1
  obtain ⟨hf, hv⟩ := largerFloat_exact hneg hx
  have hle := (abs_le.mp (abs_value_le_greatest hx)).1
  rw [hvneg, max_eq_right hle] at hv
  rw [← hv, maximum_eq]
  exact foldl_larger_exact xs hxs hf

end

/-! ## Folds of exact numbers -/

theorem foldl_min_spec (a : ℚ) (l : List ℚ) : (∀ x ∈ a :: l, l.foldl min a ≤ x) ∧ l.foldl min a ∈ a :: l := by
  induction l generalizing a with
  | nil => simp
  | cons b l ih =>
    obtain ⟨hle, hmem⟩ := ih (min a b)
    rw [List.forall_mem_cons] at hle
    obtain ⟨hmin, hle⟩ := hle
    rw [List.foldl_cons]
    refine ⟨?_, ?_⟩
    · rw [List.forall_mem_cons, List.forall_mem_cons]
      exact ⟨hmin.trans (min_le_left a b), hmin.trans (min_le_right a b), hle⟩
    · rcases List.mem_cons.mp hmem with h | h
      · rw [h]
        rcases min_choice a b with h | h <;> rw [h] <;> simp
      · simp [h]

theorem foldl_max_spec (a : ℚ) (l : List ℚ) : (∀ x ∈ a :: l, x ≤ l.foldl max a) ∧ l.foldl max a ∈ a :: l := by
  induction l generalizing a with
  | nil => simp
  | cons b l ih =>
    obtain ⟨hle, hmem⟩ := ih (max a b)
    rw [List.forall_mem_cons] at hle
    obtain ⟨hmax, hle⟩ := hle
    rw [List.foldl_cons]
    refine ⟨?_, ?_⟩
    · rw [List.forall_mem_cons, List.forall_mem_cons]
      exact ⟨(le_max_left a b).trans hmax, (le_max_right a b).trans hmax, hle⟩
    · rcases List.mem_cons.mp hmem with h | h
      · rw [h]
        rcases max_choice a b with h | h <;> rw [h] <;> simp
      · simp [h]

/-! ## The ends of some doubles -/

theorem minimum_spec {x : Float} {xs : List Float} (hx : x.isFinite = true) (hxs : ∀ y ∈ xs, y.isFinite = true) :
    (minimum x xs).isFinite = true ∧ (∀ y ∈ x :: xs, value (minimum x xs) ≤ value y) ∧
      ∃ y ∈ x :: xs, value y = value (minimum x xs) := by
  obtain ⟨hf, hv⟩ := minimum_exact hx hxs
  obtain ⟨hle, hmem⟩ := foldl_min_spec (value x) (xs.map value)
  rw [← hv, ← List.map_cons] at hle hmem
  exact ⟨hf, fun y hy => hle _ (List.mem_map_of_mem hy), List.mem_map.mp hmem⟩

theorem maximum_spec {x : Float} {xs : List Float} (hx : x.isFinite = true) (hxs : ∀ y ∈ xs, y.isFinite = true) :
    (maximum x xs).isFinite = true ∧ (∀ y ∈ x :: xs, value y ≤ value (maximum x xs)) ∧
      ∃ y ∈ x :: xs, value y = value (maximum x xs) := by
  obtain ⟨hf, hv⟩ := maximum_exact hx hxs
  obtain ⟨hle, hmem⟩ := foldl_max_spec (value x) (xs.map value)
  rw [← hv, ← List.map_cons] at hle hmem
  exact ⟨hf, fun y hy => hle _ (List.mem_map_of_mem hy), List.mem_map.mp hmem⟩

end VectorRaster.Numeric
