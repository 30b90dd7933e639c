/-
  VectorRaster.Proofs.Numeric.Unpacked — the numbers that doubles stand for, and rounding to them.

  A finite double is a sign, a mantissa of at most 53 bits and an exponent (`Fits`); it stands
  for a rational number (`rational`). `Nearest` is what the format promises of a result: it is
  a finite number, off by at most half a unit of its last place, and not off at all where the
  exact result is itself a number of the format. The exponent is not bounded above here: the
  overflow happens when a result is packed.

  Proved: shifting a mantissa keeps what it and its two residual bits say of the exact number
  (`Stands`), so the rounding that ends each operation gives the nearest number.
-/

import Mathlib.Tactic.FieldSimp
import Mathlib.Tactic.Linarith
import Mathlib.Tactic.Positivity
import Mathlib.Tactic.Ring

namespace VectorRaster.Numeric

open Float.Model Float.Model.UnpackedFloat

/-! ## Numbers of the format -/

/-- One, with a sign. -/
def signUnit : Sign → ℚ
  | .negative => -1
  | .positive => 1

@[simp] theorem signUnit_neg (s : Sign) : signUnit (-s) = -signUnit s := by
  cases s
  · exact (neg_neg (1 : ℚ)).symm
  · rfl

theorem signUnit_mul : ∀ s t : Sign, signUnit (s * t) = signUnit s * signUnit t
  | .negative, .negative => (by norm_num : (1 : ℚ) = -1 * -1)
  | .negative, .positive => (by norm_num : (-1 : ℚ) = -1 * 1)
  | .positive, .negative => (by norm_num : (-1 : ℚ) = 1 * -1)
  | .positive, .positive => (by norm_num : (1 : ℚ) = 1 * 1)

theorem signUnit_div (s t : Sign) : signUnit (s / t) = signUnit s * signUnit t := by
  rw [← signUnit_mul]
  cases s <;> cases t <;> rfl

@[simp] theorem abs_signUnit (s : Sign) : |signUnit s| = 1 := by
  cases s <;> simp [signUnit]

@[simp] theorem signUnit_mul_self (s : Sign) : signUnit s * signUnit s = 1 := by
  cases s <;> simp [signUnit]

theorem cast_apply (s : Sign) (n : Int) : ((s.apply n : Int) : ℚ) = signUnit s * n := by
  cases s <;> simp [signUnit, Sign.apply]

/-- The number that a finite double stands for. -/
def rational : UnpackedFloat → ℚ
  | .finite s m e _ => signUnit s * (m * 2 ^ e)
  | _ => 0

theorem rational_zero (s : Sign) : rational (.zero s) = 0 := rfl

theorem rational_finite (s : Sign) {m : Nat} {e : Int} (hm : 0 < m) :
    rational (.finite s m e hm) = signUnit s * (m * 2 ^ e) := rfl

theorem rational_positive {m : Nat} {e : Int} (hm : 0 < m) : rational (.finite .positive m e hm) = m * 2 ^ e :=
  one_mul _

theorem rational_negative {m : Nat} {e : Int} (hm : 0 < m) : rational (.finite .negative m e hm) = -(m * 2 ^ e) :=
  neg_one_mul _

theorem abs_rational_finite (s : Sign) {m : Nat} {e : Int} (hm : 0 < m) :
    |rational (.finite s m e hm)| = m * 2 ^ e := by
  have hnonneg : (0 : ℚ) ≤ m * 2 ^ e := mul_nonneg (Nat.cast_nonneg m) (zpow_pos two_pos e).le
  rw [rational_finite, abs_mul, abs_signUnit, one_mul, abs_of_nonneg hnonneg]

/-- A finite number of the format, but for the greatest exponent. -/
def Fits : UnpackedFloat → Prop
  | .zero _ => True
  | .finite _ m e _ => m < 2 ^ 53 ∧ -1074 ≤ e ∧ (2 ^ 52 ≤ m ∨ e = -1074)
  | _ => False

/-- Half the least positive number of the format. -/
@[irreducible]
def halfLeast : ℚ := 2 ^ (-1075 : Int)

theorem halfLeast_pos : 0 < halfLeast := by
  rw [halfLeast]
  exact zpow_pos two_pos _

/-- What a rounded result is to the exact one. -/
structure Nearest (f : UnpackedFloat) (v : ℚ) : Prop where
  fits : Fits f
  error : |rational f - v| ≤ |v| / 2 ^ 53 + halfLeast
  exact : ∀ j k : Int, |j| < 2 ^ 53 → -1074 ≤ k → v = j * 2 ^ k → rational f = v

theorem Fits.nearest {f : UnpackedFloat} (h : Fits f) : Nearest f (rational f) where
  fits := h
  error := by
    rw [sub_self, abs_zero]
    have := halfLeast_pos
    positivity
  exact := fun _ _ _ _ _ => rfl

/-! ## Mantissas with residual bits -/

/-- What a mantissa and its residual bits say of the exact number. -/
def Stands : ExtendedMantissa → ℚ → Prop
  | ⟨m, false, false⟩, x => x = m
  | ⟨m, false, true⟩, x => (m : ℚ) < x ∧ x < m + 1 / 2
  | ⟨m, true, false⟩, x => x = m + 1 / 2
  | ⟨m, true, true⟩, x => (m : ℚ) + 1 / 2 < x ∧ x < m + 1

namespace Stands

variable {em : ExtendedMantissa} {x : ℚ}

theorem bounds (h : Stands em x) : (em.mantissa : ℚ) ≤ x ∧ x < em.mantissa + 1 := by
  obtain ⟨m, r, s⟩ := em
  cases r <;> cases s <;> simp only [Stands] at h ⊢ <;> constructor <;> linarith

theorem mantissa_le_rounded (em : ExtendedMantissa) :
    em.mantissa ≤ em.roundedMantissa ∧ em.roundedMantissa ≤ em.mantissa + 1 := by
  obtain ⟨m, r, s⟩ := em
  cases r <;> cases s <;>
    simp only [ExtendedMantissa.roundedMantissa, ExtendedMantissa.accuracy, Accuracy.roundToNearestEven] <;> omega

theorem rounded_error (h : Stands em x) : |(em.roundedMantissa : ℚ) - x| ≤ 1 / 2 := by
  obtain ⟨m, r, s⟩ := em
  rw [abs_le]
  cases r <;> cases s <;>
    simp only [Stands, ExtendedMantissa.roundedMantissa, ExtendedMantissa.accuracy, Accuracy.roundToNearestEven] at h ⊢
  · constructor <;> linarith
  · constructor <;> linarith
  · rcases Nat.mod_two_eq_zero_or_one m with hm | hm <;> rw [hm, h] <;> push_cast <;> constructor <;> linarith
  · push_cast
    constructor <;> linarith

theorem shiftRightOne (h : Stands em x) : Stands em.shiftRightOne (x / 2) := by
  obtain ⟨m, r, s⟩ := em
  have hm : ((m / 2 : ℕ) : ℚ) = (m - (m % 2 : ℕ)) / 2 := by
    have : (m : ℚ) = (m % 2 : ℕ) + 2 * (m / 2 : ℕ) := by exact_mod_cast (Nat.mod_add_div m 2).symm
    linarith
  rcases Nat.mod_two_eq_zero_or_one m with e | e <;> rw [e] at hm <;> cases r <;> cases s <;>
    simp [ExtendedMantissa.shiftRightOne, Stands, e, hm] at h ⊢ <;> first | constructor <;> linarith | linarith

theorem shiftRight (h : Stands em x) (n : Nat) : Stands (em >>> n) (x / 2 ^ n) := by
  show Stands (n.repeat ExtendedMantissa.shiftRightOne em) _
  induction n with
  | zero => simpa [Nat.repeat] using h
  | succ n ih =>
    have hx : x / 2 ^ (n + 1) = x / 2 ^ n / 2 := by rw [pow_succ, div_mul_eq_div_div]
    rw [hx]
    exact ih.shiftRightOne

end Stands

/-! ## Rounding -/

theorem mantissaBits_eq : ((Format.binary64.mantissaBits : Nat) : Int) = 53 := rfl

theorem targetExponent_eq (m : Nat) (e : Int) :
    Format.binary64.targetExponent (totalExponent m e) = max (m.log2 + e - 52) (-1074) := by
  simp only [Format.targetExponent, totalExponent, Format.minExponent, mantissaBits_eq]
  norm_num
  omega

theorem shiftToTargetExponent_of_lt {m : Nat} {e : Int} (hm : m < 2 ^ 53) (he : -1074 ≤ e) :
    shiftToTargetExponent .binary64 m e .exact = (⟨m, false, false⟩, e) := by
  have hlog : m.log2 ≤ 52 := by
    by_cases hz : m = 0
    · rw [hz]
      decide
    · have := (Nat.log2_lt hz).mpr hm
      omega
  have hshift : (max ((m.log2 : Int) + e - 52) (-1074) - e).toNat = 0 := by omega
  simp only [shiftToTargetExponent, shiftToExponent, targetExponent_eq, hshift]
  exact Prod.ext rfl (by simp)

theorem shiftToTargetExponent_two_pow {e : Int} (he : -1074 ≤ e) :
    shiftToTargetExponent .binary64 (2 ^ 53) e .exact = (⟨2 ^ 52, false, false⟩, e + 1) := by
  have hshift : (max (((2 ^ 53 : Nat).log2 : Int) + e - 52) (-1074) - e).toNat = 1 := by
    rw [Nat.log2_two_pow]
    omega
  simp only [shiftToTargetExponent, shiftToExponent, targetExponent_eq, hshift]
  rfl

/-- The number with this mantissa, which may be zero. -/
def finiteOrZero (s : Sign) (m : Nat) (e : Int) : UnpackedFloat :=
  if h : m = 0 then .zero s else .finite s m e (Nat.pos_of_ne_zero h)

theorem rational_finiteOrZero (s : Sign) (m : Nat) (e : Int) :
    rational (finiteOrZero s m e) = signUnit s * (m * 2 ^ e) := by
  by_cases h : m = 0
  · have hm : (m : ℚ) = 0 := by rw [h, Nat.cast_zero]
    rw [finiteOrZero, dif_pos h, hm, zero_mul, mul_zero]
    rfl
  · rw [finiteOrZero, dif_neg h]
    rfl

theorem fits_finiteOrZero (s : Sign) {m : Nat} {e : Int} (hm : m < 2 ^ 53) (he : -1074 ≤ e)
    (hlow : 2 ^ 52 ≤ m ∨ e = -1074) : Fits (finiteOrZero s m e) := by
  by_cases h : m = 0
  · rw [finiteOrZero, dif_pos h]
    trivial
  · rw [finiteOrZero, dif_neg h]
    exact ⟨hm, he, hlow⟩

/-- The number that a rounding ends with, from its rounded mantissa. -/
def ofRounded (s : Sign) (r : Nat) (t : Int) : UnpackedFloat :=
  let result := shiftToTargetExponent .binary64 r t .exact
  finiteOrZero s result.1.mantissa result.2

theorem ofRounded_spec (s : Sign) {r : Nat} {t : Int} (hr : r ≤ 2 ^ 53) (ht : -1074 ≤ t)
    (hlow : 2 ^ 52 ≤ r ∨ t = -1074) :
    Fits (ofRounded s r t) ∧ rational (ofRounded s r t) = signUnit s * (r * 2 ^ t) := by
  unfold ofRounded
  rcases Nat.lt_or_eq_of_le hr with hr | rfl
  · rw [shiftToTargetExponent_of_lt hr ht]
    exact ⟨fits_finiteOrZero s hr ht hlow, rational_finiteOrZero s r t⟩
  · rw [shiftToTargetExponent_two_pow ht]
    refine ⟨fits_finiteOrZero s (by norm_num) (by omega) (.inl (Nat.le_refl _)), ?_⟩
    rw [rational_finiteOrZero, zpow_add₀ two_ne_zero]
    push_cast
    ring

theorem mantissa_ofMantissaAndAccuracy (m : Nat) (acc : Accuracy) :
    (ExtendedMantissa.ofMantissaAndAccuracy m acc).mantissa = m := by
  cases acc with
  | exact => rfl
  | inexact o => cases o <;> rfl

/-- After the shift 53 bits are left before the point, and all of them are needed but for the least exponent. -/
theorem shifted_bounds {m k : Nat} {e t : Int} {x : ℚ} (hm : m ≠ 0 ∨ e ≤ -1074)
    (ht : max ((m.log2 : Int) + e - 52) (-1074) = t) (hk : e + k = t) (hlow : (m : ℚ) ≤ x) (hhigh : x < m + 1) :
    x / 2 ^ k < 2 ^ 53 ∧ (t ≠ -1074 → 2 ^ 52 ≤ x / 2 ^ k) := by
  have hpos : (0 : ℚ) < 2 ^ k := by positivity
  constructor
  · have hm : m + 1 ≤ 2 ^ (53 + k) := by
      have := Nat.lt_log2_self (n := m)
      have := Nat.pow_le_pow_right (n := 2) (by decide) (show m.log2 + 1 ≤ 53 + k by omega)
      omega
    rw [div_lt_iff₀ hpos, ← pow_add]
    exact hhigh.trans_le (by exact_mod_cast hm)
  · intro hne
    have hz : m ≠ 0 := by
      rintro rfl
      rw [Nat.log2_zero] at ht
      omega
    have hm : 2 ^ (52 + k) ≤ m := by
      rw [← show m.log2 = 52 + k by omega]
      exact Nat.log2_self_le hz
    rw [le_div_iff₀ hpos, ← pow_add]
    exact le_trans (by exact_mod_cast hm) hlow

/-- A rounded mantissa is exact where the mantissa is whole. -/
theorem eq_of_abs_sub_le_half {r : Nat} {n : Int} (h : |(r : ℚ) - n| ≤ 1 / 2) : (r : ℚ) = n := by
  have : |((r : Int) - n : ℚ)| < 1 := lt_of_le_of_lt (by exact_mod_cast h) (by norm_num)
  have hz : ((r : Int) - n) = 0 := Int.abs_lt_one_iff.mp (by exact_mod_cast this)
  have : (r : Int) = n := by omega
  exact_mod_cast this

/-- A rounded mantissa gives the nearest number, if there are bits enough. -/
theorem ofRounded_nearest (s : Sign) {r : Nat} {t : Int} {y : ℚ} (hr : r ≤ 2 ^ 53) (ht : -1074 ≤ t)
    (hr' : 2 ^ 52 ≤ r ∨ t = -1074) (hy : 0 ≤ y) (hlow : t ≠ -1074 → 2 ^ 52 ≤ y) (herr : |(r : ℚ) - y| ≤ 1 / 2) :
    Nearest (ofRounded s r t) (signUnit s * (y * 2 ^ t)) := by
  have hpow : (0 : ℚ) < 2 ^ t := zpow_pos two_pos t
  obtain ⟨hfits, hvalue⟩ := ofRounded_spec s hr ht hr'
  refine ⟨hfits, ?_, fun j l hj hl hv => ?_⟩
  · have hdiff : |rational (ofRounded s r t) - signUnit s * (y * 2 ^ t)| = |(r : ℚ) - y| * 2 ^ t := by
      rw [hvalue, ← mul_sub, ← sub_mul, abs_mul, abs_mul, abs_signUnit, one_mul, abs_of_pos hpow]
    have hsize : |signUnit s * (y * 2 ^ t)| = y * 2 ^ t := by
      rw [abs_mul, abs_signUnit, one_mul, abs_of_nonneg (mul_nonneg hy hpow.le)]
    rw [hdiff, hsize]
    calc |(r : ℚ) - y| * 2 ^ t ≤ 1 / 2 * 2 ^ t := mul_le_mul_of_nonneg_right herr hpow.le
      _ ≤ y * 2 ^ t / 2 ^ 53 + halfLeast := ?_
    by_cases h : t = -1074
    · have hhalf : 1 / 2 * 2 ^ t = halfLeast := by
        rw [h, halfLeast, show (-1075 : Int) = -1074 + -1 by norm_num, zpow_add₀ two_ne_zero]
        ring
      rw [hhalf]
      exact le_add_of_nonneg_left (div_nonneg (mul_nonneg hy hpow.le) (by positivity))
    · have h52 := mul_le_mul_of_nonneg_right (hlow h) hpow.le
      have := halfLeast_pos
      linarith
  · have hy' : y * 2 ^ t = (s.apply j : Int) * 2 ^ l := by
      rw [cast_apply, mul_assoc, ← hv, ← mul_assoc, signUnit_mul_self, one_mul]
    have hj' : |((s.apply j : Int) : ℚ)| < 2 ^ 53 := by
      rw [cast_apply, abs_mul, abs_signUnit, one_mul]
      exact_mod_cast hj
    rcases Int.lt_or_le l t with hlt | hle
    · -- a mantissa of 53 bits does not reach the last place of `y`
      have hl2 : (0 : ℚ) < 2 ^ l := zpow_pos two_pos l
      have hstep : (2 : ℚ) ^ (l + 1) ≤ 2 ^ t := zpow_le_zpow_right₀ one_le_two (by omega)
      rw [zpow_add₀ two_ne_zero, zpow_one] at hstep
      have h52 : (2 : ℚ) ^ 52 * 2 ^ t ≤ y * 2 ^ t := mul_le_mul_of_nonneg_right (hlow (by omega)) hpow.le
      have hjl := mul_lt_mul_of_pos_right ((le_abs_self _).trans_lt hj') hl2
      rw [← hy'] at hjl
      linarith
    · obtain ⟨d, hd⟩ : ∃ d : Nat, l = d + t := ⟨(l - t).toNat, by omega⟩
      have hyn : y = ((s.apply j * 2 ^ d : Int) : ℚ) := by
        refine mul_right_cancel₀ hpow.ne' ?_
        rw [hy', hd, zpow_add₀ two_ne_zero, zpow_natCast]
        push_cast
        ring
      rw [hyn] at herr ⊢
      rw [hvalue, eq_of_abs_sub_le_half herr]

/-- The rounding that ends an operation gives the nearest number, if the mantissa it starts from has
bits enough. -/
theorem roundWithAccuracy_nearest (s : Sign) {m : Nat} {e : Int} {acc : Accuracy} {x : ℚ}
    (hm : m ≠ 0 ∨ e ≤ -1074) (he : e ≤ max (m.log2 + e - 52) (-1074))
    (hx : Stands (ExtendedMantissa.ofMantissaAndAccuracy m acc) x) :
    Nearest (roundWithAccuracy .binary64 s m e acc) (signUnit s * (x * 2 ^ e)) := by
  generalize ht : max ((m.log2 : Int) + e - 52) (-1074) = t at he
  obtain ⟨k, hk⟩ : ∃ k : Nat, e + k = t := ⟨(t - e).toNat, by omega⟩
  have hshift : shiftToTargetExponent .binary64 m e acc
      = (ExtendedMantissa.ofMantissaAndAccuracy m acc >>> k, t) := by
    have hk' : (t - e).toNat = k := by omega
    simp only [shiftToTargetExponent, shiftToExponent, targetExponent_eq, ht, hk', hk]
  obtain ⟨hmx, hxm⟩ := hx.bounds
  rw [mantissa_ofMantissaAndAccuracy] at hmx hxm
  obtain ⟨hhigh, hlow⟩ := shifted_bounds hm ht hk hmx hxm
  have hy := hx.shiftRight k
  generalize hem : ExtendedMantissa.ofMantissaAndAccuracy m acc >>> k = em at hshift hy
  have hscale : x * 2 ^ e = x / 2 ^ k * 2 ^ t := by
    rw [← hk, zpow_add₀ two_ne_zero, zpow_natCast]
    field_simp
  have hresult : roundWithAccuracy .binary64 s m e acc = ofRounded s em.roundedMantissa t := by
    unfold roundWithAccuracy
    rw [hshift]
    rfl
  rw [hresult, hscale]
  generalize x / 2 ^ k = y at hy hhigh hlow
  obtain ⟨hemy, hyem⟩ := hy.bounds
  obtain ⟨hemr, hrem⟩ := Stands.mantissa_le_rounded em
  refine ofRounded_nearest s ?_ (by omega) ?_ ((Nat.cast_nonneg _).trans hemy) hlow hy.rounded_error
  · have : em.mantissa < 2 ^ 53 := by exact_mod_cast hemy.trans_lt hhigh
    omega
  · by_cases h : t = -1074
    · exact .inr h
    · have : 2 ^ 52 < em.mantissa + 1 := by exact_mod_cast (hlow h).trans_lt hyem
      exact .inl (by omega)

theorem stands_exact (m : Nat) : Stands (ExtendedMantissa.ofMantissaAndAccuracy m .exact) m := rfl

theorem log2_shiftLeft {m : Nat} (hm : m ≠ 0) (k : Nat) : (m <<< k).log2 = m.log2 + k := by
  rw [Nat.shiftLeft_eq, Nat.log2_eq_iff (by positivity), Nat.pow_add, pow_succ, Nat.pow_add]
  have h1 := Nat.log2_self_le hm
  have h2 := Nat.lt_log2_self (n := m)
  have hk : 0 < 2 ^ k := by positivity
  constructor
  · exact Nat.mul_le_mul_right _ h1
  · have := Nat.mul_lt_mul_of_pos_right h2 hk
    rw [pow_succ] at this
    linarith

/-- Digits added behind a mantissa do not change the number. -/
theorem decreaseExponent_rational (m : Nat) (e target : Int) :
    ((decreaseExponent m e target).1 : ℚ) * 2 ^ (decreaseExponent m e target).2 = m * 2 ^ e := by
  simp only [decreaseExponent, Nat.shiftLeft_eq]
  generalize (e - target).toNat = k
  rw [zpow_sub₀ two_ne_zero, zpow_natCast]
  push_cast
  field_simp

theorem round_nearest (s : Sign) {m : Nat} (hm : m ≠ 0) (e : Int) :
    Nearest (UnpackedFloat.round .binary64 s m e) (signUnit s * (m * 2 ^ e)) := by
  unfold UnpackedFloat.round
  rw [targetExponent_eq, ← decreaseExponent_rational m e (max (m.log2 + e - 52) (-1074))]
  refine roundWithAccuracy_nearest s (.inl ?_) ?_ (stands_exact _)
  · simp only [Nat.shiftLeft_eq]
    positivity
  · simp only [log2_shiftLeft hm]
    omega

theorem normalize_nearest (m e : Int) (zeroSign : Sign) :
    Nearest (UnpackedFloat.normalize .binary64 m e zeroSign) (m * 2 ^ e) := by
  unfold UnpackedFloat.normalize
  rcases lt_trichotomy m 0 with h | rfl | h
  · have hround := round_nearest .negative (m := (-m).toNat) (by omega) e
    have hm : (((-m).toNat : ℕ) : ℚ) = -m := by exact_mod_cast Int.toNat_of_nonneg (by omega : 0 ≤ -m)
    have hvalue : signUnit .negative * (((-m).toNat : ℕ) * 2 ^ e) = m * 2 ^ e := by
      rw [hm, signUnit]
      ring
    rw [hvalue] at hround
    rw [compare_lt_iff_lt.mpr h]
    exact hround
  · have hzero : rational (.zero zeroSign) = ((0 : ℤ) : ℚ) * 2 ^ e := by
      rw [Int.cast_zero, zero_mul]
      rfl
    rw [compare_eq_iff_eq.mpr rfl, ← hzero]
    exact Fits.nearest trivial
  · have hround := round_nearest .positive (m := m.toNat) (by omega) e
    have hm : ((m.toNat : ℕ) : ℚ) = m := by exact_mod_cast Int.toNat_of_nonneg (by omega : 0 ≤ m)
    rw [signUnit, hm, one_mul] at hround
    rw [compare_gt_iff_gt.mpr h]
    exact hround

end VectorRaster.Numeric
