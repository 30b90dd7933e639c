/-
  VectorRaster.Proofs.Numeric.Conversion — comparing doubles, and whole numbers out of them.

  Proved: finite doubles compare as the numbers they stand for; a negation and a magnitude are
  exact; a conversion to a word takes the whole part and clamps it (`toUInt64_capped`). From
  these, `roundHalfAway` gives the whole number nearest to its argument (`roundHalfAway_exact`),
  and `truncateInt64` gives a whole number back unchanged, or the end of the range next to it.
-/

import Mathlib.Algebra.Order.Floor.Semiring
import Mathlib.Data.Rat.Floor
import VectorRaster.Numeric.Rounding
import VectorRaster.Numeric.Word
import VectorRaster.Proofs.Numeric.Arithmetic

namespace VectorRaster.Numeric

open Float.Model Float.Model.UnpackedFloat

/-! ## Comparison -/

/-- Of two positive numbers of the format the one with the greater exponent is the greater. -/
theorem lt_of_exponent_lt {m n : Nat} {e e' : Int} (hm : m < 2 ^ 53) (hn : 2 ^ 52 ≤ n) (h : e < e') :
    (m : ℚ) * 2 ^ e < n * 2 ^ e' := by
  have hstep : (2 : ℚ) ^ (1 + e) ≤ 2 ^ e' := zpow_le_zpow_right₀ one_le_two (by omega)
  rw [zpow_add₀ two_ne_zero, zpow_one] at hstep
  have hm' : (m : ℚ) < 2 ^ 53 := by exact_mod_cast hm
  have hn' : (2 : ℚ) ^ 52 ≤ n := by exact_mod_cast hn
  calc (m : ℚ) * 2 ^ e < 2 ^ 53 * 2 ^ e := mul_lt_mul_of_pos_right hm' (zpow_pos two_pos e)
    _ = 2 ^ 52 * (2 * 2 ^ e) := by ring
    _ ≤ 2 ^ 52 * 2 ^ e' := mul_le_mul_of_nonneg_left hstep (by positivity)
    _ ≤ n * 2 ^ e' := mul_le_mul_of_nonneg_right hn' (zpow_pos two_pos e').le

theorem compare_magnitudes {s t : Sign} {m n : Nat} {e e' : Int} {hm : 0 < m} {hn : 0 < n}
    (ha : Fits (.finite s m e hm)) (hb : Fits (.finite t n e' hn)) :
    (compare e e').then (compare m n) = compare ((m : ℚ) * 2 ^ e) (n * 2 ^ e') := by
  obtain ⟨hm53, he, hm52⟩ := ha
  obtain ⟨hn53, he', hn52⟩ := hb
  rcases lt_trichotomy e e' with h | rfl | h
  · rw [compare_lt_iff_lt.mpr h, eq_comm]
    exact compare_lt_iff_lt.mpr (lt_of_exponent_lt hm53 (hn52.resolve_right (by omega)) h)
  · rw [compare_eq_iff_eq.mpr rfl]
    have hpow : (0 : ℚ) < 2 ^ e := zpow_pos two_pos e
    show compare m n = _
    rcases lt_trichotomy m n with h | rfl | h
    · rw [compare_lt_iff_lt.mpr h, eq_comm]
      exact compare_lt_iff_lt.mpr (mul_lt_mul_of_pos_right (by exact_mod_cast h) hpow)
    · rw [compare_eq_iff_eq.mpr rfl, compare_eq_iff_eq.mpr rfl]
    · rw [compare_gt_iff_gt.mpr h, eq_comm]
      exact compare_gt_iff_gt.mpr (mul_lt_mul_of_pos_right (by exact_mod_cast h) hpow)
  · rw [compare_gt_iff_gt.mpr h, eq_comm]
    exact compare_gt_iff_gt.mpr (lt_of_exponent_lt hn53 (hm52.resolve_right (by omega)) h)

theorem compare_neg_neg (x y : ℚ) : compare (-x) (-y) = (compare x y).swap := by
  rcases lt_trichotomy x y with h | rfl | h
  · rw [compare_lt_iff_lt.mpr h]
    exact compare_gt_iff_gt.mpr (neg_lt_neg h)
  · rw [compare_eq_iff_eq.mpr rfl, compare_eq_iff_eq.mpr rfl]
    rfl
  · rw [compare_gt_iff_gt.mpr h]
    exact compare_lt_iff_lt.mpr (neg_lt_neg h)

theorem compare_eq {a b : UnpackedFloat} (ha : Fits a) (hb : Fits b) :
    a.compare b = some (compare (rational a) (rational b)) := by
  have hpos : ∀ {m : Nat} (e : Int), 0 < m → (0 : ℚ) < m * 2 ^ e := fun e hm =>
    mul_pos (by exact_mod_cast hm) (zpow_pos two_pos e)
  cases a with
  | infinity s => exact ha.elim
  | notANumber => exact ha.elim
  | zero s =>
    cases b with
    | infinity t => exact hb.elim
    | notANumber => exact hb.elim
    | zero t => exact congrArg some (compare_eq_iff_eq.mpr rfl).symm
    | finite t n e' hn =>
      have := hpos e' hn
      cases t
      · refine congrArg some (compare_gt_iff_gt.mpr ?_).symm
        rw [rational_zero, rational_negative]
        exact neg_lt_zero.mpr this
      · refine congrArg some (compare_lt_iff_lt.mpr ?_).symm
        rw [rational_zero, rational_positive]
        exact this
  | finite s m e hm =>
    have hme := hpos e hm
    cases b with
    | infinity t => exact hb.elim
    | notANumber => exact hb.elim
    | zero t =>
      cases s
      · refine congrArg some (compare_lt_iff_lt.mpr ?_).symm
        rw [rational_zero, rational_negative]
        exact neg_lt_zero.mpr hme
      · refine congrArg some (compare_gt_iff_gt.mpr ?_).symm
        rw [rational_zero, rational_positive]
        exact hme
    | finite t n e' hn =>
      have hne := hpos e' hn
      have hmag := compare_magnitudes ha hb
      cases s <;> cases t
      · rw [rational_negative, rational_negative, compare_neg_neg, ← hmag]
        rfl
      · refine congrArg some (compare_lt_iff_lt.mpr ?_).symm
        rw [rational_negative, rational_positive]
        linarith
      · refine congrArg some (compare_gt_iff_gt.mpr ?_).symm
        rw [rational_negative, rational_positive]
        linarith
      · rw [rational_positive, rational_positive, ← hmag]
        rfl

section

variable {x y : Float}

theorem lt_iff_compare : x < y ↔ x.toModel.unpack.compare y.toModel.unpack = some .lt := by
  show decide ((x.toModel.unpack.compare y.toModel.unpack == some .lt) = true) = true ↔ _
  rw [decide_eq_true_iff, beq_iff_eq]

theorem lt_iff (hx : x.isFinite = true) (hy : y.isFinite = true) : x < y ↔ value x < value y := by
  rw [lt_iff_compare, compare_eq (fits_of_isFinite hx).1 (fits_of_isFinite hy).1, Option.some.injEq,
    compare_lt_iff_lt]
  rfl

theorem le_iff (hx : x.isFinite = true) (hy : y.isFinite = true) : x ≤ y ↔ value x ≤ value y := by
  have h : x ≤ y ↔ (x.toModel.unpack.compare y.toModel.unpack).any (·.isLE) = true := by
    show decide ((x.toModel.unpack.compare y.toModel.unpack).any (·.isLE) = true) = true ↔ _
    rw [decide_eq_true_iff]
  rw [h, compare_eq (fits_of_isFinite hx).1 (fits_of_isFinite hy).1, Option.any_some, ← Ordering.ne_gt_iff_isLE]
  exact compare_le_iff_le

/-- What is greater than anything is a number. -/
theorem isNaN_of_lt (h : x < y) : y.isNaN = false := by
  rw [lt_iff_compare] at h
  show y.toModel.unpack.isNaN = false
  cases hy : y.toModel.unpack with
  | notANumber =>
    rw [hy] at h
    cases hx : x.toModel.unpack <;> rw [hx] at h <;> cases h
  | _ => rfl

/-! ## Signs -/

theorem unpack_pack_of_isFinite {f : UnpackedFloat} (hf : Fits f) (hr : InRange f) :
    (Float.ofModel (.pack f)).isFinite = true ∧ value (.ofModel (.pack f)) = rational f := by
  have h := (unpack_ofModel_pack f).trans (unpack_pack hf hr)
  constructor
  · show UnpackedFloat.isFinite _ = true
    rw [h]
    exact isFinite_of_fits hf
  · rw [value, h]

theorem neg_exact (hx : x.isFinite = true) : (-x).isFinite = true ∧ value (-x) = -value x := by
  obtain ⟨hf, hr⟩ := fits_of_isFinite hx
  have h := unpack_pack_of_isFinite (fits_neg hf) (inRange_neg hr)
  rw [rational_neg] at h
  exact h

theorem abs_exact (hx : x.isFinite = true) : x.abs.isFinite = true ∧ value x.abs = |value x| := by
  obtain ⟨hf, hr⟩ := fits_of_isFinite hx
  have hf' : Fits x.toModel.unpack.abs := by
    cases h : x.toModel.unpack <;> rw [h] at hf <;> exact hf
  have hr' : InRange x.toModel.unpack.abs := by
    cases h : x.toModel.unpack <;> rw [h] at hr <;> exact hr
  have hv : rational x.toModel.unpack.abs = |rational x.toModel.unpack| := by
    cases x.toModel.unpack with
    | finite s m e hm =>
      rw [abs_rational_finite]
      exact rational_positive hm
    | _ => exact abs_zero.symm
  have h := unpack_pack_of_isFinite hf' hr'
  rw [hv] at h
  exact h

theorem unpackSign_eq_zero_iff (b : UInt64) :
    @unpackSign .binary64 b.toBitVec = 0#1 ↔ (b >>> 63 == 1) = false := by
  have hb : b.toNat < 2 ^ 64 := b.toNat_lt
  have hsign : (@unpackSign .binary64 b.toBitVec).toNat = b.toNat >>> 63 % 2 := by
    rw [unpackSign_eq, BitVec.extractLsb'_toNat]
    rfl
  have hword : (b >>> 63).toNat = b.toNat >>> 63 := by
    rw [UInt64.toNat_shiftRight]
    rfl
  rw [← BitVec.toNat_inj, hsign, beq_eq_false_iff_ne, ne_eq, ← UInt64.toNat_inj, hword, Nat.shiftRight_eq_div_pow]
  show _ = 0 ↔ ¬ _ = 1
  omega

theorem rational_unpack {b : BitVec 64} (h : (UnpackedFloat.unpack .binary64 b).isFinite = true) :
    ∃ v, 0 ≤ v ∧ rational (UnpackedFloat.unpack .binary64 b)
      = signUnit (Sign.ofBitVec (@unpackSign .binary64 b)) * v := by
  rw [unpack_eq] at h ⊢
  simp only at h ⊢
  split at h
  · split at h <;> cases h
  · rename_i h1
    rw [if_neg h1]
    split <;> exact ⟨_, mul_nonneg (Nat.cast_nonneg _) (zpow_pos two_pos _).le, rational_finiteOrZero _ _ _⟩

/-- What the sign bit of a finite double says. -/
theorem sign_of_bits (hx : x.isFinite = true) :
    ((x.toBits >>> 63 == 1) = true → value x ≤ 0) ∧ ((x.toBits >>> 63 == 1) = false → 0 ≤ value x) := by
  obtain ⟨v, hv, he⟩ := rational_unpack hx
  replace he : value x = _ := he
  rw [he]
  constructor
  · intro h
    have hs : Sign.ofBitVec (@unpackSign .binary64 x.toModel.toBits.toBitVec) = .negative := by
      refine if_neg fun h0 => ?_
      rw [unpackSign_eq_zero_iff] at h0
      exact Bool.noConfusion (h.symm.trans h0)
    rw [hs, signUnit]
    linarith
  · intro h
    have hs : Sign.ofBitVec (@unpackSign .binary64 x.toModel.toBits.toBitVec) = .positive :=
      if_pos ((unpackSign_eq_zero_iff _).mpr h)
    rw [hs, signUnit]
    linarith

/-! ## Whole numbers -/

theorem exists_mantissa (hx : x.isFinite = true) :
    ∃ j k : Int, |j| < 2 ^ 53 ∧ -1074 ≤ k ∧ value x = j * 2 ^ k := by
  obtain ⟨hf, -⟩ := fits_of_isFinite hx
  rw [value]
  cases h : x.toModel.unpack with
  | infinity s => rw [h] at hf; exact hf.elim
  | notANumber => rw [h] at hf; exact hf.elim
  | zero s => exact ⟨0, 0, by decide, by decide, by rw [rational_zero, Int.cast_zero, zero_mul]⟩
  | finite s m e hm =>
    rw [h] at hf
    obtain ⟨hm53, he, -⟩ := hf
    refine ⟨s.apply m, e, ?_, he, by rw [rational_finite, cast_apply, mul_assoc]; rfl⟩
    cases s <;> simp only [Sign.apply, abs_neg, Nat.abs_cast] <;> omega

/-- A number of 53 bits before the point has none behind it. -/
theorem whole_of_two_pow_le (hx : x.isFinite = true) (h : 2 ^ 52 ≤ |value x|) : ∃ n : Int, value x = n := by
  obtain ⟨j, k, hj, -, hv⟩ := exists_mantissa hx
  rcases Int.lt_or_le k 0 with hk | hk
  · exfalso
    have hj' : |(j : ℚ)| < 2 ^ 53 := by exact_mod_cast hj
    have hk' : (2 : ℚ) ^ k ≤ 2 ^ (-1 : Int) := zpow_le_zpow_right₀ one_le_two (by omega)
    have hpow : (0 : ℚ) < 2 ^ k := zpow_pos two_pos k
    rw [hv, abs_mul, abs_of_pos hpow] at h
    have hstep : |(j : ℚ)| * 2 ^ k ≤ |(j : ℚ)| * 2 ^ (-1 : Int) := mul_le_mul_of_nonneg_left hk' (abs_nonneg _)
    rw [zpow_neg_one] at hstep
    linarith
  · obtain ⟨d, rfl⟩ := Int.eq_ofNat_of_zero_le hk
    exact ⟨j * 2 ^ d, by rw [hv]; push_cast; rfl⟩

theorem roundToInt_eq (s : Sign) (m : Nat) (e : Int) : roundToInt s m e = s.apply ⌊(m : ℚ) * 2 ^ e⌋ := by
  unfold roundToInt
  have hvalue := decreaseExponent_rational m e 0
  have hexp : (decreaseExponent m e 0).2 ≤ 0 := by
    simp only [decreaseExponent]
    omega
  generalize decreaseExponent m e 0 = p at hvalue hexp
  obtain ⟨m', e'⟩ := p
  simp only at hvalue hexp ⊢
  obtain ⟨k, hk⟩ : ∃ k : Nat, e' = -k := ⟨(-e').toNat, by omega⟩
  have hshift : (0 - e').toNat = k := by omega
  have hstands := (stands_exact m').shiftRight k
  have hscale : (m' : ℚ) / 2 ^ k = m * 2 ^ e := by
    rw [← hvalue, hk, zpow_neg, zpow_natCast, div_eq_mul_inv]
  rw [hscale] at hstands
  obtain ⟨hlow, hhigh⟩ := hstands.bounds
  simp only [shiftToExponent, hshift]
  congr 1
  exact (Int.floor_eq_iff.mpr ⟨hlow, hhigh⟩).symm

/-- The whole part of a number as a word; one out of range is moved to the end of the range. -/
theorem toUInt64_capped (hx : x.isFinite = true) : x.toUInt64.toNat = Word.capped ⌊value x⌋.toNat := by
  have hword : x.toUInt64.toNat
      = (UInt64.ofNatClamp (x.toModel.unpack.toInt 0 (UInt64.size - 1)).toNat).toNat := rfl
  have hfloor : (x.toModel.unpack.toInt 0 (UInt64.size - 1)).toNat = ⌊value x⌋.toNat := by
    obtain ⟨hf, -⟩ := fits_of_isFinite hx
    rw [value]
    cases hu : x.toModel.unpack with
    | infinity s => rw [hu] at hf; exact hf.elim
    | notANumber => rw [hu] at hf; exact hf.elim
    | zero s =>
      rw [rational_zero, Int.floor_zero]
      rfl
    | finite s m e hm =>
      have hpos : (0 : ℚ) ≤ m * 2 ^ e := mul_nonneg (Nat.cast_nonneg m) (zpow_pos two_pos e).le
      have htoInt : (UnpackedFloat.finite s m e hm).toInt 0 (UInt64.size - 1) = roundToInt s m e := rfl
      rw [htoInt, roundToInt_eq, rational_finite]
      cases s with
      | negative =>
        have h0 : 0 ≤ ⌊(m : ℚ) * 2 ^ e⌋ := Int.floor_nonneg.mpr hpos
        have h1 : ⌊-((m : ℚ) * 2 ^ e)⌋ ≤ 0 := Int.floor_nonpos (by linarith)
        rw [signUnit, neg_one_mul, Int.toNat_of_nonpos h1]
        exact Int.toNat_of_nonpos (neg_nonpos.mpr h0)
      | positive =>
        rw [signUnit, one_mul]
        rfl
  rw [hword, hfloor, Word.capped]
  rcases Nat.lt_or_ge ⌊value x⌋.toNat UInt64.size with h | h
  · rw [UInt64.toNat_ofNatClamp_of_lt h]
    exact (Nat.min_eq_left (Nat.le_sub_one_of_lt h)).symm
  · rw [UInt64.toNat_ofNatClamp_of_le h]
    exact (Nat.min_eq_right (Nat.sub_le_of_le_add (h.trans (Nat.le_add_right ..)))).symm

/-- The whole part of a number that is not negative, as a word. -/
theorem toUInt64_eq (hx : x.isFinite = true) (h : 0 ≤ value x) (hlt : value x < 2 ^ 64) :
    (x.toUInt64.toNat : Int) = ⌊value x⌋ := by
  have hlast : Word.last = 2 ^ 64 - 1 := rfl
  have hnonneg : 0 ≤ ⌊value x⌋ := Int.floor_nonneg.mpr h
  have hsize : ⌊value x⌋ < 2 ^ 64 := Int.floor_lt.mpr (by exact_mod_cast hlt)
  rw [toUInt64_capped hx, Word.capped]
  omega

theorem Rounded.value_of_int {v : ℚ} (h : Rounded x v) {n : Int} (hv : v = n) (hn : |n| < 2 ^ 53) : value x = n := by
  rw [← hv]
  exact h.exact n 0 hn (by decide) (by rw [hv, zpow_zero, mul_one])

theorem wholeFrom_exact : wholeFrom.isFinite = true ∧ value wholeFrom = 2 ^ 52 := by
  have h : wholeFrom.toModel.unpack = .finite .positive (2 ^ 52) 0 (by decide) := rfl
  refine ⟨rfl, ?_⟩
  rw [value, h, rational_positive]
  norm_num

theorem half_exact : (0.5 : Float).isFinite = true ∧ value 0.5 = 1 / 2 := by
  have h : (0.5 : Float).toModel.unpack = .finite .positive (2 ^ 52) (-53) (by decide) := rfl
  refine ⟨rfl, ?_⟩
  rw [value, h, rational_positive]
  norm_num

theorem zero_exact : (0.0 : Float).isFinite = true ∧ value 0.0 = 0 := ⟨rfl, rfl⟩

theorem wholePart_exact (hx : x.isFinite = true) (h : |value x| < 2 ^ 52) :
    (wholePart x).isFinite = true ∧ value (wholePart x) = ⌊|value x|⌋ := by
  obtain ⟨ha, hva⟩ := abs_exact hx
  have hword := toUInt64_eq ha (by rw [hva]; exact abs_nonneg _) (by rw [hva]; exact h.trans (by norm_num))
  rw [hva] at hword
  have hround := toFloat_rounded x.abs.toUInt64
  refine ⟨hround.finite, hround.value_of_int (by exact_mod_cast congrArg (Int.cast (R := ℚ)) hword) ?_⟩
  have h0 : 0 ≤ ⌊|value x|⌋ := Int.floor_nonneg.mpr (abs_nonneg _)
  have h1 : ⌊|value x|⌋ < 2 ^ 53 := Int.floor_lt.mpr (by push_cast; exact h.trans (by norm_num))
  rwa [abs_of_nonneg h0]

theorem fract_mantissa {j k : Int} (hj : 0 ≤ j) (hj53 : j < 2 ^ 53) (hk : -1074 ≤ k) :
    ∃ j' k' : Int, |j'| < 2 ^ 53 ∧ -1074 ≤ k' ∧ Int.fract ((j : ℚ) * 2 ^ k) = j' * 2 ^ k' := by
  rcases Int.lt_or_le k 0 with hneg | hpos
  · obtain ⟨d, rfl⟩ : ∃ d : Nat, k = -d := ⟨(-k).toNat, by omega⟩
    have hd : (0 : Int) < 2 ^ d := by positivity
    have h0 : 0 ≤ j % 2 ^ d := Int.emod_nonneg j hd.ne'
    have h1 : j % 2 ^ d ≤ j := by
      have := mul_nonneg hd.le (Int.ediv_nonneg hj hd.le)
      have := Int.emod_add_mul_ediv j (2 ^ d)
      omega
    refine ⟨j % 2 ^ d, -d, by rw [abs_of_nonneg h0]; omega, hk, ?_⟩
    have := Int.fract_div_intCast_eq_div_intCast_mod (k := ℚ) (m := j) (n := 2 ^ d)
    push_cast at this
    rw [zpow_neg, zpow_natCast, ← div_eq_mul_inv, ← div_eq_mul_inv, this]
  · obtain ⟨d, rfl⟩ := Int.eq_ofNat_of_zero_le hpos
    refine ⟨0, 0, by decide, by decide, ?_⟩
    have hwhole : (j : ℚ) * 2 ^ (d : Int) = ((j * 2 ^ d : Int) : ℚ) := by
      push_cast
      rfl
    rw [hwhole, Int.fract_intCast]
    simp

/-- What is behind the point of a double is a double. -/
theorem sub_wholePart_exact (hx : x.isFinite = true) (h : |value x| < 2 ^ 52) :
    (x.abs - wholePart x).isFinite = true ∧ value (x.abs - wholePart x) = |value x| - ⌊|value x|⌋ := by
  obtain ⟨ha, hva⟩ := abs_exact hx
  obtain ⟨hw, hvw⟩ := wholePart_exact hx h
  have hsmall : |value x.abs - value (wholePart x)| < 2 ^ (1023 : Int) := by
    rw [hva, hvw, Int.self_sub_floor, abs_of_nonneg (Int.fract_nonneg _)]
    exact (Int.fract_lt_one _).trans_le (one_le_zpow₀ one_le_two (by omega))
  have hround := sub_rounded ha hw hsmall
  rw [hva, hvw, Int.self_sub_floor] at hround
  obtain ⟨j, k, hj, hk, hv⟩ := exists_mantissa hx
  have habs : |value x| = (|j| : Int) * 2 ^ k := by
    rw [hv, abs_mul, abs_of_pos (zpow_pos two_pos k : (0 : ℚ) < 2 ^ k), Int.cast_abs]
  obtain ⟨j', k', hj', hk', hfract⟩ := fract_mantissa (abs_nonneg j) hj hk
  rw [← habs] at hfract
  rw [Int.self_sub_floor]
  exact ⟨hround.finite, hround.exact j' k' hj' hk' hfract⟩

theorem withSign_exact {m : Float} (hx : x.isFinite = true) (hm : m.isFinite = true) :
    (withSign x m).isFinite = true ∧
      ((value x ≤ 0 ∧ value (withSign x m) = -value m) ∨ (0 ≤ value x ∧ value (withSign x m) = value m)) := by
  obtain ⟨hneg, hpos⟩ := sign_of_bits hx
  unfold withSign
  cases h : x.toBits >>> 63 == 1 with
  | true =>
    obtain ⟨hf, hv⟩ := neg_exact hm
    exact ⟨hf, .inl ⟨hneg h, hv⟩⟩
  | false => exact ⟨hm, .inr ⟨hpos h, rfl⟩⟩

/-! ## Rounding -/

/-- The nearest whole number; a half goes away from zero. -/
def nearestInt (q : ℚ) : ℤ := if q < 0 then -⌊-q + 1 / 2⌋ else ⌊q + 1 / 2⌋

theorem nearestInt_of_nonneg {q : ℚ} (h : 0 ≤ q) : nearestInt q = ⌊q + 1 / 2⌋ := if_neg (not_lt.mpr h)

theorem nearestInt_of_nonpos {q : ℚ} (h : q ≤ 0) : nearestInt q = -⌊-q + 1 / 2⌋ := by
  rcases h.lt_or_eq with h | rfl
  · exact if_pos h
  · norm_num [nearestInt]

theorem nearestInt_intCast (n : ℤ) : nearestInt n = n := by
  have hfloor : ∀ m : ℤ, ⌊(m : ℚ) + 1 / 2⌋ = m := fun m =>
    Int.floor_eq_iff.mpr ⟨by linarith, by linarith⟩
  rw [nearestInt, hfloor, ← Int.cast_neg, hfloor, neg_neg, ite_self]

theorem nearestInt_mono {p q : ℚ} (h : p ≤ q) : nearestInt p ≤ nearestInt q := by
  unfold nearestInt
  by_cases hq : q < 0
  · rw [if_pos (h.trans_lt hq), if_pos hq]
    exact neg_le_neg (Int.floor_le_floor (by linarith))
  · rw [if_neg hq]
    have hq0 : 0 ≤ ⌊q + 1 / 2⌋ := Int.floor_nonneg.mpr (by linarith)
    split
    · have hp0 : 0 ≤ ⌊-p + 1 / 2⌋ := Int.floor_nonneg.mpr (by linarith)
      omega
    · exact Int.floor_le_floor (by linarith)

theorem abs_nearestInt_sub_le (q : ℚ) : |nearestInt q - q| ≤ 1 / 2 := by
  unfold nearestInt
  split
  · have hlow := Int.floor_le (-q + 1 / 2)
    have hhigh := Int.lt_floor_add_one (-q + 1 / 2)
    rw [abs_le]
    push_cast
    constructor <;> linarith
  · have hlow := Int.floor_le (q + 1 / 2)
    have hhigh := Int.lt_floor_add_one (q + 1 / 2)
    rw [abs_le]
    constructor <;> linarith

/-- The magnitude of a rounded number, below the point where numbers are whole. -/
theorem roundedMagnitude_exact (hx : x.isFinite = true) (h : |value x| < 2 ^ 52) :
    ∃ m : Float, (if x.abs - wholePart x < 0.5 then wholePart x else wholePart x + 1.0) = m ∧ m.isFinite = true ∧
      value m = ⌊|value x| + 1 / 2⌋ := by
  obtain ⟨hw, hvw⟩ := wholePart_exact hx h
  obtain ⟨hs, hvs⟩ := sub_wholePart_exact hx h
  have hlt := lt_iff hs half_exact.1
  rw [hvs, half_exact.2] at hlt
  have hlow := Int.floor_le |value x|
  have hhigh := Int.lt_floor_add_one |value x|
  have hn0 : 0 ≤ ⌊|value x|⌋ := Int.floor_nonneg.mpr (abs_nonneg _)
  have hn52 : ⌊|value x|⌋ < 2 ^ 52 := Int.floor_lt.mpr (by exact_mod_cast h)
  generalize ⌊|value x|⌋ = n at hvw hlt hlow hhigh hn0 hn52
  split <;> rename_i hc <;> rw [hlt] at hc
  · have hfloor : ⌊|value x| + 1 / 2⌋ = n := Int.floor_eq_iff.mpr ⟨by linarith, by linarith⟩
    exact ⟨_, rfl, hw, by rw [hfloor, hvw]⟩
  · have hfloor : ⌊|value x| + 1 / 2⌋ = n + 1 := by
      refine Int.floor_eq_iff.mpr ⟨?_, ?_⟩ <;> push_cast <;> linarith
    have hsum : value (wholePart x) + value 1.0 = (n + 1 : Int) := by
      rw [hvw, value_one]
      push_cast
      rfl
    have hbound : |n + 1| < 2 ^ 53 := by
      rw [abs_of_nonneg (by omega)]
      omega
    have hround := add_rounded hw finite_one (by
      rw [hsum]
      calc |((n + 1 : Int) : ℚ)| < 2 ^ (53 : Int) := by exact_mod_cast hbound
        _ ≤ 2 ^ (1023 : Int) := zpow_le_zpow_right₀ one_le_two (by omega))
    exact ⟨_, rfl, hround.finite, by rw [hfloor, hround.value_of_int hsum hbound]⟩

/-- A double is rounded as the number it stands for. -/
theorem roundHalfAway_exact (hx : x.isFinite = true) :
    (roundHalfAway x).isFinite = true ∧ value (roundHalfAway x) = nearestInt (value x) := by
  obtain ⟨ha, hva⟩ := abs_exact hx
  unfold roundHalfAway
  have hlt := lt_iff ha wholeFrom_exact.1
  rw [hva, wholeFrom_exact.2] at hlt
  by_cases h : |value x| < 2 ^ 52
  · rw [if_pos (hlt.mpr h)]
    obtain ⟨m, hm, hfm, hvm⟩ := roundedMagnitude_exact hx h
    simp only [hm]
    obtain ⟨hf, ⟨hneg, hv⟩ | ⟨hpos, hv⟩⟩ := withSign_exact hx hfm
    · rw [abs_of_nonpos hneg] at hvm
      rw [hv, hvm, nearestInt_of_nonpos hneg, Int.cast_neg]
      exact ⟨hf, rfl⟩
    · rw [abs_of_nonneg hpos] at hvm
      rw [hv, hvm, nearestInt_of_nonneg hpos]
      exact ⟨hf, rfl⟩
  · rw [if_neg (hlt.not.mpr h)]
    obtain ⟨n, hn⟩ := whole_of_two_pow_le hx (not_lt.mp h)
    rw [hn, nearestInt_intCast]
    exact ⟨hx, rfl⟩

/-- Rounding gives a whole number within a half. -/
theorem roundHalfAway_spec (hx : x.isFinite = true) :
    (roundHalfAway x).isFinite = true ∧ ∃ n : Int, value (roundHalfAway x) = n ∧ |n - value x| ≤ 1 / 2 := by
  obtain ⟨hf, hv⟩ := roundHalfAway_exact hx
  exact ⟨hf, nearestInt (value x), hv, abs_nearestInt_sub_le _⟩

/-! ## Words with a sign -/

theorem wordEnd_exact : (9223372036854775808.0 : Float).isFinite = true ∧ value 9223372036854775808.0 = 2 ^ 63 := by
  have h : (9223372036854775808.0 : Float).toModel.unpack = .finite .positive (2 ^ 52) 11 (by decide) := rfl
  refine ⟨rfl, ?_⟩
  rw [value, h, rational_positive]
  norm_num

theorem toInt_toInt64 {w : UInt64} {n : Int} (h : (w.toNat : Int) = n) (hn : n < 2 ^ 63) :
    w.toInt64.toInt = n ∧ (-w.toInt64).toInt = -n := by
  have hw : w.toInt64.toInt = n := by
    rw [← h]
    exact BitVec.toInt_eq_toNat_of_lt (by show 2 * w.toNat < 2 ^ 64; omega)
  refine ⟨hw, ?_⟩
  rw [Int64.toInt_neg, hw]
  exact Int.bmod_eq_of_le (by omega) (by omega)

theorem isNaN_of_isFinite (hx : x.isFinite = true) : x.isNaN = false := by
  have h : ∀ f : UnpackedFloat, f.isFinite = true → f.isNaN = false := by
    rintro (_ | _ | _ | _) hf <;> first | rfl | cases hf
  exact h _ hx

/-- A whole number as a word with a sign; one out of range is moved to the end of the range. -/
theorem truncateInt64_spec (hx : x.isFinite = true) {n : Int} (hn : value x = n) :
    (truncateInt64 x).toInt = max (-2 ^ 63) (min (2 ^ 63 - 1) n) := by
  unfold truncateInt64
  obtain ⟨hneg, hvneg⟩ := neg_exact hx
  have hlt0 : x < 0.0 ↔ n < 0 := by
    rw [lt_iff hx zero_exact.1, hn, zero_exact.2]
    exact Int.cast_lt_zero
  have hltneg : -x < 9223372036854775808.0 ↔ -n < 2 ^ 63 := by
    rw [lt_iff hneg wordEnd_exact.1, hvneg, hn, wordEnd_exact.2]
    exact_mod_cast Iff.rfl
  have hlt : x < 9223372036854775808.0 ↔ n < 2 ^ 63 := by
    rw [lt_iff hx wordEnd_exact.1, hn, wordEnd_exact.2]
    exact_mod_cast Iff.rfl
  by_cases h0 : n < 0
  · rw [if_pos (hlt0.mpr h0)]
    by_cases h : -n < 2 ^ 63
    · rw [if_pos (hltneg.mpr h)]
      have hword := toUInt64_eq hneg (by rw [hvneg, hn]; exact_mod_cast (by omega : 0 ≤ -n))
        (by rw [hvneg, hn]; exact_mod_cast (by omega : -n < 2 ^ 64))
      have hfloor : ⌊value (-x)⌋ = -n := by
        rw [hvneg, hn]
        exact_mod_cast Int.floor_intCast (R := ℚ) (-n)
      rw [hfloor] at hword
      rw [(toInt_toInt64 hword h).2]
      omega
    · rw [if_neg (hltneg.not.mpr h), Int64.toInt_minValue]
      omega
  · rw [if_neg (hlt0.not.mpr h0)]
    by_cases h : n < 2 ^ 63
    · rw [if_pos (hlt.mpr h)]
      have hword := toUInt64_eq hx (by rw [hn]; exact_mod_cast (by omega : 0 ≤ n))
        (by rw [hn]; exact_mod_cast (by omega : n < 2 ^ 64))
      rw [hn, Int.floor_intCast] at hword
      rw [(toInt_toInt64 hword h).1]
      omega
    · rw [if_neg (hlt.not.mpr h), isNaN_of_isFinite hx, if_neg (by decide), Int64.toInt_maxValue]
      omega

end

end VectorRaster.Numeric
