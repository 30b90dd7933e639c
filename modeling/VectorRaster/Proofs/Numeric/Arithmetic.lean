/-
  VectorRaster.Proofs.Numeric.Arithmetic — sums, differences, products and quotients of doubles.

  `value` is the number a finite double stands for. A result is `Rounded` when it is finite,
  off the exact one by at most half a unit of its last place, and the exact one itself where
  that is a number of the format.

  Proved: a number of the format survives being packed into 64 bits, unless it is too great;
  every finite double unpacks to a number of the format; and the four operations give rounded
  results for finite arguments whose exact result is below 2^1023.
-/

import VectorRaster.Proofs.Numeric.Unpacked

namespace VectorRaster.Numeric

open Float.Model Float.Model.UnpackedFloat

/-! ## Packing -/

/-- Whether the exponent of a finite number has a place in the format. -/
def InRange : UnpackedFloat → Prop
  | .finite _ _ e _ => e ≤ 971
  | _ => True

theorem toNat_implicit (m : BitVec 52) : (1#1 ++ m).toNat = 2 ^ 52 + m.toNat := by
  have hm : m.toNat < 2 ^ 52 := m.isLt
  rw [BitVec.toNat_append, ← Nat.shiftLeft_add_eq_or_of_lt hm]
  rfl

/-- What bits stand for, by sign, exponent and fraction. -/
theorem unpack_eq (b : BitVec Format.binary64.numBits) :
    UnpackedFloat.unpack .binary64 b =
      let s := Sign.ofBitVec (unpackSign b)
      let e : BitVec 11 := unpackExponent b
      let m : BitVec 52 := unpackMantissa b
      if e = -1#11 then (if m = 0#52 then .infinity s else .notANumber)
      else if e = 0#11 then finiteOrZero s m.toNat (-1074)
      else finiteOrZero s (2 ^ 52 + m.toNat) (e.toNat - 1075) := by
  simp only []
  by_cases hmost : (unpackExponent b : BitVec 11) = -1#11
  · rw [if_pos hmost]
    exact if_pos hmost
  rw [if_neg hmost]
  refine (if_neg hmost).trans ?_
  by_cases hleast : (unpackExponent b : BitVec 11) = 0#11
  · rw [if_pos hleast, if_pos hleast]
    by_cases hzero : (unpackMantissa b : BitVec 52) = 0#52
    · have hnat : (unpackMantissa b : BitVec 52).toNat = 0 := by rw [hzero]; rfl
      rw [finiteOrZero, dif_pos hnat]
      exact dif_pos hzero
    · have hnat : (unpackMantissa b : BitVec 52).toNat ≠ 0 := fun h => hzero (BitVec.eq_of_toNat_eq h)
      rw [finiteOrZero, dif_neg hnat]
      refine (dif_neg hzero).trans ?_
      rw [UnpackedFloat.finite.injEq, hleast]
      exact ⟨rfl, rfl, rfl⟩
  · rw [if_neg hleast, if_neg hleast, finiteOrZero, dif_neg (by omega), UnpackedFloat.finite.injEq]
    exact ⟨rfl, toNat_implicit _, rfl⟩

/-- The sign of a double is its topmost bit. -/
theorem unpackSign_eq (b : BitVec 64) : @unpackSign .binary64 b = b.extractLsb' 63 1 := rfl

theorem ofBitVec_unpackSign (s : Sign) (e : BitVec 11) (m : BitVec 52) :
    Sign.ofBitVec (unpackSign (packComponents .binary64 s e m)) = s := by
  have hbit : (s.toBitVec ++ e ++ m).extractLsb' 63 1 = s.toBitVec := by
    ext i hi
    obtain rfl : i = 0 := by omega
    rw [BitVec.getElem_extractLsb', BitVec.getLsbD_append, BitVec.getLsbD_append]
    rfl
  have hsign : unpackSign (packComponents .binary64 s e m) = s.toBitVec := (unpackSign_eq _).trans hbit
  rw [hsign]
  cases s <;> rfl

/-- A mantissa of 53 bits loses the first one. -/
theorem pack_finite {s : Sign} {m b : Nat} {e : Int} (hm : 0 < m) (hm53 : m < 2 ^ 53) (hb : e = (b : Int) - 1075)
    (hlast : b + 1 < 2048) : UnpackedFloat.pack .binary64 (.finite s m e hm)
      = packComponents .binary64 s (if 2 ^ 52 ≤ m then BitVec.ofNat 11 b else 0#11) (BitVec.ofNat 52 m) := by
  have hpack : UnpackedFloat.pack .binary64 (.finite s m e hm) =
      if 2048 ≤ (e + 1023 + 52).toNat + 1 then packedInfinity .binary64 s
      else if m.log2 + 1 = 53 then packComponents .binary64 s (BitVec.ofNat 11 (e + 1023 + 52).toNat) (BitVec.ofNat 52 m)
      else packComponents .binary64 s 0#11 (BitVec.ofNat 52 m) := rfl
  have hbias : (e + 1023 + 52).toNat = b := by omega
  rw [hpack, hbias, if_neg (by omega)]
  by_cases h52 : 2 ^ 52 ≤ m
  · have hlog : m.log2 + 1 = 53 := by rw [(Nat.log2_eq_iff hm.ne').mpr ⟨h52, hm53⟩]
    rw [if_pos hlog, if_pos h52]
  · have hlog : m.log2 < 52 := (Nat.log2_lt hm.ne').mpr (by omega)
    rw [if_neg (by omega), if_neg h52]

/-- A number of the format whose exponent is in range survives packing. -/
theorem unpack_pack {f : UnpackedFloat} (hf : Fits f) (he : InRange f) :
    UnpackedFloat.unpack .binary64 (UnpackedFloat.pack .binary64 f) = f := by
  cases f with
  | infinity s => exact hf.elim
  | notANumber => exact hf.elim
  | zero s => cases s <;> rfl
  | finite s m e hm =>
    obtain ⟨hm53, hlow, hnorm⟩ := hf
    have he : e ≤ 971 := he
    have hm52 : m % 2 ^ 52 = if 2 ^ 52 ≤ m then m - 2 ^ 52 else m := by
      split <;> omega
    have hfinite : finiteOrZero s m e = .finite s m e hm := dif_neg hm.ne'
    obtain ⟨b, hb⟩ : ∃ b : Nat, e = (b : Int) - 1075 := ⟨(e + 1075).toNat, by omega⟩
    rw [pack_finite hm hm53 hb (by omega), ← hfinite, unpack_eq]
    simp only [unpackExponent_packComponents, unpackMantissa_packComponents, ofBitVec_unpackSign]
    by_cases h52 : 2 ^ 52 ≤ m
    · have hexp : (BitVec.ofNat 11 b).toNat = b := Nat.mod_eq_of_lt (by omega)
      have hmost : BitVec.ofNat 11 b ≠ -1#11 := by
        intro h
        have hnat : b = 2047 := hexp.symm.trans (congrArg BitVec.toNat h)
        omega
      have hleast : BitVec.ofNat 11 b ≠ 0#11 := by
        intro h
        have hnat : b = 0 := hexp.symm.trans (congrArg BitVec.toNat h)
        omega
      rw [if_pos h52, if_neg hmost, if_neg hleast, hexp, hb, BitVec.toNat_ofNat, hm52, if_pos h52,
        Nat.add_sub_cancel' h52]
    · rw [if_neg h52, if_neg (by decide), if_pos rfl, BitVec.toNat_ofNat, hm52, if_neg h52, hnorm.resolve_left h52]

theorem inRange_finiteOrZero (s : Sign) (m : Nat) {e : Int} (he : e ≤ 971) : InRange (finiteOrZero s m e) := by
  by_cases hm : m = 0
  · rw [finiteOrZero, dif_pos hm]
    trivial
  · rw [finiteOrZero, dif_neg hm]
    exact he

/-- What a finite double unpacks to is a number of the format. -/
theorem fits_unpack {b : BitVec Format.binary64.numBits} (h : (UnpackedFloat.unpack .binary64 b).isFinite = true) :
    Fits (UnpackedFloat.unpack .binary64 b) ∧ InRange (UnpackedFloat.unpack .binary64 b) := by
  rw [unpack_eq] at h ⊢
  generalize Sign.ofBitVec (unpackSign b) = s at h ⊢
  generalize (unpackExponent b : BitVec 11) = e at h ⊢
  generalize (unpackMantissa b : BitVec 52) = m at h ⊢
  simp only at h ⊢
  have hm : m.toNat < 2 ^ 52 := m.isLt
  by_cases hmost : e = -1#11
  · rw [if_pos hmost] at h
    split at h <;> cases h
  · have he : e.toNat < 2047 := by
      have : e.toNat < 2048 := e.isLt
      have : e.toNat ≠ 2047 := fun h => hmost (BitVec.eq_of_toNat_eq h)
      omega
    rw [if_neg hmost]
    by_cases hleast : e = 0#11
    · rw [if_pos hleast]
      exact ⟨fits_finiteOrZero s (by omega) (by omega) (.inr rfl), inRange_finiteOrZero s _ (by omega)⟩
    · have hpos : e.toNat ≠ 0 := fun h => hleast (BitVec.eq_of_toNat_eq h)
      rw [if_neg hleast]
      exact ⟨fits_finiteOrZero s (by omega) (by omega) (.inl (by omega)), inRange_finiteOrZero s _ (by omega)⟩

/-! ## Operations on numbers of the format -/

section

variable {a b : UnpackedFloat}

theorem decreaseExponent_of_le {m : Nat} {e target : Int} (h : target ≤ e) :
    ((decreaseExponent m e target).1 : ℚ) * 2 ^ target = m * 2 ^ e := by
  rw [← decreaseExponent_rational m e target]
  congr 2
  simp only [decreaseExponent]
  omega

theorem Fits.nearest_of_eq {v : ℚ} (ha : Fits a) (hv : rational a = v) : Nearest a v := hv ▸ ha.nearest

theorem nearest_zero (s : Sign) {v : ℚ} (hv : v = 0) : Nearest (.zero s) v :=
  Fits.nearest_of_eq (a := .zero s) trivial hv.symm

theorem add_nearest (ha : Fits a) (hb : Fits b) :
    Nearest (UnpackedFloat.add .binary64 a b) (rational a + rational b) := by
  cases a with
  | infinity s => exact ha.elim
  | notANumber => exact ha.elim
  | zero s =>
    cases b with
    | infinity t => exact hb.elim
    | notANumber => exact hb.elim
    | zero t =>
      have hsum : rational (.zero s) + rational (.zero t) = 0 := by rw [rational_zero, rational_zero, add_zero]
      rw [hsum]
      cases s <;> cases t <;> exact nearest_zero _ rfl
    | finite t m e hm => exact hb.nearest_of_eq (by rw [rational_zero, zero_add])
  | finite s m e hm =>
    cases b with
    | infinity t => exact hb.elim
    | notANumber => exact hb.elim
    | zero t => exact ha.nearest_of_eq (by rw [rational_zero, add_zero])
    | finite t n e' hn =>
      have h := normalize_nearest (s.apply (decreaseExponent m e (min e e')).1
        + t.apply (decreaseExponent n e' (min e e')).1) (min e e') .positive
      rw [Int.cast_add, cast_apply, cast_apply, add_mul, mul_assoc, mul_assoc, Int.cast_natCast, Int.cast_natCast,
        decreaseExponent_of_le (Int.min_le_left e e'), decreaseExponent_of_le (Int.min_le_right e e')] at h
      exact h

theorem fits_neg (ha : Fits a) : Fits a.neg := by
  cases a <;> exact ha

theorem inRange_neg (ha : InRange a) : InRange a.neg := by
  cases a <;> exact ha

theorem rational_neg : rational a.neg = -rational a := by
  cases a with
  | finite s m e hm =>
    have hsign : signUnit (-s) * (m * 2 ^ e) = -(signUnit s * (m * 2 ^ e)) := by rw [signUnit_neg, neg_mul]
    exact hsign
  | _ => exact neg_zero.symm

theorem apply_neg (s : Sign) (n : Int) : (-s).apply n = -s.apply n := by
  cases s
  · exact (Int.neg_neg n).symm
  · rfl

theorem unpacked_sub_eq : UnpackedFloat.sub .binary64 a b = UnpackedFloat.add .binary64 a b.neg := by
  cases a <;> cases b <;> try rfl
  rename_i s m e hm t n e' hn
  refine congrArg (normalize .binary64 · (min e e') .positive) ?_
  rw [apply_neg, Int.sub_eq_add_neg]

theorem sub_nearest (ha : Fits a) (hb : Fits b) :
    Nearest (UnpackedFloat.sub .binary64 a b) (rational a - rational b) := by
  have h := add_nearest ha (fits_neg hb)
  rwa [rational_neg, ← sub_eq_add_neg, ← unpacked_sub_eq] at h

theorem mul_nearest (ha : Fits a) (hb : Fits b) :
    Nearest (UnpackedFloat.mul .binary64 a b) (rational a * rational b) := by
  cases a with
  | infinity s => exact ha.elim
  | notANumber => exact ha.elim
  | zero s =>
    cases b with
    | infinity t => exact hb.elim
    | notANumber => exact hb.elim
    | zero t => exact nearest_zero _ (by rw [rational_zero, zero_mul])
    | finite t m e hm => exact nearest_zero _ (by rw [rational_zero, zero_mul])
  | finite s m e hm =>
    cases b with
    | infinity t => exact hb.elim
    | notANumber => exact hb.elim
    | zero t => exact nearest_zero _ (by rw [rational_zero, mul_zero])
    | finite t n e' hn =>
      have hvalue : rational (.finite s m e hm) * rational (.finite t n e' hn)
          = signUnit (s * t) * (((m * n : ℕ) : ℚ) * 2 ^ (e + e')) := by
        rw [rational_finite, rational_finite, signUnit_mul, zpow_add₀ two_ne_zero]
        push_cast
        ring
      rw [hvalue]
      refine roundWithAccuracy_nearest (s * t) (.inl (Nat.mul_pos hm hn).ne') ?_ (stands_exact _)
      obtain ⟨-, he, hm52⟩ := ha
      obtain ⟨-, he', hn52⟩ := hb
      -- a product has bits enough unless both numbers are subnormal
      have hlog : 2 ^ 52 ≤ m * n → (52 : Int) ≤ (m * n).log2 := fun h =>
        by exact_mod_cast (Nat.le_log2 (Nat.mul_pos hm hn).ne').mpr h
      rcases hm52 with hm52 | hm52
      · have := hlog (le_trans hm52 (Nat.le_mul_of_pos_right m hn))
        omega
      · rcases hn52 with hn52 | hn52
        · have := hlog (le_trans hn52 (Nat.le_mul_of_pos_left n hm))
          omega
        · omega

/-- A quotient and its remainder, as a mantissa with residual bits. -/
theorem stands_fraction (m : Nat) {d : Nat} (hd : 0 < d) :
    Stands (ExtendedMantissa.ofMantissaAndAccuracy (m / d) (accuracyOfFraction (m % d) d)) (m / d) := by
  have hdq : (0 : ℚ) < d := by exact_mod_cast hd
  have hm : (m : ℚ) / d = (m / d : ℕ) + (m % d : ℕ) / d := by
    rw [eq_comm, ← mul_right_cancel_iff_of_pos hdq, div_mul_cancel₀ _ hdq.ne', add_mul, div_mul_cancel₀ _ hdq.ne']
    exact_mod_cast Nat.div_add_mod' m d
  have hlt : m % d < d := Nat.mod_lt m hd
  generalize m / d = q at hm ⊢
  generalize m % d = r at hm hlt ⊢
  rw [hm]
  unfold accuracyOfFraction
  split
  · rename_i hr
    simp [Stands, ExtendedMantissa.ofMantissaAndAccuracy, hr]
  · have hr : (0 : ℚ) < r := by exact_mod_cast Nat.pos_of_ne_zero ‹_›
    have hltq : (r : ℚ) < d := by exact_mod_cast hlt
    have hdiv : (r : ℚ) / d < 1 := (div_lt_one hdq).mpr hltq
    have hpos : 0 < (r : ℚ) / d := div_pos hr hdq
    rcases Nat.lt_trichotomy (2 * r) d with h | h | h
    · rw [compare_lt_iff_lt.mpr h]
      have : (r : ℚ) / d < 1 / 2 := by
        rw [div_lt_div_iff₀ hdq two_pos]
        exact_mod_cast (by omega : r * 2 < 1 * d)
      exact ⟨by linarith, by linarith⟩
    · rw [compare_eq_iff_eq.mpr h]
      have : (r : ℚ) / d = 1 / 2 := by
        rw [div_eq_div_iff hdq.ne' two_ne_zero]
        exact_mod_cast (by omega : r * 2 = 1 * d)
      show (q : ℚ) + r / d = q + 1 / 2
      rw [this]
    · rw [compare_gt_iff_gt.mpr h]
      have : 1 / 2 < (r : ℚ) / d := by
        rw [div_lt_div_iff₀ two_pos hdq]
        exact_mod_cast (by omega : 1 * d < r * 2)
      exact ⟨by linarith, by linarith⟩

theorem quotient_bits {m n k : Nat} (hm : m ≠ 0) (hn : 0 < n) (h : n.log2 + 53 ≤ m.log2 + k) :
    2 ^ 52 ≤ m <<< k / n := by
  rw [Nat.le_div_iff_mul_le hn, Nat.shiftLeft_eq]
  calc 2 ^ 52 * n ≤ 2 ^ 52 * 2 ^ (n.log2 + 1) := Nat.mul_le_mul_left _ Nat.lt_log2_self.le
    _ = 2 ^ (n.log2 + 53) := by rw [← Nat.pow_add, Nat.add_comm 52, Nat.add_assoc]
    _ ≤ 2 ^ (m.log2 + k) := Nat.pow_le_pow_right (by decide) h
    _ ≤ m * 2 ^ k := by
      rw [Nat.pow_add]
      exact Nat.mul_le_mul_right _ (Nat.log2_self_le hm)

/-- A quotient of mantissas, the first shifted to where the exponent of the result is. -/
theorem rational_div {s t : Sign} {m n k : Nat} {e e' exponent : Int} (hm : 0 < m) (hn : 0 < n)
    (hk : e - e' - exponent = k) :
    rational (.finite s m e hm) / rational (.finite t n e' hn)
      = signUnit (s / t) * (((m <<< k : ℕ) : ℚ) / n * 2 ^ exponent) := by
  have hn0 : (n : ℚ) ≠ 0 := by exact_mod_cast hn.ne'
  have ht0 : signUnit t ≠ 0 := by cases t <;> simp [signUnit]
  have hexp : e = k + exponent + e' := by omega
  have ht := signUnit_mul_self t
  rw [rational_finite, rational_finite, signUnit_div, hexp, zpow_add₀ two_ne_zero, zpow_add₀ two_ne_zero, zpow_natCast,
    Nat.shiftLeft_eq]
  push_cast
  field_simp
  rw [pow_two, ht, mul_one]

theorem div_nearest (ha : Fits a) (hb : Fits b) (hne : rational b ≠ 0) :
    Nearest (UnpackedFloat.div .binary64 a b) (rational a / rational b) := by
  cases b with
  | infinity t => exact hb.elim
  | notANumber => exact hb.elim
  | zero t => exact (hne rfl).elim
  | finite t n e' hn =>
    cases a with
    | infinity s => exact ha.elim
    | notANumber => exact ha.elim
    | zero s => exact nearest_zero _ (by rw [rational_zero, zero_div])
    | finite s m e hm =>
      generalize hquotient : rational (.finite s m e hm) / rational (.finite t n e' hn) = quotient
      show Nearest (roundWithAccuracy .binary64 (s / t) (divCore .binary64 m e n e').1 (divCore .binary64 m e n e').2.1
        (divCore .binary64 m e n e').2.2) quotient
      unfold divCore
      simp only
      have htarget : Format.binary64.targetExponent (totalExponent m e - totalExponent n e')
          = max ((m.log2 : Int) + e - (n.log2 + e') - 53) (-1074) := by
        simp only [Format.targetExponent, totalExponent, Format.minExponent, mantissaBits_eq]
        norm_num
        omega
      rw [htarget]
      generalize hexponent : min (e - e') (max ((m.log2 : Int) + e - (n.log2 + e') - 53) (-1074)) = exponent
      obtain ⟨k, hk⟩ : ∃ k : Nat, e - e' - exponent = k := ⟨(e - e' - exponent).toNat, by omega⟩
      rw [← hquotient, rational_div hm hn hk, hk, Int.toNat_natCast]
      -- a quotient has bits enough where its exponent is not the least one
      have hq : -1074 < exponent → 2 ^ 52 ≤ m <<< k / n := fun h => quotient_bits hm.ne' hn (by omega)
      refine roundWithAccuracy_nearest (s / t) ?_ ?_ (stands_fraction _ hn)
      · by_cases h : -1074 < exponent
        · exact .inl (Nat.lt_of_lt_of_le (by positivity) (hq h)).ne'
        · exact .inr (by omega)
      · by_cases h : -1074 < exponent
        · have := (Nat.le_log2 (Nat.lt_of_lt_of_le (by positivity) (hq h)).ne').mpr (hq h)
          omega
        · omega

theorem ofNat_nearest (n : Nat) : Nearest (UnpackedFloat.ofNat .binary64 n) n := by
  have h := normalize_nearest n 0 .positive
  rw [zpow_zero, mul_one, Int.cast_natCast] at h
  exact h

end

/-! ## Doubles -/

/-- The number that a finite double stands for. -/
def value (x : Float) : ℚ := rational x.toModel.unpack

/-- What the double of a result is to the exact one. -/
structure Rounded (x : Float) (v : ℚ) : Prop where
  finite : x.isFinite = true
  error : |value x - v| ≤ |v| / 2 ^ 53 + halfLeast
  exact : ∀ j k : Int, |j| < 2 ^ 53 → -1074 ≤ k → v = j * 2 ^ k → value x = v

theorem halfLeast_le_one : halfLeast ≤ 1 := by
  rw [halfLeast]
  exact zpow_le_one_of_nonpos₀ one_le_two (by omega)

theorem isFinite_of_fits {f : UnpackedFloat} (h : Fits f) : f.isFinite = true := by
  cases f with
  | infinity s => exact h.elim
  | notANumber => exact h.elim
  | zero s => rfl
  | finite s m e hm => rfl

theorem unpack_ofModel_pack (f : UnpackedFloat) :
    (Float.ofModel (.pack f)).toModel.unpack = UnpackedFloat.unpack .binary64 (UnpackedFloat.pack .binary64 f) := rfl

/-- The nearest number of the format is a double, if it is not too great. -/
theorem Nearest.rounded {f : UnpackedFloat} {v : ℚ} (h : Nearest f v) (hv : |v| < 2 ^ (1023 : Int)) :
    Rounded (.ofModel (.pack f)) v := by
  have hrange : InRange f := by
    cases f with
    | finite s m e hm =>
      show e ≤ 971
      by_contra hgt
      obtain ⟨-, -, hlow⟩ := h.fits
      have hm52 : (2 : ℚ) ^ 52 ≤ m := by exact_mod_cast hlow.resolve_right (by omega)
      have hbig : (2 : ℚ) ^ (1024 : Int) ≤ m * 2 ^ e := by
        calc (2 : ℚ) ^ (1024 : Int) ≤ 2 ^ (52 + e) := zpow_le_zpow_right₀ one_le_two (by omega)
          _ = 2 ^ 52 * 2 ^ e := by rw [zpow_add₀ two_ne_zero]; norm_cast
          _ ≤ m * 2 ^ e := mul_le_mul_of_nonneg_right hm52 (zpow_pos two_pos e).le
      have hdouble : (2 : ℚ) ^ (1024 : Int) = 2 * 2 ^ (1023 : Int) := by
        rw [show (1024 : Int) = 1 + 1023 by norm_num, zpow_add₀ two_ne_zero, zpow_one]
      have htri := abs_sub_abs_le_abs_sub (rational (.finite s m e hm)) v
      have herr := h.error
      rw [abs_rational_finite] at htri
      generalize rational (.finite s m e hm) = r at htri herr
      have height : (2 : ℚ) ^ (3 : Int) ≤ 2 ^ (1023 : Int) := zpow_le_zpow_right₀ one_le_two (by omega)
      rw [show (2 : ℚ) ^ (3 : Int) = 8 by norm_num] at height
      have := halfLeast_le_one
      generalize (2 : ℚ) ^ (1024 : Int) = T' at hbig hdouble
      generalize (2 : ℚ) ^ (1023 : Int) = T at hdouble height hv
      linarith
    | _ => trivial
  have hunpack := (unpack_ofModel_pack f).trans (unpack_pack h.fits hrange)
  refine ⟨?_, ?_, fun j k hj hk hv => ?_⟩
  · show UnpackedFloat.isFinite _ = true
    rw [hunpack]
    exact isFinite_of_fits h.fits
  · rw [value, hunpack]
    exact h.error
  · rw [value, hunpack]
    exact h.exact j k hj hk hv

section

variable {x y : Float}

theorem fits_of_isFinite (hx : x.isFinite = true) : Fits x.toModel.unpack ∧ InRange x.toModel.unpack :=
  fits_unpack hx

theorem add_rounded (hx : x.isFinite = true) (hy : y.isFinite = true) (h : |value x + value y| < 2 ^ (1023 : Int)) :
    Rounded (x + y) (value x + value y) :=
  (add_nearest (fits_of_isFinite hx).1 (fits_of_isFinite hy).1).rounded h

theorem sub_rounded (hx : x.isFinite = true) (hy : y.isFinite = true) (h : |value x - value y| < 2 ^ (1023 : Int)) :
    Rounded (x - y) (value x - value y) :=
  (sub_nearest (fits_of_isFinite hx).1 (fits_of_isFinite hy).1).rounded h

theorem mul_rounded (hx : x.isFinite = true) (hy : y.isFinite = true) (h : |value x * value y| < 2 ^ (1023 : Int)) :
    Rounded (x * y) (value x * value y) :=
  (mul_nearest (fits_of_isFinite hx).1 (fits_of_isFinite hy).1).rounded h

theorem div_rounded (hx : x.isFinite = true) (hy : y.isFinite = true) (hne : value y ≠ 0)
    (h : |value x / value y| < 2 ^ (1023 : Int)) : Rounded (x / y) (value x / value y) :=
  (div_nearest (fits_of_isFinite hx).1 (fits_of_isFinite hy).1 hne).rounded h

theorem toFloat_rounded (n : UInt64) : Rounded n.toFloat n.toNat := by
  refine (ofNat_nearest n.toNat).rounded ?_
  rw [abs_of_nonneg (Nat.cast_nonneg _)]
  calc (n.toNat : ℚ) < 2 ^ (64 : Int) := by exact_mod_cast n.toNat_lt
    _ ≤ 2 ^ (1023 : Int) := zpow_le_zpow_right₀ one_le_two (by omega)

theorem finite_one : (1.0 : Float).isFinite = true := rfl

theorem value_one : value 1.0 = 1 := by
  have h : (1.0 : Float).toModel.unpack = .finite .positive (2 ^ 52) (-52) (by decide) := rfl
  rw [value, h, rational_positive]
  norm_num

/-- A count of 53 bits or more is read as a decimal number, which is a product with a power of ten. -/
theorem ofScientific_zero_nearest {n : Nat} (hn : n ≠ 0) : Nearest (UnpackedFloat.ofScientific .binary64 n 0) n := by
  have h : UnpackedFloat.ofScientific .binary64 n 0
      = roundWithAccuracy .binary64 .positive ((n <<< 53) * 1) (-53) .exact := by
    unfold UnpackedFloat.ofScientific
    have hsmall : ¬ (0 : Int) < -((2 ^ 11 : Int) + n.log2) := by omega
    rw [dif_neg hn, if_neg (by decide), if_neg hsmall, if_pos (Int.le_refl 0)]
    rfl
  have hlog := log2_shiftLeft hn 53
  have hround := roundWithAccuracy_nearest .positive (m := (n <<< 53) * 1) (e := -53)
    (.inl (by rw [Nat.shiftLeft_eq]; positivity)) (by rw [Nat.mul_one, hlog]; omega) (stands_exact _)
  rw [h]
  have hvalue : signUnit .positive * ((((n <<< 53) * 1 : ℕ) : ℚ) * 2 ^ (-53 : Int)) = n := by
    rw [signUnit, Nat.shiftLeft_eq]
    push_cast
    ring
  rwa [hvalue] at hround

theorem ofNat_rounded {n : Nat} (h : (n : ℚ) < 2 ^ (1023 : Int)) : Rounded (Float.ofNat n) n := by
  have habs : |(n : ℚ)| < 2 ^ (1023 : Int) := by rwa [abs_of_nonneg (Nat.cast_nonneg n)]
  show Rounded (Float.ofScientific n false 0) n
  unfold Float.ofScientific
  by_cases hn : n < 2 ^ 53
  · rw [dif_pos ⟨hn, by decide⟩]
    show Rounded (n.toUInt64.toFloat * 1.0) n
    have hword : n.toUInt64.toNat = n := Nat.mod_eq_of_lt (by omega)
    have hn' := toFloat_rounded n.toUInt64
    rw [hword] at hn'
    have hvalue : value n.toUInt64.toFloat = n :=
      hn'.exact n 0 (by rw [abs_of_nonneg (by omega)]; omega) (by omega) (by simp)
    have hmul := mul_rounded hn'.finite finite_one (by rwa [hvalue, value_one, mul_one])
    rwa [hvalue, value_one, mul_one] at hmul
  · rw [dif_neg (by omega)]
    exact (ofScientific_zero_nearest (by omega)).rounded habs

end

end VectorRaster.Numeric
