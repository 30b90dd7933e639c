/-
  VectorRaster.Proofs.Numeric.Near — how far a computation in doubles is from the exact one.

  Errors are counted in grains. A grain of a scale is a little more than a rounding of a number
  of that scale can be off, with room for what is below the least number. Then every operation
  costs one grain on top of what its arguments are off by (`Near.add`, `Near.sub`, `Near.mul`),
  as long as the counts stay small and the scale is far from the greatest number.
-/

import VectorRaster.Proofs.Numeric.Conversion

namespace VectorRaster.Numeric

/-- A finite double that is off a number by no more than `δ`. -/
structure Near (x : Float) (v δ : ℚ) : Prop where
  finite : x.isFinite = true
  error : |value x - v| ≤ δ

/-- What an operation at this scale can be off by. -/
def grain (scale : ℚ) : ℚ := scale / 2 ^ 50 + 8 * halfLeast

/-- The greatest scale: far below the greatest double. -/
@[irreducible]
def scaleLimit : ℚ := 2 ^ (1000 : Int)

theorem two_pow_le_scaleLimit : (2 : ℚ) ^ 104 ≤ scaleLimit := by
  rw [← zpow_natCast, scaleLimit]
  exact zpow_le_zpow_right₀ one_le_two (by decide)

theorem one_le_scaleLimit : 1 ≤ scaleLimit := le_trans (by norm_num) two_pow_le_scaleLimit

theorem scaleLimit_lt : 4 * scaleLimit < 2 ^ (1023 : Int) := by
  have h : (4 : ℚ) * scaleLimit = 2 ^ (1002 : Int) := by
    rw [scaleLimit, show (1002 : Int) = 2 + 1000 by norm_num, zpow_add₀ two_ne_zero]
    norm_num
  rw [h]
  exact zpow_lt_zpow_right₀ one_lt_two (by omega)

theorem halfLeast_le : halfLeast ≤ 1 / 2 ^ 75 := by
  have := zpow_le_zpow_right₀ (one_le_two (α := ℚ)) (by omega : (-1075 : Int) ≤ -75)
  rw [halfLeast]
  refine this.trans (le_of_eq ?_)
  norm_num

section

variable {s : ℚ}

theorem grain_pos (hs : 0 ≤ s) : 0 < grain s := by
  have := halfLeast_pos
  unfold grain
  positivity

theorem div_le_grain (s : ℚ) : s / 2 ^ 50 ≤ grain s := by
  unfold grain
  linarith [halfLeast_pos]

theorem halfLeast_le_grain (hs : 0 ≤ s) : 8 * halfLeast ≤ grain s := by
  have : 0 ≤ s / 2 ^ 50 := by positivity
  unfold grain
  linarith

theorem grain_le_scaleLimit (hs : s ≤ scaleLimit) : 2 ^ 12 * grain s ≤ scaleLimit := by
  have := two_pow_le_scaleLimit
  unfold grain
  linarith [halfLeast_le]

theorem grain_one_le : grain 1 ≤ 1 / 2 ^ 49 := by
  unfold grain
  linarith [halfLeast_le]

/-- A grain of one, at a greater scale. -/
theorem mul_grain_one_le (hs : 0 ≤ s) : s * grain 1 ≤ (1 + 1 / 2 ^ 20) * grain s := by
  have h1 := div_le_grain s
  have h2 : s * halfLeast ≤ s * (1 / 2 ^ 75) := mul_le_mul_of_nonneg_left halfLeast_le hs
  have h3 : s * grain 1 = s / 2 ^ 50 + 8 * (s * halfLeast) := by
    unfold grain
    ring
  rw [h3]
  linarith

end

namespace Near

variable {x y : Float} {v w s a b δ ε : ℚ}

theorem of_finite (h : x.isFinite = true) : Near x (value x) 0 := ⟨h, by rw [sub_self, abs_zero]⟩

theorem mono (h : Near x v δ) (hle : δ ≤ ε) : Near x v ε := ⟨h.finite, h.error.trans hle⟩

theorem abs_value_le (h : Near x v δ) : |value x| ≤ |v| + δ := by
  have := abs_sub_abs_le_abs_sub (value x) v
  linarith [h.error]

theorem nonneg (h : Near x v (a * grain s)) (hs : 0 ≤ s) : 0 ≤ a :=
  le_of_mul_le_mul_right (by linarith [(abs_nonneg _).trans h.error]) (grain_pos hs)

end Near

/-- A rounding costs half a grain. -/
theorem Rounded.near {x : Float} {v w s a : ℚ} (h : Rounded x v) (hvw : |v - w| ≤ a * grain s) (hw : |w| ≤ s)
    (ha : a ≤ 2 ^ 12) : Near x w ((a + 1 / 2) * grain s) := by
  have hs : 0 ≤ s := (abs_nonneg w).trans hw
  refine ⟨h.finite, ?_⟩
  have hv : |v| ≤ |w| + a * grain s := by
    have := abs_sub_abs_le_abs_sub v w
    linarith
  have hag : a * grain s ≤ 2 ^ 12 * grain s := mul_le_mul_of_nonneg_right ha (grain_pos hs).le
  have htri := abs_sub_le (value x) v w
  linarith [h.error, div_le_grain s, halfLeast_le_grain hs]

namespace Near

variable {x y : Float} {v w s a b : ℚ}

/-- What is near a number of the scale is in the range of doubles. -/
theorem lt_range {e : ℚ} (h : |v - w| ≤ e) (he : e ≤ 2 ^ 12 * grain s) (hw : |w| ≤ s) (hs : s ≤ scaleLimit) :
    |v| < 2 ^ (1023 : Int) := by
  have htri := abs_sub_abs_le_abs_sub v w
  calc |v| ≤ 4 * scaleLimit := by linarith [grain_le_scaleLimit hs, two_pow_le_scaleLimit]
    _ < 2 ^ (1023 : Int) := scaleLimit_lt

theorem add (hx : Near x v (a * grain s)) (hy : Near y w (b * grain s)) (hvw : |v + w| ≤ s) (hs : s ≤ scaleLimit)
    (ha : a ≤ 2 ^ 10) (hb : b ≤ 2 ^ 10) : Near (x + y) (v + w) ((a + b + 1) * grain s) := by
  have hs0 : 0 ≤ s := (abs_nonneg _).trans hvw
  have herr : |value x + value y - (v + w)| ≤ (a + b) * grain s := by
    rw [add_sub_add_comm, add_mul]
    exact (abs_add_le _ _).trans (add_le_add hx.error hy.error)
  have hrange := lt_range herr (mul_le_mul_of_nonneg_right (by linarith) (grain_pos hs0).le) hvw hs
  refine ((add_rounded hx.finite hy.finite hrange).near herr hvw (by linarith)).mono ?_
  linarith [grain_pos hs0]

theorem sub (hx : Near x v (a * grain s)) (hy : Near y w (b * grain s)) (hvw : |v - w| ≤ s) (hs : s ≤ scaleLimit)
    (ha : a ≤ 2 ^ 10) (hb : b ≤ 2 ^ 10) : Near (x - y) (v - w) ((a + b + 1) * grain s) := by
  have hs0 : 0 ≤ s := (abs_nonneg _).trans hvw
  have herr : |value x - value y - (v - w)| ≤ (a + b) * grain s := by
    rw [sub_sub_sub_comm, add_mul]
    exact (abs_sub _ _).trans (add_le_add hx.error hy.error)
  have hrange := lt_range herr (mul_le_mul_of_nonneg_right (by linarith) (grain_pos hs0).le) hvw hs
  refine ((sub_rounded hx.finite hy.finite hrange).near herr hvw (by linarith)).mono ?_
  linarith [grain_pos hs0]

/-- A product with a number of scale one. -/
theorem mul (hx : Near x v (a * grain s)) (hy : Near y w (b * grain 1)) (hv : |v| ≤ s) (hw : |w| ≤ 1)
    (hs : s ≤ scaleLimit) (ha : a ≤ 2 ^ 10) (hb : b ≤ 2 ^ 10) : Near (x * y) (v * w) ((a + b + 1) * grain s) := by
  have hs0 : 0 ≤ s := (abs_nonneg _).trans hv
  have hg := grain_pos hs0
  have ha0 := hx.nonneg hs0
  have hb0 := hy.nonneg zero_le_one
  have hvw : |v * w| ≤ s := by
    rw [abs_mul]
    exact (mul_le_mul hv hw (abs_nonneg w) hs0).trans_eq (mul_one s)
  have herr : |value x * value y - v * w| ≤ (a + b + 1 / 2) * grain s := by
    have hsplit : value x * value y - v * w = (value x - v) * value y + v * (value y - w) := by ring
    have h1 : |value x - v| * |value y| ≤ a * grain s * (1 + b * grain 1) :=
      mul_le_mul hx.error (hy.abs_value_le.trans (by linarith)) (abs_nonneg _) (by positivity)
    have h2 : |v| * |value y - w| ≤ s * (b * grain 1) := mul_le_mul hv hy.error (abs_nonneg _) hs0
    have h3 : a * grain s * (b * grain 1) ≤ 1 / 2 ^ 20 * grain s := by
      have hab : a * b ≤ 2 ^ 10 * 2 ^ 10 := mul_le_mul ha hb hb0 (by norm_num)
      have := mul_le_mul hab grain_one_le (grain_pos zero_le_one).le (by norm_num)
      calc a * grain s * (b * grain 1) = a * b * grain 1 * grain s := by ring
        _ ≤ 2 ^ 10 * 2 ^ 10 * (1 / 2 ^ 49) * grain s := mul_le_mul_of_nonneg_right this hg.le
        _ ≤ 1 / 2 ^ 20 * grain s := mul_le_mul_of_nonneg_right (by norm_num) hg.le
    have h4 : s * (b * grain 1) ≤ (b + 1 / 2 ^ 10) * grain s := by
      calc s * (b * grain 1) = b * (s * grain 1) := by ring
        _ ≤ b * ((1 + 1 / 2 ^ 20) * grain s) := mul_le_mul_of_nonneg_left (mul_grain_one_le hs0) hb0
        _ = (b + b / 2 ^ 20) * grain s := by ring
        _ ≤ (b + 1 / 2 ^ 10) * grain s := mul_le_mul_of_nonneg_right (by linarith) hg.le
    calc |value x * value y - v * w| ≤ |value x - v| * |value y| + |v| * |value y - w| := by
          rw [hsplit, ← abs_mul, ← abs_mul]
          exact abs_add_le _ _
      _ ≤ (a + b + 1 / 2) * grain s := by linarith
  have hrange := lt_range herr (mul_le_mul_of_nonneg_right (by linarith) hg.le) hvw hs
  refine ((mul_rounded hx.finite hy.finite hrange).near herr hvw (by linarith)).mono ?_
  linarith

end Near

end VectorRaster.Numeric
