/-
  VectorRaster.Proofs.Geometry.Stretch — the box of a stretch holds its samples.

  The control points of a stretch come from a few interpolations (`mix`), which cost grains as
  samples do. Proved: along one axis, every sample of the stretch has its pixel between those
  of the least and the greatest control number, once these are moved apart by the slack.
-/

import VectorRaster.Proofs.Geometry.Sampling
import VectorRaster.Proofs.Numeric.Extremes
import VectorRaster.Proofs.Raster.Nearest

namespace VectorRaster

open Numeric

namespace Curve

/-! ## Interpolation -/

/-- One coordinate of the points between neighbours. -/
def mix (t : Float) (xs : List Float) : List Float := xs.zipWith (fun p q => p * (1.0 - t) + q * t) xs.tail

theorem map_x_between (t : Float) (points : List (Point Float)) :
    (between t points).map Point.x = mix t (points.map Point.x) := by
  simp only [between, mix, List.map_zipWith, ← List.map_tail, List.zipWith_map]
  rfl

theorem map_y_between (t : Float) (points : List (Point Float)) :
    (between t points).map Point.y = mix t (points.map Point.y) := by
  simp only [between, mix, List.map_zipWith, ← List.map_tail, List.zipWith_map]
  rfl

/-- Doubles near to exact numbers, one by one. -/
structure AllNear (fs : List Float) (xs : List ℚ) (δ : ℚ) : Prop where
  length : fs.length = xs.length
  near : ∀ i (h : i < fs.length) (h' : i < xs.length), Near fs[i] xs[i] δ

@[simp] theorem length_mix (t : Float) (fs : List Float) : (mix t fs).length = fs.length - 1 := by
  simp [mix]

theorem getElem_mix {t : Float} {fs : List Float} {i : Nat} (h : i < (mix t fs).length) :
    (mix t fs)[i] = getElem fs i (by rw [length_mix] at h; omega) * (1.0 - t)
      + getElem fs (i + 1) (by rw [length_mix] at h; omega) * t := by
  simp [mix]

theorem AllNear.mix {fs : List Float} {xs : List ℚ} {s τ a : ℚ} {t : Float} (h : AllNear fs xs (a * grain s))
    (hxs : Bezier.Within (-s) s xs) (hs : s ≤ scaleLimit) (ht : Near t τ (1 * grain 1)) (h0 : 0 ≤ τ) (h1 : τ ≤ 1)
    (ha : a ≤ 2 ^ 8) : AllNear (mix t fs) (Bezier.lerp τ xs) ((2 * a + 6) * grain s) where
  length := by rw [length_mix, Bezier.length_lerp, h.length]
  near i hi hi' := by
    have hlerp := (hxs.lerp h0 h1) _ (List.getElem_mem hi')
    rw [length_mix] at hi
    rw [Bezier.length_lerp] at hi'
    rw [Bezier.getElem_lerp] at hlerp ⊢
    rw [getElem_mix]
    have hp := abs_le.mpr (hxs _ (List.getElem_mem (by omega : i < xs.length)))
    have hq := abs_le.mpr (hxs _ (List.getElem_mem (by omega : i + 1 < xs.length)))
    have hτ : |τ| ≤ 1 := by rwa [abs_of_nonneg h0]
    have hτ' : |1 - τ| ≤ 1 := by
      rw [abs_of_nonneg (by linarith)]
      linarith
    have hleft := (h.near i (by omega) (by omega)).mul (complement_near ht h0 h1) hp hτ' hs (by linarith) (by norm_num)
    have hright := (h.near (i + 1) (by omega) (by omega)).mul ht hq hτ hs (by linarith) (by norm_num)
    refine (hleft.add hright (abs_le.mpr hlerp) hs (by linarith) (by linarith)).mono ?_
    exact le_of_eq (by ring)

/-- Each interpolation doubles what there was to be off by, and adds six grains. -/
theorem AllNear.foldl_mix {ts : List Float} {τs : List ℚ} {s : ℚ} (hs : s ≤ scaleLimit)
    (hts : List.Forall₂ (fun t τ => Near t τ (1 * grain 1) ∧ 0 ≤ τ ∧ τ ≤ 1) ts τs)
    {fs : List Float} {xs : List ℚ} {a : ℚ} (h : AllNear fs xs (a * grain s)) (hxs : Bezier.Within (-s) s xs) (ha0 : 0 ≤ a)
    (ha : 2 ^ ts.length * (a + 6) ≤ 2 ^ 8) :
    AllNear (ts.foldl (fun fs t => Curve.mix t fs) fs) (Bezier.blend τs xs) ((2 ^ ts.length * (a + 6) - 6) * grain s) := by
  induction hts generalizing fs xs a with
  | nil => simpa using h
  | cons ht hts ih =>
    rename_i t τ ts τs
    obtain ⟨hnear, h0, h1⟩ := ht
    rw [List.length_cons, pow_succ] at ha ⊢
    have hpow : (1 : ℚ) ≤ 2 ^ ts.length := one_le_pow₀ one_le_two
    have hge : 1 * (a + 6) ≤ 2 ^ ts.length * (a + 6) := mul_le_mul_of_nonneg_right hpow (by linarith)
    have hnext := ih (h.mix hxs hs hnear h0 h1 (by linarith)) (hxs.lerp h0 h1) (by linarith) (by linarith)
    rw [List.foldl_cons, Bezier.blend_cons]
    convert hnext using 2
    ring

/-! ## Control points of a stretch -/

/-- What a control point of a stretch is off by, in grains. -/
def stretchError : ℚ := 42

/-- A coordinate of points, which interpolation keeps. -/
structure IsCoordinate (c : Point Float → Float) : Prop where
  between : ∀ t points, (between t points).map c = mix t (points.map c)

theorem isCoordinate_x : IsCoordinate Point.x := ⟨map_x_between⟩

theorem isCoordinate_y : IsCoordinate Point.y := ⟨map_y_between⟩

theorem IsCoordinate.foldl {c : Point Float → Float} (hc : IsCoordinate c) (ts : List Float)
    (points : List (Point Float)) :
    (ts.foldl (fun points t => Curve.between t points) points).map c = ts.foldl (fun fs t => mix t fs) (points.map c) := by
  induction ts generalizing points with
  | nil => rfl
  | cons t ts ih => rw [List.foldl_cons, ih, hc.between, List.foldl_cons]

theorem forall₂_replicate {t : Float} {τ : ℚ} (h : Near t τ (1 * grain 1) ∧ 0 ≤ τ ∧ τ ≤ 1) (n : Nat) :
    List.Forall₂ (fun t τ => Near t τ (1 * grain 1) ∧ 0 ≤ τ ∧ τ ≤ 1) (List.replicate n t) (List.replicate n τ) := by
  induction n with
  | zero => exact .nil
  | succ n ih => exact .cons h ih

/-- The control points of a stretch are near the exact ones. -/
theorem stretch_near {c : Point Float → Float} (hc : IsCoordinate c) {points : List (Point Float)}
    (hlen : points.length ≤ 4) {s τ₀ τ₁ : ℚ} {t₀ t₁ : Float} (hs : s ≤ scaleLimit)
    (hpoints : ∀ p ∈ points, (c p).isFinite = true ∧ |value (c p)| ≤ s)
    (ht₀ : Near t₀ τ₀ (1 * grain 1) ∧ 0 ≤ τ₀ ∧ τ₀ ≤ 1) (ht₁ : Near t₁ τ₁ (1 * grain 1) ∧ 0 ≤ τ₁ ∧ τ₁ ≤ 1)
    {i : Nat} (hi : i < points.length) :
    AllNear (((List.replicate (points.length - 1 - i) t₀ ++ List.replicate i t₁).foldl
        (fun points t => between t points) points).map c)
      (Bezier.blend (Bezier.stretchAt τ₀ τ₁ (points.length - 1) i) (points.map fun p => value (c p)))
      (stretchError * grain s) := by
  have hs0 : 0 ≤ s := (abs_nonneg _).trans (hpoints points[i] (List.getElem_mem hi)).2
  have hstart : AllNear (points.map c) (points.map fun p => value (c p)) (0 * grain s) := by
    refine ⟨by simp, fun k h h' => ?_⟩
    rw [List.getElem_map, List.getElem_map, zero_mul]
    exact .of_finite (hpoints _ (List.getElem_mem _)).1
  have hwithin : Bezier.Within (-s) s (points.map fun p => value (c p)) := by
    intro x hx
    obtain ⟨p, hp, rfl⟩ := List.mem_map.mp hx
    exact abs_le.mp (hpoints p hp).2
  have hts := (List.rel_append (forall₂_replicate ht₀ (points.length - 1 - i))) (forall₂_replicate ht₁ i)
  have hcount : (List.replicate (points.length - 1 - i) t₀ ++ List.replicate i t₁).length ≤ 3 := by
    rw [List.length_append, List.length_replicate, List.length_replicate]
    omega
  have hpow := pow_le_pow_right₀ (one_le_two (α := ℚ)) hcount
  rw [hc.foldl]
  have h := hstart.foldl_mix hs hts hwithin le_rfl (by linarith)
  refine ⟨h.length, fun k hk hk' => (h.near k hk hk').mono ?_⟩
  refine mul_le_mul_of_nonneg_right ?_ (grain_pos hs0).le
  unfold stretchError
  linarith

theorem AllNear.of_mem {fs : List Float} {xs : List ℚ} {δ : ℚ} (h : AllNear fs xs δ) :
    (∀ f ∈ fs, ∃ x ∈ xs, Near f x δ) ∧ (∀ x ∈ xs, ∃ f ∈ fs, Near f x δ) := by
  constructor
  · intro f hf
    obtain ⟨i, hi, rfl⟩ := List.mem_iff_getElem.mp hf
    have hi' : i < xs.length := h.length ▸ hi
    exact ⟨xs[i], List.getElem_mem hi', h.near i hi hi'⟩
  · intro x hx
    obtain ⟨i, hi, rfl⟩ := List.mem_iff_getElem.mp hx
    have hi' : i < fs.length := h.length ▸ hi
    exact ⟨fs[i], List.getElem_mem hi', h.near i hi' hi⟩

/-- All control points of a stretch are near exact ones, and none of these is left out. -/
theorem mem_stretch {c : Point Float → Float} (hc : IsCoordinate c) {points : List (Point Float)}
    (hlen : points.length ≤ 4) {s τ₀ τ₁ : ℚ} {t₀ t₁ : Float} (hs : s ≤ scaleLimit)
    (hpoints : ∀ p ∈ points, (c p).isFinite = true ∧ |value (c p)| ≤ s)
    (ht₀ : Near t₀ τ₀ (1 * grain 1) ∧ 0 ≤ τ₀ ∧ τ₀ ≤ 1) (ht₁ : Near t₁ τ₁ (1 * grain 1) ∧ 0 ≤ τ₁ ∧ τ₁ ≤ 1) :
    (∀ p ∈ stretch points t₀ t₁, ∃ x, |x| ≤ s ∧ Near (c p) x (stretchError * grain s)) ∧
      ∀ i < points.length,
        ∀ x ∈ Bezier.blend (Bezier.stretchAt τ₀ τ₁ (points.length - 1) i) (points.map fun p => value (c p)),
        ∃ p ∈ stretch points t₀ t₁, Near (c p) x (stretchError * grain s) := by
  constructor
  · intro p hp
    obtain ⟨i, hi, hp⟩ := List.mem_flatMap.mp hp
    rw [List.mem_range] at hi
    obtain ⟨x, hx, hnear⟩ := (stretch_near hc hlen hs hpoints ht₀ ht₁ hi).of_mem.1 _ (List.mem_map_of_mem hp)
    refine ⟨x, abs_le.mpr (Bezier.Within.blend ?_ ?_ x hx), hnear⟩
    · intro y hy
      obtain ⟨q, hq, rfl⟩ := List.mem_map.mp hy
      exact abs_le.mp (hpoints q hq).2
    · intro τ hτ
      rcases List.mem_append.mp hτ with h | h <;> rw [List.eq_of_mem_replicate h]
      · exact ht₀.2
      · exact ht₁.2
  · intro i hi x hx
    obtain ⟨f, hf, hnear⟩ := (stretch_near hc hlen hs hpoints ht₀ ht₁ hi).of_mem.2 x hx
    obtain ⟨p, hp, rfl⟩ := List.mem_map.mp hf
    exact ⟨p, List.mem_flatMap.mpr ⟨i, List.mem_range.mpr hi, hp⟩, hnear⟩

/-- Along one axis the box of a stretch has finite ends, not far out, around all control points. -/
theorem stretch_ends {c : Point Float → Float} (hc : IsCoordinate c) {points : List (Point Float)}
    (hlen : points.length ≤ 4) {s τ₀ τ₁ : ℚ} {t₀ t₁ : Float} (hs : s ≤ scaleLimit)
    (hpoints : ∀ p ∈ points, (c p).isFinite = true ∧ |value (c p)| ≤ s)
    (ht₀ : Near t₀ τ₀ (1 * grain 1) ∧ 0 ≤ τ₀ ∧ τ₀ ≤ 1) (ht₁ : Near t₁ τ₁ (1 * grain 1) ∧ 0 ≤ τ₁ ∧ τ₁ ≤ 1)
    {p : Point Float} {ps : List (Point Float)} (hps : stretch points t₀ t₁ = p :: ps) :
    ((minimum (c p) (ps.map c)).isFinite = true ∧ |value (minimum (c p) (ps.map c))| ≤ s + stretchError * grain s) ∧
      ((maximum (c p) (ps.map c)).isFinite = true ∧ |value (maximum (c p) (ps.map c))| ≤ s + stretchError * grain s) ∧
      ∀ q ∈ stretch points t₀ t₁,
        value (minimum (c p) (ps.map c)) ≤ value (c q) ∧ value (c q) ≤ value (maximum (c p) (ps.map c)) := by
  have hnear := (mem_stretch hc hlen hs hpoints ht₀ ht₁).1
  have hcontrol : ∀ y ∈ c p :: ps.map c, y.isFinite = true ∧ |value y| ≤ s + stretchError * grain s := by
    intro y hy
    rw [← List.map_cons, ← hps] at hy
    obtain ⟨q, hq, rfl⟩ := List.mem_map.mp hy
    obtain ⟨x, hxs, hx⟩ := hnear q hq
    exact ⟨hx.finite, by linarith [hx.abs_value_le]⟩
  have hhead := (hcontrol (c p) (List.mem_cons_self ..)).1
  have hrest : ∀ y ∈ ps.map c, y.isFinite = true := fun y hy => (hcontrol y (List.mem_cons_of_mem _ hy)).1
  obtain ⟨hlo, hmin, l, hl, hvl⟩ := minimum_spec hhead hrest
  obtain ⟨hhi, hmax, h, hh, hvh⟩ := maximum_spec hhead hrest
  refine ⟨⟨hlo, hvl ▸ (hcontrol l hl).2⟩, ⟨hhi, hvh ▸ (hcontrol h hh).2⟩, fun q hq => ?_⟩
  have hy : c q ∈ c p :: ps.map c := by
    rw [← List.map_cons, ← hps]
    exact List.mem_map_of_mem hq
  exact ⟨hmin _ hy, hmax _ hy⟩

/-- The exact curve is between the ends of a stretch's box, but for what its control points are off by. -/
theorem bezier_between {c : Point Float → Float} (hc : IsCoordinate c) {points : List (Point Float)}
    (hne : points ≠ []) (hlen : points.length ≤ 4) {s τ₀ τ₁ τ w lo hi : ℚ} {t₀ t₁ : Float} (hs : s ≤ scaleLimit)
    (hpoints : ∀ p ∈ points, (c p).isFinite = true ∧ |value (c p)| ≤ s)
    (ht₀ : Near t₀ τ₀ (1 * grain 1) ∧ 0 ≤ τ₀ ∧ τ₀ ≤ 1) (ht₁ : Near t₁ τ₁ (1 * grain 1) ∧ 0 ≤ τ₁ ∧ τ₁ ≤ 1)
    (hw0 : 0 ≤ w) (hw1 : w ≤ 1) (hτ : τ = τ₀ * (1 - w) + τ₁ * w)
    (hbox : ∀ p ∈ stretch points t₀ t₁, lo ≤ value (c p) ∧ value (c p) ≤ hi) :
    lo - stretchError * grain s ≤ Bezier.bezier (points.map fun p => value (c p)) τ ∧
      Bezier.bezier (points.map fun p => value (c p)) τ ≤ hi + stretchError * grain s := by
  have hall := (mem_stretch hc hlen hs hpoints ht₀ ht₁).2
  have hpos := List.length_pos_iff.mpr hne
  have hstretch : ∀ i ≤ points.length - 1,
      Bezier.Within (lo - stretchError * grain s) (hi + stretchError * grain s)
        (Bezier.blend (Bezier.stretchAt τ₀ τ₁ (points.length - 1) i) (points.map fun p => value (c p))) := by
    intro i hi x hx
    obtain ⟨q, hq, hqx⟩ := hall i (by omega) x hx
    obtain ⟨hlo, hhi⟩ := hbox q hq
    have herr := abs_le.mp hqx.error
    constructor <;> linarith
  have hxs : (points.map fun p => value (c p)) ≠ [] := by simpa using hne
  exact Bezier.within_of_stretch hw0 hw1 hτ _ hstretch _ (by simpa using Bezier.bezier_mem hxs τ)

end Curve

/-! ## Slack -/

theorem slackFactor_exact : (1e-12 : Float).isFinite = true ∧ 1 / 2 ^ 40 ≤ value 1e-12 ∧ value 1e-12 ≤ 1 / 2 ^ 39 := by
  have h : (1e-12 : Float).toModel.unpack = .finite .positive 4951760157141521 (-92) (by decide) := rfl
  refine ⟨rfl, ?_, ?_⟩ <;> rw [value, h, rational_positive] <;> norm_num

section

variable {lo hi z g : Float} {M : ℚ}

/-- The slack is less than half a pixel where all numbers are small, and else much more than what samples
and control points are off by. -/
theorem slack_bounds (hM0 : 0 ≤ M) (hM : 4 * M ≤ scaleLimit) (hg : g.isFinite = true) (hv : value g = M) :
    (1e-12 * g).isFinite = true ∧ 1 / 2 ^ 41 * M - halfLeast ≤ value (1e-12 * g) ∧
      value (1e-12 * g) ≤ 1 / 2 ^ 38 * M + halfLeast := by
  obtain ⟨hf, hlow, hhigh⟩ := slackFactor_exact
  have h1 : 1 / 2 ^ 40 * M ≤ value 1e-12 * M := mul_le_mul_of_nonneg_right hlow hM0
  have h2 : value 1e-12 * M ≤ 1 / 2 ^ 39 * M := mul_le_mul_of_nonneg_right hhigh hM0
  have habs : |value 1e-12 * value g| = value 1e-12 * M := by
    rw [hv, abs_of_nonneg (by linarith)]
  have hround := mul_rounded hf hg (by
    rw [habs]
    calc value 1e-12 * M ≤ 4 * scaleLimit := by linarith [one_le_scaleLimit]
      _ < 2 ^ (1023 : Int) := scaleLimit_lt)
  have herr := hround.error
  rw [habs, hv] at herr
  have := abs_le.mp herr
  exact ⟨hround.finite, by linarith, by linarith⟩

theorem errors_eq (M : ℚ) : 200 * grain M = 200 / 2 ^ 50 * M + 1600 * halfLeast := by
  unfold grain
  ring

theorem pixelAt_sub_slack_le (hM0 : 0 ≤ M) (hM : 4 * M ≤ scaleLimit) (hg : g.isFinite = true) (hv : value g = M)
    (hlo : lo.isFinite = true) (hlo' : |value lo| ≤ M + 200 * grain M) (hz : z.isFinite = true)
    (hz' : |value z| ≤ M + 200 * grain M) (hle : value lo - 200 * grain M ≤ value z) :
    (pixelAt (lo - 1e-12 * g)).toInt ≤ (pixelAt z).toInt := by
  obtain ⟨hf, hlow, hhigh⟩ := slack_bounds hM0 hM hg hv
  rw [errors_eq] at hlo' hz' hle
  obtain ⟨hlo1, hlo2⟩ := abs_le.mp hlo'
  obtain ⟨hz1, hz2⟩ := abs_le.mp hz'
  have hh := halfLeast_le
  have hh0 := halfLeast_pos
  have hdiff : |value lo - value (1e-12 * g)| ≤ 2 * M + 2000 * halfLeast := abs_le.mpr ⟨by linarith, by linarith⟩
  have hround := sub_rounded hlo hf (by
    calc |value lo - value (1e-12 * g)| ≤ 4 * scaleLimit := by linarith [two_pow_le_scaleLimit]
      _ < 2 ^ (1023 : Int) := scaleLimit_lt)
  have herr := abs_le.mp hround.error
  refine pixelAt_le hround.finite hz ?_
  rcases le_or_gt M (1 / 4) with hsmall | hbig
  · exact .inr ⟨abs_lt.mpr ⟨by linarith, by linarith⟩, abs_lt.mpr ⟨by linarith, by linarith⟩⟩
  · exact .inl (by linarith)

theorem le_pixelAt_add_slack (hM0 : 0 ≤ M) (hM : 4 * M ≤ scaleLimit) (hg : g.isFinite = true) (hv : value g = M)
    (hhi : hi.isFinite = true) (hhi' : |value hi| ≤ M + 200 * grain M) (hz : z.isFinite = true)
    (hz' : |value z| ≤ M + 200 * grain M) (hle : value z ≤ value hi + 200 * grain M) :
    (pixelAt z).toInt ≤ (pixelAt (hi + 1e-12 * g)).toInt := by
  obtain ⟨hf, hlow, hhigh⟩ := slack_bounds hM0 hM hg hv
  rw [errors_eq] at hhi' hz' hle
  obtain ⟨hhi1, hhi2⟩ := abs_le.mp hhi'
  obtain ⟨hz1, hz2⟩ := abs_le.mp hz'
  have hh := halfLeast_le
  have hh0 := halfLeast_pos
  have hsum : |value hi + value (1e-12 * g)| ≤ 2 * M + 2000 * halfLeast := abs_le.mpr ⟨by linarith, by linarith⟩
  have hround := add_rounded hhi hf (by
    calc |value hi + value (1e-12 * g)| ≤ 4 * scaleLimit := by linarith [two_pow_le_scaleLimit]
      _ < 2 ^ (1023 : Int) := scaleLimit_lt)
  have herr := abs_le.mp hround.error
  refine pixelAt_le hz hround.finite ?_
  rcases le_or_gt M (1 / 4) with hsmall | hbig
  · exact .inr ⟨abs_lt.mpr ⟨by linarith, by linarith⟩, abs_lt.mpr ⟨by linarith, by linarith⟩⟩
  · exact .inl (by linarith)

end

end VectorRaster
