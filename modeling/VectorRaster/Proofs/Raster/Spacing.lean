/-
  VectorRaster.Proofs.Raster.Spacing — how far neighbouring stamps of a stroke are apart.

  A stroke takes as many steps as its bounding box has pixels, but no more than the surface has,
  and the steps are equal in position, not in length. So an outline may have gaps: where a box is
  flat and the curve is fast or starts between pixels, and where the surface is small.

  Proved: the pixels of neighbouring samples are no further apart than the curve moves in a
  step, one pixel for rounding, and a little for doubles (`sample_apart`). Where that is less
  than two pixels, the stamps touch. It is for a curve that asks for no more steps than the
  surface allows, if its box is wide in both directions (`spacing_lt_one_of_wide`); and lines
  between whole coordinates have no gap either (`line_apart`). Both cells are in the border.
-/

import VectorRaster.Proofs.Geometry.SampleCount
import VectorRaster.Proofs.Raster.Marks

namespace VectorRaster

open Numeric

namespace Curve

/-! ## Steps of the curve -/

/-- The greatest step between neighbours. -/
def greatestStep (xs : List ℚ) : ℚ := (xs.zipWith (fun p q => |q - p|) xs.tail).foldl max 0

/-- The greatest magnitude of some numbers. -/
def magnitude (xs : List ℚ) : ℚ := (xs.map fun x => |x|).foldl max 0

/-- What a curve moves at most in one of `n` steps. -/
def travel (n : Nat) (xs : List ℚ) : ℚ := (xs.length - 1 : ℕ) * greatestStep xs / n

/-- What a curve moves at most in a step, and what two samples are off by. -/
def spacing (n : Nat) (xs : List ℚ) : ℚ := travel n xs + (1 + magnitude xs) / 2 ^ 40

theorem steps_greatestStep (xs : List ℚ) : Bezier.Steps (greatestStep xs) xs := by
  intro i hi
  refine (foldl_max_spec 0 (xs.zipWith (fun p q => |q - p|) xs.tail)).1 _ (List.mem_cons_of_mem _ ?_)
  rw [List.mem_iff_getElem]
  exact ⟨i, by simp; omega, by simp⟩

theorem greatestStep_le_extent {xs : List ℚ} (hne : xs ≠ []) : greatestStep xs ≤ extent xs := by
  rcases List.mem_cons.mp (foldl_max_spec 0 (xs.zipWith (fun p q => |q - p|) xs.tail)).2 with h | h
  · exact h.le.trans (extent_nonneg hne)
  · obtain ⟨i, hi, he⟩ := List.mem_iff_getElem.mp h
    rw [List.getElem_zipWith, List.getElem_tail] at he
    exact he.ge.trans (abs_sub_le_extent (List.getElem_mem _) (List.getElem_mem _))

theorem abs_le_magnitude {xs : List ℚ} {x : ℚ} (hx : x ∈ xs) : |x| ≤ magnitude xs :=
  (foldl_max_spec 0 (xs.map fun x => |x|)).1 _ (List.mem_cons_of_mem _ (List.mem_map_of_mem hx))

theorem magnitude_nonneg (xs : List ℚ) : 0 ≤ magnitude xs :=
  (foldl_max_spec 0 (xs.map fun x => |x|)).1 0 (List.mem_cons_self ..)

theorem magnitude_le {xs : List ℚ} {M : ℚ} (h0 : 0 ≤ M) (h : ∀ x ∈ xs, |x| ≤ M) : magnitude xs ≤ M := by
  rcases List.mem_cons.mp (foldl_max_spec 0 (xs.map fun x => |x|)).2 with he | he
  · exact he.trans_le h0
  · obtain ⟨x, hx, hv⟩ := List.mem_map.mp he
    exact hv.ge.trans (h x hx)

/-! ## Samples along one axis -/

/-- One coordinate of the sample at step `i` of `n`. -/
def sampleAt (c : Point Float → Float) (piece : Primitive Float) (n i : Nat) : Float :=
  weighted c (position n i) (terms .forCurves piece.controlPoints) 0.0

/-- The exact control numbers of one coordinate. -/
def controls (c : Point Float → Float) (piece : Primitive Float) : List ℚ := piece.controlPoints.map fun p => value (c p)

theorem controls_ne_nil (c : Point Float → Float) (piece : Primitive Float) : controls c piece ≠ [] := by
  simpa [controls] using (length_controlPoints piece).2

section

variable {c : Point Float → Float} {piece : Primitive Float} {n i : Nat}

theorem sampleAt_near (hfinite : ∀ p ∈ piece.controlPoints, (c p).isFinite = true)
    (hlimit : magnitude (controls c piece) ≤ scaleLimit) (h1 : 1 ≤ n) (h2 : n < 2 ^ 64) (hi : i ≤ n) :
    Near (sampleAt c piece n i) (Bezier.bezier (controls c piece) (i / n))
      (sampleError * grain (magnitude (controls c piece))) := by
  obtain ⟨hposition, h0, hone⟩ := position_spec h1 h2 hi
  exact sample_near hlimit (magnitude_nonneg _) hposition h0 hone piece fun p hp =>
    ⟨hfinite p hp, abs_le_magnitude (List.mem_map_of_mem hp)⟩

theorem sampleError_grain_le {M : ℚ} (h0 : 0 ≤ M) : 2 * (sampleError * grain M) ≤ (1 + M) / 2 ^ 40 := by
  unfold sampleError weightError grain
  linarith [halfLeast_le]

theorem bezier_step_le (h1 : 1 ≤ n) (hi : i + 1 ≤ n) {xs : List ℚ} (hne : xs ≠ []) :
    |Bezier.bezier xs (i / n) - Bezier.bezier xs ((i + 1 : ℕ) / n)| ≤ travel n xs := by
  have hn : (0 : ℚ) < n := by exact_mod_cast h1
  have hposition : ∀ j : Nat, j ≤ n → (0 : ℚ) ≤ j / n ∧ (j : ℚ) / n ≤ 1 := fun j hj =>
    ⟨by positivity, (div_le_one hn).mpr (by exact_mod_cast hj)⟩
  have hstep : |(i : ℚ) / n - (i + 1 : ℕ) / n| = 1 / n := by
    rw [← sub_div, abs_div, abs_of_pos hn]
    push_cast
    rw [sub_add_cancel_left, abs_neg, abs_one]
  have h := Bezier.abs_bezier_sub_le hne (steps_greatestStep xs) (hposition i (by omega)) (hposition (i + 1) hi)
  rw [hstep] at h
  unfold travel
  exact h.trans_eq (by ring)

/-- The pixels of neighbouring samples are no further apart than the curve moves, and one. -/
theorem sample_apart (hfinite : ∀ p ∈ piece.controlPoints, (c p).isFinite = true) (h1 : 1 ≤ n) (h2 : n < 2 ^ 64)
    (hi : i + 1 ≤ n) :
    |((pixelAt (sampleAt c piece n i)).toInt - (pixelAt (sampleAt c piece n (i + 1))).toInt : ℚ)|
      ≤ 1 + spacing n (controls c piece) := by
  have hM := magnitude_nonneg (controls c piece)
  have hstep := bezier_step_le h1 hi (controls_ne_nil c piece)
  have hstep0 := (abs_nonneg _).trans hstep
  unfold spacing
  rcases le_or_gt (magnitude (controls c piece)) scaleLimit with hlimit | hhuge
  · have hp := sampleAt_near hfinite hlimit h1 h2 (by omega : i ≤ n)
    have hq := sampleAt_near hfinite hlimit h1 h2 hi
    have hpixels := pixelAt_apart hp.finite hq.finite
    have herror := sampleError_grain_le hM
    have hperr := abs_le.mp hp.error
    have hqerr := abs_le.mp hq.error
    have hcurve := abs_le.mp hstep
    have hvalues : |value (sampleAt c piece n i) - value (sampleAt c piece n (i + 1))|
        ≤ travel n (controls c piece) + (1 + magnitude (controls c piece)) / 2 ^ 40 :=
      abs_le.mpr ⟨by linarith, by linarith⟩
    linarith
  · -- there the claim is empty: no two words are that far apart
    have hword : ∀ x : Int64, |(x.toInt : ℚ)| ≤ 2 ^ 63 := fun x => by
      have h := abs_le.mpr ⟨x.le_toInt, x.toInt_lt.le⟩
      exact_mod_cast h
    have hp := abs_le.mp (hword (pixelAt (sampleAt c piece n i)))
    have hq := abs_le.mp (hword (pixelAt (sampleAt c piece n (i + 1))))
    have hlimit := two_pow_le_scaleLimit
    rw [abs_le]
    constructor <;> linarith

/-- A piece whose box is wide moves less than a pixel in a step. -/
theorem spacing_lt_one_of_wide {xs : List ℚ} {H : ℚ} {j k : Nat} (hlen : xs.length ≤ 4) (hne : xs ≠ [])
    (hsize : ∀ x ∈ xs, |x| ≤ sizeLimit) (hwide : xs.length ≤ extent xs) (hH : xs.length ≤ H)
    (hj : |j - extent xs| ≤ 1 / 2 + sideError) (hk : |k - H| ≤ 1 / 2 + sideError) :
    spacing (max j 1 * max k 1) xs < 1 := by
  have hpos := List.length_pos_iff.mpr hne
  have hdegree : ((xs.length - 1 : ℕ) : ℚ) + 1 = xs.length := by exact_mod_cast Nat.sub_add_cancel hpos
  have hspeed := speed_of_wide (d := xs.length - 1) (by omega) (by rwa [hdegree]) (by rwa [hdegree]) hj hk
  have hn : (0 : ℚ) < (max j 1 * max k 1 : ℕ) := by
    exact_mod_cast Nat.mul_pos (Nat.lt_of_lt_of_le Nat.one_pos (Nat.le_max_right ..))
      (Nat.lt_of_lt_of_le Nat.one_pos (Nat.le_max_right ..))
  have hstep := mul_le_mul_of_nonneg_left (greatestStep_le_extent hne) (Nat.cast_nonneg (α := ℚ) (xs.length - 1))
  have hle : (xs.length - 1 : ℕ) * greatestStep xs / (max j 1 * max k 1 : ℕ) ≤ 63 / 64 := by
    rw [div_le_iff₀ hn]
    linarith
  have hM : magnitude xs ≤ 2 ^ 30 := magnitude_le (by norm_num) hsize
  unfold spacing travel
  linarith

/-! ## Lines between whole coordinates -/

theorem line_spec {p q : Point Float} {a b : Int} (hp : (c p).isFinite = true) (hq : (c q).isFinite = true)
    (ha : value (c p) = a) (hb : value (c q) = b) (hsize : |(a : ℚ)| ≤ sizeLimit ∧ |(b : ℚ)| ≤ sizeLimit) :
    (∀ r ∈ (Primitive.line p q).controlPoints, (c r).isFinite = true) ∧
      controls c (.line p q) = [(a : ℚ), b] ∧ magnitude (controls c (.line p q)) ≤ 2 ^ 30 := by
  have hcontrols : controls c (.line p q) = [(a : ℚ), b] := by
    rw [← ha, ← hb]
    rfl
  refine ⟨?_, hcontrols, magnitude_le (by norm_num) ?_⟩
  · simp [Primitive.controlPoints, hp, hq]
  · rw [hcontrols, List.forall_mem_cons, List.forall_mem_singleton]
    exact hsize

/-- A line with as many steps as it is long takes one pixel after the other. -/
theorem line_apart {p q : Point Float} {a b : Int} (hp : (c p).isFinite = true) (hq : (c q).isFinite = true)
    (ha : value (c p) = a) (hb : value (c q) = b) (hsize : |(a : ℚ)| ≤ sizeLimit ∧ |(b : ℚ)| ≤ sizeLimit)
    (h1 : 1 ≤ n) (h2 : n < 2 ^ 64) (hi : i + 1 ≤ n) (hlen : (n : Int) = |b - a|) :
    |((pixelAt (sampleAt c (.line p q) n i)).toInt - (pixelAt (sampleAt c (.line p q) n (i + 1))).toInt : ℚ)| < 2 := by
  have hn : (0 : ℚ) < n := by exact_mod_cast h1
  obtain ⟨hfinite, hcontrols, hM⟩ := line_spec hp hq ha hb hsize
  obtain ⟨s, hs, hab⟩ : ∃ s : Int, |s| = 1 ∧ b = a + s * n := by
    rcases abs_choice (b - a) with h | h
    · exact ⟨1, rfl, by omega⟩
    · exact ⟨-1, rfl, by omega⟩
  have hpixel : ∀ j ≤ n, (pixelAt (sampleAt c (.line p q) n j)).toInt = clampWord (a + s * j) := by
    intro j hj
    have hnear := sampleAt_near hfinite (hM.trans (le_trans (by norm_num) two_pow_le_scaleLimit)) h1 h2 hj
    have herror := sampleError_grain_le (magnitude_nonneg (controls c (.line p q)))
    refine pixelAt_of_near hnear.finite ?_
    have hexact : Bezier.bezier (controls c (.line p q)) (j / n) = ((a + s * j : Int) : ℚ) := by
      rw [hcontrols, Bezier.bezier_line, hab]
      push_cast
      field_simp
      ring
    rw [← hexact]
    linarith [hnear.error]
  have hle : |(clampWord (a + s * i) - clampWord (a + s * (i + 1 : ℕ)))| ≤ 1 := by
    refine (abs_clampWord_sub_le _ _).trans (le_of_eq ?_)
    rw [← hs, ← abs_neg s]
    congr 1
    push_cast
    ring
  rw [hpixel i (by omega), hpixel (i + 1) hi]
  exact lt_of_le_of_lt (by exact_mod_cast hle) one_lt_two

/-- Along one axis of a line between whole coordinates, with the steps that its box asks for. -/
theorem whole_line_apart {p q : Point Float} {a b : Int} {K : Nat} (hp : (c p).isFinite = true)
    (hq : (c q).isFinite = true) (ha : value (c p) = a) (hb : value (c q) = b) (hsize : |(a : ℚ)| ≤ sizeLimit ∧ |(b : ℚ)| ≤ sizeLimit)
    (h1 : 1 ≤ n) (h2 : n < 2 ^ 64) (hi : i + 1 ≤ n) (hlen : n = max (b - a).natAbs 1 * max K 1) :
    |((pixelAt (sampleAt c (.line p q) n i)).toInt - (pixelAt (sampleAt c (.line p q) n (i + 1))).toInt : ℚ)| < 2 := by
  have hcases : 2 * (b - a).natAbs ≤ n ∨ n = (b - a).natAbs := by
    rcases Nat.lt_or_ge 1 K with hK | hK
    · left
      have := Nat.mul_le_mul (Nat.le_max_left (b - a).natAbs 1) (Nat.le_trans hK (Nat.le_max_left K 1))
      omega
    · rw [Nat.max_eq_right hK, Nat.mul_one] at hlen
      omega
  rcases hcases with hslow | hexact
  · obtain ⟨hfinite, hcontrols, hM⟩ := line_spec hp hq ha hb hsize
    have hn : (0 : ℚ) < n := by exact_mod_cast h1
    have htravel : travel n (controls c (.line p q)) ≤ 1 / 2 := by
      have hstep : travel n (controls c (.line p q)) = ((b - a).natAbs : ℚ) / n := by
        rw [hcontrols, Nat.cast_natAbs]
        simp [travel, greatestStep]
      have hslow : (2 : ℚ) * (b - a).natAbs ≤ n := by exact_mod_cast hslow
      rw [hstep, div_le_iff₀ hn]
      linarith
    refine lt_of_le_of_lt (sample_apart hfinite h1 h2 hi) ?_
    unfold spacing
    linarith
  · exact line_apart hp hq ha hb hsize h1 h2 hi (by rw [hexact, Int.abs_eq_natAbs])

end

theorem side_of_whole {j N : Nat} (h : |(j : ℚ) - N| ≤ 1 / 2 + sideError) : j = N := by
  have hlt : |((j - N : Int) : ℚ)| < 1 := by
    unfold sideError at h
    push_cast
    linarith
  have : (j - N : Int) = 0 := Int.abs_lt_one_iff.mp (by exact_mod_cast hlt)
  omega

theorem extent_pair (a b : Int) : extent [(a : ℚ), b] = ((b - a).natAbs : ℚ) := by
  rw [Nat.cast_natAbs, Int.cast_abs, Int.cast_sub, ← max_sub_min_eq_abs]
  rfl

end Curve

/-! ## Stamps -/

/-- The cells are one, or neighbours, corners included. -/
structure Cell.Touches (c d : Cell) : Prop where
  x : c.x ≤ d.x + 1 ∧ d.x ≤ c.x + 1
  y : c.y ≤ d.y + 1 ∧ d.y ≤ c.y + 1

instance (c d : Cell) : Decidable (c.Touches d) :=
  decidable_of_iff ((c.x ≤ d.x + 1 ∧ d.x ≤ c.x + 1) ∧ (c.y ≤ d.y + 1 ∧ d.y ≤ c.y + 1))
    ⟨fun ⟨hx, hy⟩ => ⟨hx, hy⟩, fun ⟨hx, hy⟩ => ⟨hx, hy⟩⟩

theorem Cell.touches_of_apart {c d : Cell} (hx : |(c.x - d.x : ℚ)| < 2) (hy : |(c.y - d.y : ℚ)| < 2) : c.Touches d := by
  have hword : ∀ {m n : Nat}, |(m - n : ℚ)| < 2 → m ≤ n + 1 ∧ n ≤ m + 1 := by
    intro m n h
    have h : |(m - n : Int)| < 2 := by exact_mod_cast h
    rw [Int.abs_eq_natAbs] at h
    omega
  exact ⟨hword hx, hword hy⟩

namespace Primitive

/-- All coordinates of the control points are finite. -/
def IsFinite (piece : Primitive Float) : Prop := ∀ p ∈ piece.controlPoints, p.x.isFinite = true ∧ p.y.isFinite = true

/-- No coordinate is greater than the size limit. -/
def IsModerate (piece : Primitive Float) : Prop :=
  ∀ p ∈ piece.controlPoints, |value p.x| ≤ Curve.sizeLimit ∧ |value p.y| ≤ Curve.sizeLimit

/-- The box is at least as wide and as high, in pixels, as there are control points. -/
def IsWide (piece : Primitive Float) : Prop :=
  piece.controlPoints.length ≤ Curve.extent (Curve.controls Point.x piece) ∧
    piece.controlPoints.length ≤ Curve.extent (Curve.controls Point.y piece)

/-- A line whose ends have whole coordinates. -/
def IsWholeLine (piece : Primitive Float) : Prop :=
  piece.controlPoints.length = 2 ∧ ∀ p ∈ piece.controlPoints, (value p.x).den = 1 ∧ (value p.y).den = 1

instance (piece : Primitive Float) : Decidable piece.IsFinite := inferInstanceAs (Decidable (∀ _ ∈ _, _))

instance (piece : Primitive Float) : Decidable piece.IsModerate := inferInstanceAs (Decidable (∀ _ ∈ _, _))

instance (piece : Primitive Float) : Decidable piece.IsWide := inferInstanceAs (Decidable (_ ∧ _))

instance (piece : Primitive Float) : Decidable piece.IsWholeLine := inferInstanceAs (Decidable (_ ∧ _))

end Primitive

namespace Brush

/-- The stamp `i` of a piece is at a cell of the surface. -/
def StampedAt (b : Brush) (frame : Frame) (piece : Primitive Float) (i : Nat) (c : Cell) : Prop :=
  ∃ g, (b.stamps frame piece.controlPoints)[i]? = some g ∧ g.cell? frame.width frame.height = some c

section

variable {b : Brush} {frame : Frame} {piece : Primitive Float} {i : Nat} {c d : Cell}

theorem StampedAt.spec (h : b.StampedAt frame piece i c) :
    i ≤ b.stepCount frame piece.controlPoints ∧
      (c.x : Int) = (pixelAt (Curve.sampleAt Point.x piece (b.stepCount frame piece.controlPoints) i)).toInt ∧
      (c.y : Int) = (pixelAt (Curve.sampleAt Point.y piece (b.stepCount frame piece.controlPoints) i)).toInt := by
  obtain ⟨g, hg, hc⟩ := h
  obtain ⟨hx, hy⟩ := GridPoint.toInt_of_cell? hc
  unfold stamps at hg
  rw [List.getElem?_map, Option.map_eq_some_iff] at hg
  obtain ⟨j, hj, rfl⟩ := hg
  obtain ⟨hlt, hj⟩ := List.getElem?_eq_some_iff.mp hj
  rw [List.getElem_range] at hj
  subst hj
  rw [List.length_range] at hlt
  rw [Curve.evaluate_eq] at hx hy
  exact ⟨by omega, hx.symm, hy.symm⟩

/-- Along one axis, cells of neighbouring stamps are no further apart than their samples. -/
theorem StampedAt.apart (hfinite : piece.IsFinite) (hc : b.StampedAt frame piece i c)
    (hd : b.StampedAt frame piece (i + 1) d) :
    |(c.x - d.x : ℚ)| ≤ 1 + Curve.spacing (b.stepCount frame piece.controlPoints) (Curve.controls Point.x piece) ∧
      |(c.y - d.y : ℚ)| ≤ 1 + Curve.spacing (b.stepCount frame piece.controlPoints) (Curve.controls Point.y piece) := by
  obtain ⟨h1, h2⟩ := b.stepCount_spec frame piece.controlPoints
  obtain ⟨-, hcx, hcy⟩ := hc.spec
  obtain ⟨hi, hdx, hdy⟩ := hd.spec
  have hx := Curve.sample_apart (c := Point.x) (fun p hp => (hfinite p hp).1) h1 h2 hi
  have hy := Curve.sample_apart (c := Point.y) (fun p hp => (hfinite p hp).2) h1 h2 hi
  rw [← hcx, ← hdx] at hx
  rw [← hcy, ← hdy] at hy
  exact ⟨by exact_mod_cast hx, by exact_mod_cast hy⟩

/-- A wide piece with as many steps as its box asks for moves less than a pixel in each. -/
theorem spacing_of_wide (hfinite : piece.IsFinite) (hmoderate : piece.IsModerate) (hwide : piece.IsWide) :
    Curve.spacing (Curve.sampleCount piece.controlPoints) (Curve.controls Point.x piece) < 1 ∧
      Curve.spacing (Curve.sampleCount piece.controlPoints) (Curve.controls Point.y piece) < 1 := by
  obtain ⟨hlen, hne⟩ := Curve.length_controlPoints piece
  obtain ⟨j, k, hcount, hj, hk⟩ := Curve.sampleCount_spec hne hfinite hmoderate
  have hlength : ∀ c : Point Float → Float, (Curve.controls c piece).length = piece.controlPoints.length := fun c => by
    rw [Curve.controls, List.length_map]
  have hsize : ∀ c : Point Float → Float, (∀ p ∈ piece.controlPoints, |value (c p)| ≤ Curve.sizeLimit) →
      ∀ x ∈ Curve.controls c piece, |x| ≤ Curve.sizeLimit := by
    intro c hc x hx
    obtain ⟨p, hp, rfl⟩ := List.mem_map.mp hx
    exact hc p hp
  rw [hcount]
  constructor
  · exact Curve.spacing_lt_one_of_wide (by rwa [hlength]) (Curve.controls_ne_nil Point.x piece)
      (hsize Point.x fun p hp => (hmoderate p hp).1) (by rw [hlength]; exact hwide.1)
      (by rw [hlength]; exact hwide.2) hj hk
  · rw [Nat.mul_comm]
    exact Curve.spacing_lt_one_of_wide (by rwa [hlength]) (Curve.controls_ne_nil Point.y piece)
      (hsize Point.y fun p hp => (hmoderate p hp).2) (by rw [hlength]; exact hwide.2)
      (by rw [hlength]; exact hwide.1) hk hj

/-- A line between whole coordinates with as many steps as its box asks for has no gap. -/
theorem StampedAt.apart_of_wholeLine (hfinite : piece.IsFinite) (hmoderate : piece.IsModerate)
    (hwhole : piece.IsWholeLine)
    (hcount : b.stepCount frame piece.controlPoints = Curve.sampleCount piece.controlPoints)
    (hc : b.StampedAt frame piece i c) (hd : b.StampedAt frame piece (i + 1) d) :
    |(c.x - d.x : ℚ)| < 2 ∧ |(c.y - d.y : ℚ)| < 2 := by
  obtain ⟨hlen, hwhole⟩ := hwhole
  obtain ⟨-, hne⟩ := Curve.length_controlPoints piece
  obtain ⟨j, k, hsteps, hj, hk⟩ := Curve.sampleCount_spec hne hfinite hmoderate
  obtain ⟨h1, h2⟩ := b.stepCount_spec frame piece.controlPoints
  obtain ⟨-, hcx, hcy⟩ := hc.spec
  obtain ⟨hi, hdx, hdy⟩ := hd.spec
  rw [hcount] at h1 h2 hcx hcy hi hdx hdy
  rw [hsteps] at h1 h2 hcx hcy hi hdx hdy
  cases piece with
  | quadratic p q r => simp [Primitive.controlPoints] at hlen
  | cubic p q r s => simp [Primitive.controlPoints] at hlen
  | line p q =>
    obtain ⟨hfp, hfq⟩ : (p.x.isFinite = true ∧ p.y.isFinite = true) ∧ q.x.isFinite = true ∧ q.y.isFinite = true := by
      simpa [Primitive.IsFinite, Primitive.controlPoints] using hfinite
    have hvalues : ∀ r ∈ (Primitive.line p q).controlPoints, ∃ j k : Int, value r.x = j ∧ value r.y = k := fun r hr =>
      ⟨_, _, (Rat.coe_int_num_of_den_eq_one (hwhole r hr).1).symm, (Rat.coe_int_num_of_den_eq_one (hwhole r hr).2).symm⟩
    obtain ⟨a, e, ha, he⟩ := hvalues p (by simp [Primitive.controlPoints])
    obtain ⟨a', e', ha', he'⟩ := hvalues q (by simp [Primitive.controlPoints])
    have hp := hmoderate p (by simp [Primitive.controlPoints])
    have hq := hmoderate q (by simp [Primitive.controlPoints])
    rw [ha, he] at hp
    rw [ha', he'] at hq
    -- both sides of the box are exact
    have hextents : (Primitive.line p q).controlPoints.map (fun p => value p.x) = [(a : ℚ), a'] ∧
        (Primitive.line p q).controlPoints.map (fun p => value p.y) = [(e : ℚ), e'] := by
      rw [← ha, ← he, ← ha', ← he']
      exact ⟨rfl, rfl⟩
    rw [hextents.1, Curve.extent_pair] at hj
    rw [hextents.2, Curve.extent_pair] at hk
    cases Curve.side_of_whole hj
    cases Curve.side_of_whole hk
    have hx := Curve.whole_line_apart (c := Point.x) hfp.1 hfq.1 ha ha' ⟨hp.1, hq.1⟩ h1 h2 hi rfl
    have hy := Curve.whole_line_apart (c := Point.y) hfp.2 hfq.2 he he' ⟨hp.2, hq.2⟩ h1 h2 hi (Nat.mul_comm ..)
    rw [← hcx, ← hdx] at hx
    rw [← hcy, ← hdy] at hy
    exact ⟨by exact_mod_cast hx, by exact_mod_cast hy⟩

end

theorem StampedAt.isBorder {b : Brush} {canvas : Canvas} {piece : Primitive Float} {i : Nat} {c : Cell}
    (h : b.StampedAt canvas.frame piece i c) (hcanvas : canvas.Matched) :
    (b.drawPiece canvas piece).border.isBorder c = true := by
  obtain ⟨g, hg, hcell⟩ := h
  exact isBorder_drawPiece hcanvas (List.mem_of_getElem? hg) hcell

/-- The stamps `i` and `i + 1` are both on the surface, and there is a gap between them. -/
def LeavesGap (b : Brush) (frame : Frame) (piece : Primitive Float) (i : Nat) : Prop :=
  ∃ c d, b.StampedAt frame piece i c ∧ b.StampedAt frame piece (i + 1) d ∧ ¬ c.Touches d

/-- A line between pixels, a fast curve in a flat box, and a line far off a small surface leave gaps;
the mask of the first is open there. -/
theorem outlines_with_gaps :
    LeavesGap ⟨none, 0⟩ (.blank 3 1) (.line ⟨0.25, 0.0⟩ ⟨1.625, 0.0⟩) 0 ∧
      LeavesGap ⟨none, 0⟩ (.blank 11 1) (.cubic ⟨0.0, 0.0⟩ ⟨10.0, 0.0⟩ ⟨0.0, 0.0⟩ ⟨10.0, 0.0⟩) 0 ∧
      LeavesGap ⟨none, 0⟩ (.blank 3 1) (.line ⟨0.0, 0.0⟩ ⟨16.0, 0.0⟩) 0 ∧
      (drawPiece ⟨none, 0⟩ ⟨.blank 3 1, .blank 3 1⟩
        (.line ⟨0.25, 0.0⟩ ⟨1.625, 0.0⟩ : Primitive Float)).border.cells = #[true, false, true] := by
  -- the first two stamps of each are at 0 and 2
  refine ⟨?_, ?_, ?_, by decide +kernel⟩ <;>
    exact ⟨⟨0, 0⟩, ⟨2, 0⟩, ⟨⟨0, 0⟩, by decide +kernel, by decide +kernel⟩,
      ⟨⟨2, 0⟩, by decide +kernel, by decide +kernel⟩, by decide⟩

/-- Cells of neighbouring stamps are no further apart than a step of the curve, rounding, and doubles
allow. They touch where that is less than two pixels; also where the surface allows the steps that
the box asks for, and the box is wide or the piece a line between whole coordinates. A border of the
frame's size has both. -/
theorem neighbouring_stamps (b : Brush) (canvas : Canvas) (piece : Primitive Float) (hfinite : piece.IsFinite)
    {i : Nat} {c d : Cell} (hc : b.StampedAt canvas.frame piece i c)
    (hd : b.StampedAt canvas.frame piece (i + 1) d) :
    let n := b.stepCount canvas.frame piece.controlPoints
    let gapX := Curve.spacing n (Curve.controls Point.x piece)
    let gapY := Curve.spacing n (Curve.controls Point.y piece)
    (|(c.x - d.x : ℚ)| ≤ 1 + gapX ∧ |(c.y - d.y : ℚ)| ≤ 1 + gapY) ∧
      (gapX < 1 → gapY < 1 → c.Touches d) ∧
      (Curve.sampleCount piece.controlPoints ≤ Curve.sampleLimit canvas.frame.width canvas.frame.height b.radius →
        piece.IsModerate → piece.IsWide ∨ piece.IsWholeLine → c.Touches d) ∧
      (canvas.Matched → (b.drawPiece canvas piece).border.isBorder c = true ∧
        (b.drawPiece canvas piece).border.isBorder d = true) := by
  intro n gapX gapY
  obtain ⟨hx, hy⟩ := hc.apart hfinite hd
  have htouches : gapX < 1 → gapY < 1 → c.Touches d := fun hgapX hgapY =>
    Cell.touches_of_apart (lt_of_le_of_lt hx (by linarith)) (lt_of_le_of_lt hy (by linarith))
  refine ⟨⟨hx, hy⟩, htouches, fun hlimit hmoderate hshape => ?_, fun hcanvas => ⟨hc.isBorder hcanvas, hd.isBorder hcanvas⟩⟩
  have hcount : n = Curve.sampleCount piece.controlPoints := Nat.min_eq_left hlimit
  rcases hshape with hwide | hwhole
  · obtain ⟨hgapX, hgapY⟩ := spacing_of_wide hfinite hmoderate hwide
    rw [← hcount] at hgapX hgapY
    exact htouches hgapX hgapY
  · obtain ⟨hx, hy⟩ := hc.apart_of_wholeLine hfinite hmoderate hwhole hcount hd
    exact Cell.touches_of_apart hx hy

/-- A wide curve and a line between whole coordinates. -/
theorem neighbouring_stamps_curve_line :
    ((⟨0, 0⟩ : Cell).Touches ⟨0, 1⟩ ∧
      (drawPiece ⟨none, 0⟩ ⟨.blank 5 5, .blank 5 5⟩
        (.quadratic ⟨0.0, 0.0⟩ ⟨1.0, 4.0⟩ ⟨4.0, 4.0⟩ : Primitive Float)).border.isBorder ⟨0, 1⟩ = true) ∧
      (⟨1, 0⟩ : Cell).Touches ⟨2, 1⟩ := by
  constructor
  · have h := neighbouring_stamps ⟨none, 0⟩ ⟨.blank 5 5, .blank 5 5⟩ (.quadratic ⟨0.0, 0.0⟩ ⟨1.0, 4.0⟩ ⟨4.0, 4.0⟩)
      (by decide +kernel) (i := 1) (c := ⟨0, 0⟩) (d := ⟨0, 1⟩)
      ⟨⟨0, 0⟩, by decide +kernel, by decide +kernel⟩ ⟨⟨0, 1⟩, by decide +kernel, by decide +kernel⟩
    have hcanvas : Canvas.Matched ⟨.blank 5 5, .blank 5 5⟩ := ⟨rfl, rfl, rfl⟩
    exact ⟨h.2.2.1 (by decide +kernel) (by decide +kernel) (.inl (by decide +kernel)), (h.2.2.2 hcanvas).2⟩
  · have h := neighbouring_stamps ⟨none, 0⟩ ⟨.blank 5 5, .blank 5 5⟩ (.line ⟨0.0, 0.0⟩ ⟨3.0, 1.0⟩)
      (by decide +kernel) (i := 1) (c := ⟨1, 0⟩) (d := ⟨2, 1⟩)
      ⟨⟨1, 0⟩, by decide +kernel, by decide +kernel⟩ ⟨⟨2, 1⟩, by decide +kernel, by decide +kernel⟩
    exact h.2.2.1 (by decide +kernel) (by decide +kernel) (.inr (by decide +kernel))

end Brush

end VectorRaster
