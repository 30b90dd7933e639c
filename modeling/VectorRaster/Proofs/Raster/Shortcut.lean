/-
  VectorRaster.Proofs.Raster.Shortcut — drawing an outline gives what its samples give.

  A stretch of a curve that is marked once instead of sample by sample leaves the same canvas:
  its box holds every sample's pixel (`around?_stretch`), so each of these stamps would only
  have marked the one cell. Hence a piece is drawn as by all its stamps (`drawPiece_eq`).
-/

import VectorRaster.Proofs.Geometry.Stretch
import VectorRaster.Proofs.Numeric.Counts
import VectorRaster.Proofs.Raster.Cells
import VectorRaster.Raster.Trace

namespace VectorRaster

open Numeric

/-! ## Tame curves -/

theorem isFinite_of_abs_lt {x y : Float} (hy : y.isFinite = true) (h : x.abs < y) : x.isFinite = true := by
  have hcompare : x.abs.toModel.unpack.compare y.toModel.unpack = some .lt := by
    replace h : decide ((x.abs.toModel.unpack.compare y.toModel.unpack == some .lt) = true) = true := h
    rwa [decide_eq_true_iff, beq_iff_eq] at h
  obtain ⟨hf, -⟩ := fits_of_isFinite hy
  have habs : ∀ f, x.toModel.unpack = f → x.abs.toModel.unpack
      = Float.Model.UnpackedFloat.unpack .binary64 (Float.Model.UnpackedFloat.pack .binary64 f.abs) := by
    rintro f rfl
    rfl
  show x.toModel.unpack.isFinite = true
  cases hx : x.toModel.unpack with
  | zero s => rfl
  | finite s m e hm => rfl
  | notANumber =>
    replace hcompare : Float.Model.UnpackedFloat.notANumber.compare y.toModel.unpack = some .lt := by
      rw [habs _ hx] at hcompare
      exact hcompare
    cases hcompare
  | infinity s =>
    have hpositive : (Float.Model.UnpackedFloat.infinity s).abs = .infinity .positive := rfl
    have hinf : Float.Model.UnpackedFloat.unpack .binary64 (Float.Model.UnpackedFloat.pack .binary64
        (.infinity .positive)) = .infinity .positive := rfl
    rw [habs _ hx, hpositive, hinf] at hcompare
    cases hy' : y.toModel.unpack with
    | infinity t => rw [hy'] at hf; exact hf.elim
    | notANumber => rw [hy'] at hf; exact hf.elim
    | zero t => rw [hy'] at hcompare; cases hcompare
    | finite t m e hm => rw [hy'] at hcompare; cases hcompare

theorem tameLimit_exact : (1e300 : Float).isFinite = true ∧ 4 * value 1e300 ≤ scaleLimit := by
  have hbits : (1e300 : Float) = .ofBits 0x7E37E43C8800759C := by decide +kernel
  rw [hbits]
  have h : (Float.ofBits 0x7E37E43C8800759C).toModel.unpack = .finite .positive 6724873095247260 944 (by decide) := rfl
  refine ⟨rfl, ?_⟩
  rw [value, h, rational_positive]
  calc (4 : ℚ) * ((6724873095247260 : ℕ) * 2 ^ (944 : Int)) ≤ 2 ^ (56 : Int) * 2 ^ (944 : Int) := by
        rw [← mul_assoc]
        exact mul_le_mul_of_nonneg_right (by norm_num) (zpow_pos two_pos _).le
    _ = scaleLimit := by
        rw [← zpow_add₀ two_ne_zero, scaleLimit]
        rfl

namespace Curve

/-- The greatest magnitude of some doubles, as the slack takes it. -/
def greatest (xs : List Float) : Float := (xs.map Float.abs).foldl largerFloat 0.0

theorem slack_eq (points : List (Point Float)) :
    slack points = ⟨1e-12 * greatest (points.map Point.x), 1e-12 * greatest (points.map Point.y)⟩ := rfl

theorem greatest_exact {xs : List Float} (hxs : ∀ x ∈ xs, x.isFinite = true) :
    (greatest xs).isFinite = true ∧ (∀ x ∈ xs, |value x| ≤ value (greatest xs)) ∧
      (value (greatest xs) = 0 ∨ ∃ x ∈ xs, value (greatest xs) = |value x|) := by
  have habs : ∀ y ∈ xs.map Float.abs, y.isFinite = true := by
    intro y hy
    obtain ⟨x, hx, rfl⟩ := List.mem_map.mp hy
    exact (abs_exact (hxs x hx)).1
  obtain ⟨hf, hv⟩ := foldl_larger_exact (x := 0.0) (xs.map Float.abs) habs zero_exact.1
  obtain ⟨hle, hmem⟩ := foldl_max_spec (value 0.0) ((xs.map Float.abs).map value)
  rw [← hv] at hle hmem
  refine ⟨hf, fun x hx => ?_, ?_⟩
  · have := hle (value x.abs) (List.mem_cons_of_mem _ (List.mem_map_of_mem (List.mem_map_of_mem hx)))
    rwa [(abs_exact (hxs x hx)).2] at this
  · rcases List.mem_cons.mp hmem with h | h
    · exact .inl (h.trans zero_exact.2)
    · obtain ⟨y, hy, he⟩ := List.mem_map.mp h
      obtain ⟨x, hx, rfl⟩ := List.mem_map.mp hy
      exact .inr ⟨x, hx, by rw [← (abs_exact (hxs x hx)).2]; exact he.symm⟩

/-- One axis of a tame curve: its numbers are finite, and far from the greatest double. -/
structure TameAxis (c : Point Float → Float) (points : List (Point Float)) : Prop where
  coordinate : IsCoordinate c
  finite : ∀ p ∈ points, (c p).isFinite = true
  size : ∀ p ∈ points, 4 * |value (c p)| ≤ scaleLimit

theorem tameAxis_of_isTame {points : List (Point Float)} (h : isTame points = true) :
    TameAxis Point.x points ∧ TameAxis Point.y points := by
  have hp : ∀ p ∈ points, p.x.abs < 1e300 ∧ p.y.abs < 1e300 := by
    intro p hp
    have := List.all_eq_true.mp h p hp
    rwa [Bool.and_eq_true, decide_eq_true_iff, decide_eq_true_iff] at this
  have hsize : ∀ {x : Float}, x.abs < 1e300 → x.isFinite = true ∧ 4 * |value x| ≤ scaleLimit := by
    intro x hx
    have hf := isFinite_of_abs_lt tameLimit_exact.1 hx
    obtain ⟨ha, hv⟩ := abs_exact hf
    rw [lt_iff ha tameLimit_exact.1, hv] at hx
    exact ⟨hf, by linarith [tameLimit_exact.2]⟩
  exact ⟨⟨isCoordinate_x, fun p h => (hsize (hp p h).1).1, fun p h => (hsize (hp p h).1).2⟩,
    ⟨isCoordinate_y, fun p h => (hsize (hp p h).2).1, fun p h => (hsize (hp p h).2).2⟩⟩

namespace TameAxis

variable {c : Point Float → Float} {points : List (Point Float)}

theorem greatest_spec (h : TameAxis c points) :
    (greatest (points.map c)).isFinite = true ∧ 0 ≤ value (greatest (points.map c)) ∧
      4 * value (greatest (points.map c)) ≤ scaleLimit ∧
      ∀ p ∈ points, (c p).isFinite = true ∧ |value (c p)| ≤ value (greatest (points.map c)) := by
  have hfinite : ∀ x ∈ points.map c, x.isFinite = true := by
    intro x hx
    obtain ⟨p, hp, rfl⟩ := List.mem_map.mp hx
    exact h.finite p hp
  obtain ⟨hf, hle, hor⟩ := greatest_exact hfinite
  refine ⟨hf, ?_, ?_, fun p hp => ⟨h.finite p hp, hle _ (List.mem_map_of_mem hp)⟩⟩
  · rcases hor with h0 | ⟨x, -, hx⟩
    · exact h0.ge
    · exact (abs_nonneg _).trans_eq hx.symm
  · rcases hor with h0 | ⟨x, hx, hv⟩
    · rw [h0, mul_zero]
      exact zero_le_one.trans one_le_scaleLimit
    · obtain ⟨p, hp, rfl⟩ := List.mem_map.mp hx
      rw [hv]
      exact h.size p hp

end TameAxis

/-- The position of a sample between two others, in steps of the stretch. -/
theorem position_between (count : Nat) {first n j : Nat} (hn : 2 ≤ n) (hj : first ≤ j) (hj' : j < first + n) :
    ∃ w : ℚ, 0 ≤ w ∧ w ≤ 1 ∧
      (j : ℚ) / count = first / count * (1 - w) + ((first + n - 1 : ℕ) : ℚ) / count * w := by
  obtain ⟨k, rfl⟩ := Nat.exists_eq_add_of_le hj
  obtain ⟨m, rfl⟩ := Nat.exists_eq_add_of_le hn
  have hlast : first + (2 + m) - 1 = first + (m + 1) := by omega
  have hm : (0 : ℚ) < m + 1 := by positivity
  have hk : (k : ℚ) ≤ m + 1 := by exact_mod_cast (by omega : k ≤ m + 1)
  refine ⟨k / (m + 1), by positivity, (div_le_one hm).mpr hk, ?_⟩
  rw [hlast]
  push_cast
  field_simp
  ring

theorem length_controlPoints (piece : Primitive Float) :
    piece.controlPoints.length ≤ 4 ∧ piece.controlPoints ≠ [] := by
  cases piece <;> simp [Primitive.controlPoints]

theorem position_spec {count i : Nat} (h1 : 1 ≤ count) (h2 : count < 2 ^ 64) (hi : i ≤ count) :
    Near (position count i) (i / count) (1 * grain 1) ∧ (0 : ℚ) ≤ i / count ∧ (i : ℚ) / count ≤ 1 := by
  have hcount : (0 : ℚ) < count := by exact_mod_cast h1
  exact ⟨position_near h1 h2 hi, by positivity, (div_le_one hcount).mpr (by exact_mod_cast hi)⟩

/-- Along one axis the samples of a stretch are between the ends of its box. -/
theorem TameAxis.covers {c : Point Float → Float} {piece : Primitive Float} (h : TameAxis c piece.controlPoints)
    {count first n j : Nat} (h1 : 1 ≤ count) (h2 : count < 2 ^ 64) (hn : 2 ≤ n) (hlast : first + n - 1 ≤ count)
    (hj : first ≤ j) (hj' : j < first + n) {p : Point Float} {ps : List (Point Float)}
    (hps : stretch piece.controlPoints (position count first) (position count (first + n - 1)) = p :: ps) :
    let slack := 1e-12 * greatest (piece.controlPoints.map c)
    let z := weighted c (position count j) (terms .forCurves piece.controlPoints) 0.0
    (pixelAt (minimum (c p) (ps.map c) - slack)).toInt ≤ (pixelAt z).toInt ∧
      (pixelAt z).toInt ≤ (pixelAt (maximum (c p) (ps.map c) + slack)).toInt := by
  obtain ⟨hg, hM0, hM, hpoints⟩ := h.greatest_spec
  generalize hv : value (greatest (piece.controlPoints.map c)) = M at hM0 hM hpoints
  have hs : M ≤ scaleLimit := by linarith
  have hgrain := grain_pos hM0
  obtain ⟨hlen, hne⟩ := length_controlPoints piece
  have hstart := position_spec h1 h2 (by omega : first ≤ count)
  have hend := position_spec h1 h2 hlast
  -- the ends of the box, and the exact curve between them
  obtain ⟨⟨hlo, hlosize⟩, ⟨hhi, hhisize⟩, hbox⟩ := stretch_ends h.coordinate hlen hs hpoints hstart hend hps
  obtain ⟨w, hw0, hw1, hτ⟩ := position_between count hn hj hj'
  obtain ⟨hcurvelo, hcurvehi⟩ := bezier_between h.coordinate hne hlen hs hpoints hstart hend hw0 hw1 hτ hbox
  have hjcount := position_spec h1 h2 (by omega : j ≤ count)
  have hM' : Bezier.Within (-M) M (piece.controlPoints.map fun p => value (c p)) := by
    intro x hx
    obtain ⟨q, hq, rfl⟩ := List.mem_map.mp hx
    exact abs_le.mp (hpoints q hq).2
  have hcurveM := abs_le.mpr (Bezier.bezier_bounds (by simpa using hne) hM' hjcount.2.1 hjcount.2.2)
  -- the sample
  have hsample := sample_near hs hM0 hjcount.1 hjcount.2.1 hjcount.2.2 piece hpoints
  have herr := abs_le.mp hsample.error
  have hz := hsample.abs_value_le
  have hsampleError : sampleError = 152 := by norm_num [sampleError, weightError]
  rw [hsampleError] at herr hz
  unfold stretchError at hcurvelo hcurvehi hlosize hhisize
  constructor
  · exact pixelAt_sub_slack_le hM0 hM hg hv hlo (by linarith) hsample.finite (by linarith) (by linarith)
  · exact le_pixelAt_add_slack hM0 hM hg hv hhi (by linarith) hsample.finite (by linarith) (by linarith)

end Curve

/-! ## Boxes -/

/-- A point is in a box. -/
structure PixelBox.Holds (box : PixelBox) (g : GridPoint) : Prop where
  lowX : box.low.x.toInt ≤ g.x.toInt
  highX : g.x.toInt ≤ box.high.x.toInt
  lowY : box.low.y.toInt ≤ g.y.toInt
  highY : g.y.toInt ≤ box.high.y.toInt

/-- The box of a stretch holds the pixel of each of its samples. -/
theorem PixelBox.around?_stretch {piece : Primitive Float} (h : Curve.isTame piece.controlPoints = true)
    {count first n j : Nat} (h1 : 1 ≤ count) (h2 : count < 2 ^ 64) (hn : 2 ≤ n) (hlast : first + n - 1 ≤ count)
    (hj : first ≤ j) (hj' : j < first + n) {box : PixelBox}
    (hbox : PixelBox.around? (Curve.slack piece.controlPoints)
      (Curve.stretch piece.controlPoints (Curve.position count first) (Curve.position count (first + n - 1))) = some box) :
    box.Holds (.nearest (Curve.sumAt (Curve.terms .forCurves piece.controlPoints) (Curve.position count j))) := by
  obtain ⟨hx, hy⟩ := Curve.tameAxis_of_isTame h
  cases hps : Curve.stretch piece.controlPoints (Curve.position count first) (Curve.position count (first + n - 1)) with
  | nil =>
    rw [hps] at hbox
    cases hbox
  | cons p ps =>
    rw [hps, Curve.slack_eq] at hbox
    cases hbox
    obtain ⟨hlowX, hhighX⟩ := hx.covers h1 h2 hn hlast hj hj' hps
    obtain ⟨hlowY, hhighY⟩ := hy.covers h1 h2 hn hlast hj hj' hps
    rw [Curve.sumAt, Curve.sumFrom_eq]
    exact ⟨hlowX, hhighX, hlowY, hhighY⟩

theorem Canvas.markClamped_eq (canvas : Canvas) (g : GridPoint) :
    canvas.markClamped g = ⟨canvas.frame, canvas.border.markClamped g.x.toInt g.y.toInt⟩ := rfl

theorem Canvas.markClamped_markClamped (canvas : Canvas) (g : GridPoint) :
    (canvas.markClamped g).markClamped g = canvas.markClamped g := by
  rw [Canvas.markClamped_eq, Canvas.markClamped_eq, BorderMask.markClamped_markClamped]

namespace Brush

variable {b : Brush} {canvas : Canvas} {box : PixelBox} {g : GridPoint}

/-! ## Settled stretches -/

theorem misses_of_missesBox {width height : Nat} (h : b.missesBox width height box = true) (hg : box.Holds g) :
    b.misses width height g = true := by
  obtain ⟨hlowX, hhighX, hlowY, hhighY⟩ := hg
  simp only [missesBox, misses, Bool.or_eq_true, decide_eq_true_iff] at h ⊢
  omega

/-- A stamp in a box that settles marks the cell of the box, and does nothing else. -/
theorem stamp_of_settles (h : b.settles canvas box = true) (hg : box.Holds g) :
    b.stamp canvas g = canvas.markClamped box.low := by
  unfold settles at h
  rw [Bool.and_eq_true, Bool.or_eq_true, beq_iff_eq] at h
  obtain ⟨hpaint, hnearest⟩ := h
  have hstamp : b.stamp canvas g = canvas.markClamped g := by
    unfold stamp
    rcases hpaint with hnone | hmiss
    · rw [Option.isNone_iff_eq_none] at hnone
      rw [hnone, ite_self]
    · rw [if_pos (misses_of_missesBox hmiss hg)]
  have hcell : canvas.border.nearest g.x.toInt g.y.toInt = canvas.border.nearest box.low.x.toInt box.low.y.toInt := by
    obtain ⟨hlowX, hhighX, hlowY, hhighY⟩ := hg
    simp only [BorderMask.nearest, Cell.mk.injEq] at hnearest ⊢
    omega
  rw [hstamp, Canvas.markClamped_eq, Canvas.markClamped_eq, BorderMask.markClamped, BorderMask.markClamped, hcell]

theorem settles_markClamped (g : GridPoint) : b.settles (canvas.markClamped g) box = b.settles canvas box := by
  unfold settles BorderMask.nearest
  rw [Canvas.markClamped_eq, BorderMask.width_markClamped, BorderMask.height_markClamped]

/-- All stamps of a settled stretch together leave one mark. -/
theorem foldl_stamp_of_settles (h : b.settles canvas box = true) {gs : List GridPoint} (hne : gs ≠ [])
    (hgs : ∀ g ∈ gs, box.Holds g) : gs.foldl b.stamp canvas = canvas.markClamped box.low := by
  have hmarked : ∀ gs : List GridPoint, (∀ g ∈ gs, box.Holds g) →
      gs.foldl b.stamp (canvas.markClamped box.low) = canvas.markClamped box.low := by
    intro gs hgs
    induction gs with
    | nil => rfl
    | cons g gs ih =>
      rw [List.foldl_cons, stamp_of_settles (by rwa [settles_markClamped]) (hgs g (List.mem_cons_self ..)),
        Canvas.markClamped_markClamped, ih fun g' hg' => hgs g' (List.mem_cons_of_mem _ hg')]
  cases gs with
  | nil => exact (hne rfl).elim
  | cons g gs =>
    rw [List.foldl_cons, stamp_of_settles h (hgs g (List.mem_cons_self ..)),
      hmarked gs fun g' hg' => hgs g' (List.mem_cons_of_mem _ hg')]

/-! ## Pieces -/

theorem stampSamples_add {α : Type} [Scalar α] (b : Brush) (terms : List (Curve.Term α)) (count m n first : Nat)
    (canvas : Canvas) :
    b.stampSamples terms count (m + n) first canvas
      = b.stampSamples terms count n (first + m) (b.stampSamples terms count m first canvas) := by
  rw [stampSamples_eq_foldl, stampSamples_eq_foldl, stampSamples_eq_foldl, ← List.foldl_append, ← List.map_append,
    List.range'_append_1]

/-- A stretch is drawn as by its samples, however often it is halved. -/
theorem drawStretch_eq (b : Brush) {piece : Primitive Float} (h : Curve.isTame piece.controlPoints = true) {count : Nat}
    (h1 : 1 ≤ count) (h2 : count < 2 ^ 64) (depth n first : Nat) (canvas : Canvas) (hle : first + n ≤ count + 1) :
    b.drawStretch piece.controlPoints (Curve.terms .forCurves piece.controlPoints) count depth n first canvas
      = b.stampSamples (Curve.terms .forCurves piece.controlPoints) count n first canvas := by
  induction depth generalizing n first canvas with
  | zero => rfl
  | succ depth ih =>
    unfold drawStretch
    by_cases hshort : n ≤ shortStretch
    · rw [if_pos hshort]
    · rw [if_neg hshort]
      unfold shortStretch at hshort
      dsimp only
      split
      · rename_i box hbox
        obtain ⟨hbox, hsettles⟩ := Option.filter_eq_some_iff.mp hbox
        rw [stampSamples_eq_foldl]
        refine (foldl_stamp_of_settles hsettles ?_ ?_).symm
        · rw [ne_eq, List.map_eq_nil_iff, List.range'_eq_nil_iff]
          omega
        · intro g hg
          obtain ⟨j, hj, rfl⟩ := List.mem_map.mp hg
          obtain ⟨hj, hj'⟩ := List.mem_range'_1.mp hj
          exact PixelBox.around?_stretch h h1 h2 (by omega) (by omega) hj hj' hbox
      · rw [ih _ _ _ (by omega), ih _ _ _ (by omega), ← stampSamples_add, Nat.add_sub_cancel' (by omega)]

/-- There is a step at least, and the steps can be counted in words. -/
theorem stepCount_spec {α : Type} [Scalar α] (b : Brush) (frame : Frame) (points : List (Point α)) :
    1 ≤ b.stepCount frame points ∧ b.stepCount frame points < 2 ^ 64 := by
  have hlimit : 1 ≤ Curve.sampleLimit frame.width frame.height b.radius := by
    have hmargin : 1 ≤ Word.capped (Word.capped (b.radius * 2) + 1) := Word.one_le_capped (Nat.le_add_left ..)
    exact Word.one_le_capped (Nat.mul_pos (Word.one_le_capped (by omega)) (Word.one_le_capped (by omega)))
  have hcount : 1 ≤ Curve.sampleCount points := by
    cases points with
    | nil => exact Nat.le_refl 1
    | cons p ps => exact Word.one_le_capped (Nat.mul_pos (Nat.le_max_right ..) (Nat.le_max_right ..))
  have hlast : Curve.sampleLimit frame.width frame.height b.radius ≤ 2 ^ 64 - 1 := Word.capped_le _
  unfold stepCount
  omega

/-- A piece is drawn as by all its samples. -/
theorem drawPiece_eq (b : Brush) (canvas : Canvas) (piece : Primitive Float) :
    b.drawPiece canvas piece = b.drawCurve canvas piece.controlPoints := by
  obtain ⟨h1, h2⟩ := b.stepCount_spec canvas.frame piece.controlPoints
  unfold drawPiece
  dsimp only
  split
  · rename_i h
    rw [Nat.add_sub_cancel, b.drawStretch_eq h h1 h2 _ _ _ _ (by omega)]
    rfl
  · rfl

end Brush

end VectorRaster
