/-
  VectorRaster.Proofs.Raster.Circles — which pixels are on the outline of a circle.

  The walk along an octant squares nothing: it keeps a decision and two deltas up to date. What they stand for
  depends only on where the walk is (`Walk.ofPlace`), and a step keeps that, in words as in integers
  (`next_ofPlace`): sums of words are right up to whole turns, and the only number that is compared after it
  could have wrapped, the decision, is between minus and plus twice the radius while the walk goes on.

  On a walk, each row is the nearest to the circle in its column (`OnWalk`, kept by `OnWalk.next`). The last
  step can cross the diagonal; then it lands on the reflection of the place before it. So the walk comes to pixels
  of the outline only (`onWalk_of_mem_places`), and to all those of its octant (`mem_places`): it goes through
  the columns in turn, and in each the nearest row is unique (`row_unique`). The other octants are reflections
  of this one (`Octant.place`, `onOutline_place`).
-/

import Mathlib.Algebra.Order.Ring.Abs
import Mathlib.Tactic.Linarith
import Mathlib.Tactic.Ring
import VectorRaster.Raster.Circle

namespace VectorRaster.Circle

/-! ## The pixels nearest to a circle -/

/-- The pixels on the outline of a circle around the origin: with `b` the larger coordinate, those that are
nearer to the circle than their neighbours along the axis of `b`. -/
def OnOutline (radius dx dy : ℤ) : Prop :=
  let a := min |dx| |dy|
  let b := max |dx| |dy|
  a ^ 2 + b ^ 2 - b < radius ^ 2 ∧ radius ^ 2 ≤ a ^ 2 + b ^ 2 + b

instance (radius dx dy : ℤ) : Decidable (OnOutline radius dx dy) :=
  inferInstanceAs (Decidable (_ ∧ _))

variable {radius x y a b dx dy : ℤ}

theorem onOutline_iff : OnOutline radius dx dy ↔
    dx ^ 2 + dy ^ 2 - max |dx| |dy| < radius ^ 2 ∧ radius ^ 2 ≤ dx ^ 2 + dy ^ 2 + max |dx| |dy| := by
  have hsquares : min |dx| |dy| ^ 2 + max |dx| |dy| ^ 2 = dx ^ 2 + dy ^ 2 := by
    rcases le_total |dx| |dy| with h | h
    · rw [min_eq_left h, max_eq_right h, sq_abs, sq_abs]
    · rw [min_eq_right h, max_eq_left h, sq_abs, sq_abs, add_comm]
  simp only [OnOutline, hsquares]

theorem onOutline_of_octant (ha : 0 ≤ a) (hab : a ≤ b) :
    OnOutline radius a b ↔ a ^ 2 + b ^ 2 - b < radius ^ 2 ∧ radius ^ 2 ≤ a ^ 2 + b ^ 2 + b := by
  rw [onOutline_iff, abs_of_nonneg ha, abs_of_nonneg (ha.trans hab), max_eq_right hab]

theorem sq_sub_le (ha : 0 ≤ a) (hab : a ≤ b) : a ^ 2 - a ≤ b ^ 2 - b := by
  rcases eq_or_lt_of_le hab with rfl | hlt
  · rfl
  · nlinarith

theorem le_radius_of_lower (hradius : 0 ≤ radius) (hlower : a ^ 2 + b ^ 2 - b < radius ^ 2) : b ≤ radius := by
  nlinarith

/-- A column of the octant has one nearest row at most. -/
theorem row_unique {b' : ℤ} (ha : 0 ≤ a) (hab : a ≤ b) (hab' : a ≤ b') (h : OnOutline radius a b)
    (h' : OnOutline radius a b') : b = b' := by
  obtain ⟨hlower, hupper⟩ := (onOutline_of_octant ha hab).mp h
  obtain ⟨hlower', hupper'⟩ := (onOutline_of_octant ha hab').mp h'
  rcases lt_trichotomy b b' with hlt | heq | hlt
  · nlinarith
  · exact heq
  · nlinarith

/-! ## The walk in integers -/

/-- How far the middle between the rows `y` and `y - 1` is outside of the circle in the next column, as squares; up to a
quarter. -/
def decisionAt (radius x y : ℤ) : ℤ := (x + 1) ^ 2 + y ^ 2 - y - radius ^ 2

theorem decisionAt_column (radius x y : ℤ) : decisionAt radius (x + 1) y = decisionAt radius x y + (2 * x + 1 + 2) := by
  unfold decisionAt
  ring

theorem decisionAt_row (radius x y : ℤ) : decisionAt radius x (y - 1) = decisionAt radius x y + (-2 * y + 2) := by
  unfold decisionAt
  ring

def nextRow (radius x y : ℤ) : ℤ := if 0 ≤ decisionAt radius x y then y - 1 else y

/-- The places of a walk: columns with their nearest rows, up to one that may be just over the diagonal. -/
structure OnWalk (radius x y : ℤ) : Prop where
  x_nonneg : 0 ≤ x
  y_nonneg : 0 ≤ y
  x_le : x ≤ y + 1
  lower : x ^ 2 + y ^ 2 - max x y < radius ^ 2
  upper : radius ^ 2 ≤ x ^ 2 + y ^ 2 + y

namespace OnWalk

theorem start (h : 0 < radius) : OnWalk radius 0 radius where
  x_nonneg := le_refl 0
  y_nonneg := h.le
  x_le := by omega
  lower := by
    rw [max_eq_right h.le]
    omega
  upper := by omega

theorem next (h : OnWalk radius x y) (hlt : x < y) : OnWalk radius (x + 1) (nextRow radius x y) := by
  have hlower := h.lower
  have hupper := h.upper
  have hx := h.x_nonneg
  rw [max_eq_right hlt.le] at hlower
  unfold nextRow
  split
  · rename_i hdecision
    rw [decisionAt] at hdecision
    refine ⟨by omega, by omega, by omega, ?_, by linarith⟩
    rcases lt_or_ge (x + 1) y with hin | hover
    · rw [max_eq_right (by omega)]
      nlinarith
    · -- over the diagonal: the reflection of `(x, y)`
      obtain rfl : y = x + 1 := by omega
      rw [max_eq_left (by omega)]
      linarith
  · rename_i hdecision
    rw [decisionAt] at hdecision
    refine ⟨by omega, by omega, by omega, ?_, by linarith⟩
    rw [max_eq_right (by omega)]
    linarith

theorem le_radius (h : OnWalk radius x y) (hradius : 0 ≤ radius) : x ≤ radius ∧ y ≤ radius := by
  have hlower := h.lower
  rcases le_total x y with hxy | hxy
  · rw [max_eq_right hxy] at hlower
    have hy := le_radius_of_lower hradius hlower
    exact ⟨hxy.trans hy, hy⟩
  · rw [max_eq_left hxy, add_comm] at hlower
    have hx := le_radius_of_lower hradius hlower
    exact ⟨hx, hxy.trans hx⟩

theorem decision_bounds (h : OnWalk radius x y) (hlt : x < y) :
    2 * x + 1 - 2 * y ≤ decisionAt radius x y ∧ decisionAt radius x y ≤ 2 * x := by
  have hlower := h.lower
  have hupper := h.upper
  rw [max_eq_right hlt.le] at hlower
  unfold decisionAt
  constructor <;> linarith

theorem onOutline (h : OnWalk radius x y) : OnOutline radius x y := by
  have hlower := h.lower
  have hupper := h.upper
  have hle := le_max_right x y
  rw [onOutline_iff, abs_of_nonneg h.x_nonneg, abs_of_nonneg h.y_nonneg]
  exact ⟨hlower, by linarith⟩

/-- There are columns to come only while the walk has not met the diagonal. -/
theorem lt_of_column (h : OnWalk radius x y) (hxa : x < a) (hab : a ≤ b) (hout : OnOutline radius a b) : x < y := by
  have hupper := h.upper
  have hx := h.x_nonneg
  have hy := h.y_nonneg
  have ha : 0 ≤ a := hx.trans hxa.le
  obtain ⟨hlower, -⟩ := (onOutline_of_octant ha hab).mp hout
  have hb := sq_sub_le ha hab
  by_contra hge
  have hcolumn : (x + 1) ^ 2 ≤ a ^ 2 := by nlinarith
  nlinarith

/-- In a column of the octant, the walk is at the row of the outline. -/
theorem row_eq (h : OnWalk radius a y) (hab : a ≤ b) (hout : OnOutline radius a b) : b = y := by
  have ha := h.x_nonneg
  rcases le_or_gt a y with hay | hcrossed
  · exact row_unique ha hab hay hout h.onOutline
  · -- over the diagonal, the column has no pixel in the octant
    have hx := h.x_le
    have hupper := h.upper
    obtain ⟨hlower, -⟩ := (onOutline_of_octant ha hab).mp hout
    have hb := sq_sub_le ha hab
    obtain rfl : y = a - 1 := by omega
    linarith

/-- The walk gets to each column that the circle crosses in the octant, below the diagonal or on it. -/
theorem exists_row (hradius : 0 < radius) (ha : 0 ≤ a) (hcolumn : 2 * a ^ 2 ≤ radius ^ 2) :
    ∃ b, a ≤ b ∧ OnWalk radius a b := by
  induction a, ha using Int.leInduction with
  | base => exact ⟨radius, hradius.le, start hradius⟩
  | succ a ha ih =>
    obtain ⟨b, hab, hwalk⟩ := ih (by nlinarith)
    have hupper := hwalk.upper
    have hlt : a < b := by nlinarith
    have hnext := hwalk.next hlt
    refine ⟨nextRow radius a b, ?_, hnext⟩
    have hupper' := hnext.upper
    have hy := hnext.y_nonneg
    nlinarith

end OnWalk

/-- The places that a walk comes to after this one, in at most `steps` steps. -/
def places (radius : ℤ) : ℕ → ℤ → ℤ → List (ℤ × ℤ)
  | 0, _, _ => []
  | steps + 1, x, y =>
    if x < y then (x + 1, nextRow radius x y) :: places radius steps (x + 1) (nextRow radius x y) else []

theorem nextRow_le (radius x y : ℤ) : nextRow radius x y ≤ y := by
  unfold nextRow
  split
  · omega
  · rfl

section

variable {steps : ℕ}

theorem onWalk_of_mem_places (h : OnWalk radius x y) (hp : (a, b) ∈ places radius steps x y) : OnWalk radius a b := by
  induction steps generalizing x y with
  | zero => cases hp
  | succ steps ih =>
    rw [places] at hp
    split at hp
    · rename_i hlt
      rcases List.mem_cons.mp hp with hhead | htail
      · cases hhead
        exact h.next hlt
      · exact ih (h.next hlt) htail
    · cases hp

/-- The pixels of the octant in columns to come are met. -/
theorem mem_places (h : OnWalk radius x y) (hsteps : y - x ≤ steps) (hxa : x < a) (hab : a ≤ b)
    (hout : OnOutline radius a b) : (a, b) ∈ places radius steps x y := by
  induction steps generalizing x y with
  | zero =>
    have hlt := h.lt_of_column hxa hab hout
    omega
  | succ steps ih =>
    have hlt := h.lt_of_column hxa hab hout
    have hnext := h.next hlt
    rw [places, if_pos hlt, List.mem_cons]
    rcases eq_or_lt_of_le (show x + 1 ≤ a by omega) with rfl | hxa
    · left
      rw [hnext.row_eq hab hout]
    · right
      have hrow := nextRow_le radius x y
      exact ih hnext (by omega) hxa

end

/-! ## The walk in words -/

/-- The walk's numbers at a place. -/
def Walk.ofPlace (radius x y : ℤ) : Walk :=
  ⟨.ofInt x, .ofInt y, .ofInt (decisionAt radius x y), .ofInt (2 * x + 1), .ofInt (-2 * y)⟩

theorem start_eq (radius : Int64) : Walk.start radius = .ofPlace radius.toInt 0 radius.toInt := by
  have hdecision : decisionAt radius.toInt 0 radius.toInt = 1 - radius.toInt := by
    unfold decisionAt
    ring
  simp only [Walk.start, Walk.ofPlace, hdecision, Int64.ofInt_sub, Int64.ofInt_mul, Int64.ofInt_toInt]
  rfl

theorem ofInt_lt_ofInt (ha : -2 ^ 63 ≤ a) (ha' : a < 2 ^ 63) (hb : -2 ^ 63 ≤ b) (hb' : b < 2 ^ 63) :
    Int64.ofInt a < Int64.ofInt b ↔ a < b := by
  rw [Int64.lt_iff_toInt_lt, Int64.toInt_ofInt_of_le ha ha', Int64.toInt_ofInt_of_le hb hb']

theorem ofPlace_lt (h : OnWalk radius x y) (hradius : 0 ≤ radius) (hmax : radius ≤ 2 ^ 62) :
    (Walk.ofPlace radius x y).x < (Walk.ofPlace radius x y).y ↔ x < y := by
  obtain ⟨hxr, hyr⟩ := h.le_radius hradius
  have hx := h.x_nonneg
  have hy := h.y_nonneg
  exact ofInt_lt_ofInt (by omega) (by omega) (by omega) (by omega)

theorem decision_ofPlace (h : OnWalk radius x y) (hradius : 0 ≤ radius) (hmax : radius ≤ 2 ^ 62) (hlt : x < y) :
    0 ≤ (Walk.ofPlace radius x y).decision ↔ 0 ≤ decisionAt radius x y := by
  obtain ⟨hlow, hhigh⟩ := h.decision_bounds hlt
  obtain ⟨hxr, hyr⟩ := h.le_radius hradius
  have hx := h.x_nonneg
  rw [Int64.le_iff_toInt_le, Walk.ofPlace, Int64.toInt_ofInt_of_le (by omega) (by omega), Int64.toInt_zero]

theorem next_ofPlace (h : OnWalk radius x y) (hradius : 0 ≤ radius) (hmax : radius ≤ 2 ^ 62) (hlt : x < y) :
    (Walk.ofPlace radius x y).descend.advance = .ofPlace radius (x + 1) (nextRow radius x y) := by
  have hdecision := decision_ofPlace h hradius hmax hlt
  have hx : 2 * (x + 1) + 1 = 2 * x + 1 + 2 := by ring
  by_cases hd : 0 ≤ decisionAt radius x y
  · have hnext : decisionAt radius (x + 1) (y - 1) = decisionAt radius x y + (-2 * y + 2) + (2 * x + 1 + 2) := by
      rw [decisionAt_column, decisionAt_row]
    have hy : -2 * (y - 1) = -2 * y + 2 := by ring
    rw [Walk.descend, if_pos (hdecision.mpr hd), nextRow, if_pos hd]
    simp only [Walk.advance, Walk.ofPlace, hnext, hx, hy, Int64.ofInt_add, Int64.ofInt_sub]
    rfl
  · rw [Walk.descend, if_neg (mt hdecision.mp hd), nextRow, if_neg hd]
    simp only [Walk.advance, Walk.ofPlace, decisionAt_column, hx, Int64.ofInt_add]
    rfl

section

variable {steps : ℕ} (hradius : 0 ≤ radius) (hmax : radius ≤ 2 ^ 62) (h : OnWalk radius x y)
include hradius hmax h

theorem offsets_of_lt (hlt : x < y) : (Walk.ofPlace radius x y).offsets (steps + 1)
    = ⟨.ofInt (x + 1), .ofInt (nextRow radius x y)⟩
      :: (Walk.ofPlace radius (x + 1) (nextRow radius x y)).offsets steps := by
  simp only [Walk.offsets, (ofPlace_lt h hradius hmax).mpr hlt, if_true, next_ofPlace h hradius hmax hlt]
  rfl

theorem offsets_of_not_lt (hlt : ¬ x < y) : (Walk.ofPlace radius x y).offsets steps = [] := by
  cases steps with
  | zero => rfl
  | succ steps => simp only [Walk.offsets, mt (ofPlace_lt h hradius hmax).mp hlt, if_false]

end

section

variable {steps : ℕ} (hradius : 0 ≤ radius) (hmax : radius ≤ 2 ^ 62)
include hradius hmax

/-- In words, the walk comes to the same places. -/
theorem offsets_eq_places (h : OnWalk radius x y) : (Walk.ofPlace radius x y).offsets steps
    = (places radius steps x y).map fun q => ⟨.ofInt q.1, .ofInt q.2⟩ := by
  induction steps generalizing x y with
  | zero => rfl
  | succ steps ih =>
    by_cases hlt : x < y
    · rw [offsets_of_lt hradius hmax h hlt, ih (h.next hlt), places, if_pos hlt, List.map_cons]
    · rw [offsets_of_not_lt hradius hmax h hlt, places, if_neg hlt, List.map_nil]

end

/-! ## Octants -/

/-- The reflections that take one octant to the eight of them. -/
structure Octant where
  swapped : Bool
  flipX : Bool
  flipY : Bool
  deriving DecidableEq, Repr

/-- The offset in an octant's column `a` and row `b`, which are counted from the center and from its axis. -/
def Octant.place (o : Octant) (a b : ℤ) : ℤ × ℤ :=
  let x := if o.swapped then b else a
  let y := if o.swapped then a else b
  (if o.flipX then -x else x, if o.flipY then -y else y)

theorem Octant.exists_iff {p : Octant → Prop} : (∃ o, p o) ↔
    p ⟨false, false, false⟩ ∨ p ⟨false, true, false⟩ ∨ p ⟨false, false, true⟩ ∨ p ⟨false, true, true⟩ ∨
    p ⟨true, false, false⟩ ∨ p ⟨true, true, false⟩ ∨ p ⟨true, false, true⟩ ∨ p ⟨true, true, true⟩ := by
  constructor
  · intro h
    obtain ⟨⟨swapped, flipX, flipY⟩, hp⟩ := h
    cases swapped <;> cases flipX <;> cases flipY <;> simp only [hp, true_or, or_true]
  · intro h
    rcases h with h | h | h | h | h | h | h | h <;> exact ⟨_, h⟩

theorem onOutline_place (o : Octant) :
    OnOutline radius (o.place a b).1 (o.place a b).2 ↔ OnOutline radius a b := by
  obtain ⟨swapped, flipX, flipY⟩ := o
  cases swapped <;> cases flipX <;> cases flipY <;>
    simp [Octant.place, OnOutline, min_comm, max_comm]

theorem Octant.place_eq_zero (o : Octant) : o.place a b = (0, 0) ↔ a = 0 ∧ b = 0 := by
  obtain ⟨swapped, flipX, flipY⟩ := o
  cases swapped <;> cases flipX <;> cases flipY <;> simp [place, and_comm]

theorem ite_neg_abs (n : ℤ) : (if n < 0 then -|n| else |n|) = n := by
  split
  · rw [abs_of_neg ‹_›, neg_neg]
  · rw [abs_of_nonneg (not_lt.mp ‹_›)]

/-- The octants cover the plane. -/
theorem Octant.exists_place (d : ℤ × ℤ) : ∃ (o : Octant) (a b : ℤ), 0 ≤ a ∧ a ≤ b ∧ o.place a b = d := by
  obtain ⟨dx, dy⟩ := d
  rcases le_total |dx| |dy| with h | h
  · refine ⟨⟨false, decide (dx < 0), decide (dy < 0)⟩, |dx|, |dy|, abs_nonneg dx, h, ?_⟩
    simp only [place, decide_eq_true_eq, Bool.false_eq_true, if_false, ite_neg_abs]
  · refine ⟨⟨true, decide (dx < 0), decide (dy < 0)⟩, |dy|, |dx|, abs_nonneg dy, h, ?_⟩
    simp only [place, decide_eq_true_eq, if_true, ite_neg_abs]

end VectorRaster.Circle
