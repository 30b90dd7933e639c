/-
  VectorRaster.Proofs.Raster.Exact — the outlines of circles in integers.

  Drawing calculates outlines in words, which wrap; operation by operation they are calculated in integers
  (`outlineIn`), and what becomes of a result is left open there.

  Proved, with unbounded results: the pixels of an outline are those nearest to the circle, of any radius around any
  center (`mem_exactOutline`); and the outline in words is this one with its coordinates as words (`outline_eq_exact`),
  as long as the walk's own numbers are words.
-/

import Mathlib.Data.List.Basic
import VectorRaster.Proofs.Raster.Circles
import VectorRaster.Raster.Register

namespace VectorRaster

/-! ## Results -/

theorem checked_of_isWord {n : ℤ} (h : IsWord n) : Register.checked n = some n := if_pos h

theorem isWord_of_checked {n k : ℤ} (h : Register.checked n = some k) : IsWord n ∧ n = k := by
  unfold Register.checked at h
  split at h
  · exact ⟨‹_›, Option.some.inj h⟩
  · cases h

/-! ## Circles -/

namespace Circle

/-- The outline of a circle in integers of any size. -/
def exactOutline (x y radius : ℤ) : List (ℤ × ℤ) := (outlineIn Register.unbounded x y radius).run

variable {radius x y a b : ℤ} {steps : ℕ} {q : ℤ × ℤ}

/-! ### Integers of any size -/

/-- The walk's numbers at a place. -/
def IntWalk.ofPlace (radius x y : ℤ) : IntWalk := ⟨x, y, decisionAt radius x y, 2 * x + 1, -2 * y⟩

theorem IntWalk.ofPlace_start (radius : ℤ) :
    IntWalk.ofPlace radius 0 radius = ⟨0, radius, 1 - radius, 1, -2 * radius⟩ := by
  have hdecision : decisionAt radius 0 radius = 1 - radius := by
    unfold decisionAt
    ring
  rw [IntWalk.ofPlace, hdecision, Int.mul_zero, Int.zero_add]

theorem IntWalk.ofPlace_lower (radius x y : ℤ) : IntWalk.ofPlace radius (x + 1) (y - 1)
    = ⟨x + 1, y - 1, decisionAt radius x y + (-2 * y + 2) + (2 * x + 1 + 2), 2 * x + 1 + 2, -2 * y + 2⟩ := by
  have hx : 2 * (x + 1) + 1 = 2 * x + 1 + 2 := by ring
  have hy : -2 * (y - 1) = -2 * y + 2 := by ring
  rw [IntWalk.ofPlace, decisionAt_column, decisionAt_row, hx, hy]

theorem IntWalk.ofPlace_beside (radius x y : ℤ) : IntWalk.ofPlace radius (x + 1) y
    = ⟨x + 1, y, decisionAt radius x y + (2 * x + 1 + 2), 2 * x + 1 + 2, -2 * y⟩ := by
  have hx : 2 * (x + 1) + 1 = 2 * x + 1 + 2 := by ring
  rw [IntWalk.ofPlace, decisionAt_column, hx]

/-- The results of the step at a place, in order. -/
def stepResults (radius x y : ℤ) : List ℤ :=
  if 0 ≤ decisionAt radius x y then
    [y - 1, -2 * y + 2, decisionAt radius x y + (-2 * y + 2), x + 1, 2 * x + 1 + 2,
     decisionAt radius x y + (-2 * y + 2) + (2 * x + 1 + 2)]
  else [x + 1, 2 * x + 1 + 2, decisionAt radius x y + (2 * x + 1 + 2)]

/-- The results of a walk's steps. -/
def walkResults (radius : ℤ) : ℕ → ℤ → ℤ → List ℤ
  | 0, _, _ => []
  | steps + 1, x, y =>
    if x < y then stepResults radius x y ++ walkResults radius steps (x + 1) (nextRow radius x y) else []

section

variable {m : Type → Type} [Monad m] [LawfulMonad m] {fit : ℤ → m ℤ}

theorem IntWalk.start_eq (hdecision : fit (1 - radius) = pure (1 - radius))
    (hdeltaY : fit (-2 * radius) = pure (-2 * radius)) :
    IntWalk.start fit radius = pure (IntWalk.ofPlace radius 0 radius) := by
  rw [start, hdecision, pure_bind, hdeltaY, pure_bind, ofPlace_start]

theorem IntWalk.step_eq (hfit : ∀ n ∈ stepResults radius x y, fit n = pure n) :
    (IntWalk.ofPlace radius x y).step fit = pure (.ofPlace radius (x + 1) (nextRow radius x y)) := by
  by_cases hd : 0 ≤ decisionAt radius x y
  · rw [stepResults, if_pos hd] at hfit
    simp only [List.forall_mem_cons] at hfit
    obtain ⟨hrow, hdeltaY, hlower, hcolumn, hdeltaX, hdecision, -⟩ := hfit
    rw [nextRow, if_pos hd, ofPlace_lower]
    simp only [step, descend, advance, ofPlace, hd, if_true, hrow, hdeltaY, hlower, hcolumn, hdeltaX, hdecision,
      pure_bind]
  · rw [stepResults, if_neg hd] at hfit
    simp only [List.forall_mem_cons] at hfit
    obtain ⟨hcolumn, hdeltaX, hdecision, -⟩ := hfit
    rw [nextRow, if_neg hd, ofPlace_beside]
    simp only [step, descend, advance, ofPlace, hd, if_false, hcolumn, hdeltaX, hdecision, pure_bind]

theorem IntWalk.offsets_eq (hfit : ∀ n ∈ walkResults radius steps x y, fit n = pure n) :
    (IntWalk.ofPlace radius x y).offsets fit steps = pure (places radius steps x y) := by
  induction steps generalizing x y with
  | zero => rfl
  | succ steps ih =>
    by_cases hlt : x < y
    · have hlt' : (IntWalk.ofPlace radius x y).x < (IntWalk.ofPlace radius x y).y := hlt
      rw [walkResults, if_pos hlt, List.forall_mem_append] at hfit
      rw [IntWalk.offsets, if_pos hlt', places, if_pos hlt, IntWalk.step_eq hfit.1, pure_bind, ih hfit.2, pure_bind]
      rfl
    · have hlt' : ¬ (IntWalk.ofPlace radius x y).x < (IntWalk.ofPlace radius x y).y := hlt
      rw [IntWalk.offsets, if_neg hlt', places, if_neg hlt]

theorem mapM_fitPoint {qs : List (ℤ × ℤ)} (hfit : ∀ q ∈ qs, fit q.1 = pure q.1 ∧ fit q.2 = pure q.2) :
    qs.mapM (fitPoint fit) = pure qs := by
  induction qs with
  | nil => rfl
  | cons q qs ih =>
    rw [List.forall_mem_cons] at hfit
    rw [List.mapM_cons, ih hfit.2, fitPoint, hfit.1.1, hfit.1.2]
    simp only [pure_bind]

/-- The points of an outline, in order. -/
def outlinePoints (x y radius : ℤ) : List (ℤ × ℤ) :=
  [(x, y + radius), (x, y - radius), (x + radius, y), (x - radius, y)]
    ++ (places radius radius.toNat 0 radius).flatMap (around x y)

/-- Where all results are kept, it does not matter what would become of others. -/
theorem outlineIn_eq (hdecision : fit (1 - radius) = pure (1 - radius))
    (hdeltaY : fit (-2 * radius) = pure (-2 * radius))
    (hwalk : ∀ n ∈ walkResults radius radius.toNat 0 radius, fit n = pure n)
    (hpoints : ∀ q ∈ outlinePoints x y radius, fit q.1 = pure q.1 ∧ fit q.2 = pure q.2) :
    outlineIn fit x y radius = pure (outlinePoints x y radius) := by
  rw [outlinePoints, List.forall_mem_append] at hpoints
  rw [outlineIn, mapM_fitPoint hpoints.1, pure_bind, IntWalk.start_eq hdecision hdeltaY, pure_bind,
    IntWalk.offsets_eq hwalk, pure_bind, mapM_fitPoint hpoints.2, pure_bind, outlinePoints]

end

theorem exactOutline_eq (x y radius : ℤ) : exactOutline x y radius = outlinePoints x y radius := by
  have hall : outlineIn Register.unbounded x y radius = pure (outlinePoints x y radius) :=
    outlineIn_eq rfl rfl (fun _ _ => rfl) fun _ _ => ⟨rfl, rfl⟩
  rw [exactOutline, hall]
  rfl

/-! ### Which pixels -/

theorem mem_around : q ∈ around x y (a, b) ↔ ∃ o : Octant, q = (x + (o.place a b).1, y + (o.place a b).2) := by
  rw [Octant.exists_iff]
  simp [around, Octant.place, sub_eq_add_neg]

/-- The points on the axes are the reflections of the place where the walk starts. -/
theorem mem_exactOutline_iff_around :
    q ∈ exactOutline x y radius ↔ ∃ p ∈ (0, radius) :: places radius radius.toNat 0 radius, q ∈ around x y p := by
  rw [exactOutline_eq, outlinePoints]
  simp only [List.mem_append, List.mem_flatMap, List.exists_mem_cons_iff]
  refine or_congr_left ?_
  simp only [around, add_zero, sub_zero, List.mem_cons, List.not_mem_nil, or_false]
  tauto

/-- The circle of radius 0 is its center. -/
theorem mem_exactOutline_zero : q ∈ exactOutline x y 0 ↔ q = (x, y) := by
  rw [exactOutline_eq, outlinePoints]
  simp [places]

theorem mem_exactOutline (hpos : 0 < radius) :
    q ∈ exactOutline x y radius ↔ OnOutline radius (q.1 - x) (q.2 - y) := by
  have hwalk := OnWalk.start hpos
  rw [mem_exactOutline_iff_around]
  constructor
  · intro h
    obtain ⟨⟨a, b⟩, hp, hq⟩ := h
    have hplace : OnWalk radius a b := by
      rcases List.mem_cons.mp hp with hstart | hlater
      · cases hstart
        exact hwalk
      · exact onWalk_of_mem_places hwalk hlater
    obtain ⟨o, rfl⟩ := mem_around.mp hq
    rw [add_sub_cancel_left, add_sub_cancel_left, onOutline_place]
    exact hplace.onOutline
  · intro hout
    obtain ⟨o, a, b, ha, hab, hd⟩ := Octant.exists_place (q.1 - x, q.2 - y)
    have hout' : OnOutline radius a b := by
      rw [← onOutline_place o, hd]
      exact hout
    refine ⟨(a, b), ?_, mem_around.mpr ⟨o, ?_⟩⟩
    · rcases eq_or_lt_of_le ha with rfl | ha
      · rw [hwalk.row_eq hab hout']
        exact List.mem_cons_self
      · exact List.mem_cons_of_mem _ (mem_places hwalk (by omega) ha hab hout')
    · rw [hd]
      simp

theorem OnOutline.abs_le {dx dy : ℤ} (hradius : 0 ≤ radius) (h : OnOutline radius dx dy) :
    |dx| ≤ radius ∧ |dy| ≤ radius := by
  have hmax : max |dx| |dy| ≤ radius := le_radius_of_lower hradius h.1
  exact ⟨(le_max_left _ _).trans hmax, (le_max_right _ _).trans hmax⟩

/-- No point of an outline is further from the center than the radius, along either axis. -/
theorem abs_le_of_mem_exactOutline (hradius : 0 ≤ radius) (hq : q ∈ exactOutline x y radius) :
    |q.1 - x| ≤ radius ∧ |q.2 - y| ≤ radius := by
  rcases eq_or_lt_of_le hradius with rfl | hpos
  · obtain rfl := mem_exactOutline_zero.mp hq
    simp
  · exact ((mem_exactOutline hpos).mp hq).abs_le hradius

/-! ### In words -/

theorem reflections_eq_around (centerX centerY : Int64) (o : ℤ × ℤ) :
    reflections centerX centerY ⟨.ofInt o.1, .ofInt o.2⟩
      = (around centerX.toInt centerY.toInt o).map fun q => ⟨.ofInt q.1, .ofInt q.2⟩ := by
  simp [reflections, around, Int64.ofInt_add, Int64.ofInt_sub]

theorem outline_eq_exact (centerX centerY : Int64) (hradius : 0 ≤ radius) (hmax : radius ≤ 2 ^ 62) :
    outline centerX centerY (.ofInt radius)
      = (exactOutline centerX.toInt centerY.toInt radius).map fun q => ⟨.ofInt q.1, .ofInt q.2⟩ := by
  have hword : (Int64.ofInt radius).toInt = radius := Int64.toInt_ofInt_of_le (by omega) (by omega)
  have hoffsets : (Walk.start (.ofInt radius)).offsets radius.toNat
      = (places radius radius.toNat 0 radius).map fun q => ⟨.ofInt q.1, .ofInt q.2⟩ := by
    rcases eq_or_lt_of_le hradius with rfl | hpos
    · rfl
    · rw [start_eq, hword]
      exact offsets_eq_places hradius hmax (.start hpos)
  have hsteps : (Int64.ofInt radius).toNatClampNeg = radius.toNat := by rw [← Int64.toNat_toInt, hword]
  rw [outline, hsteps, hoffsets, exactOutline_eq, outlinePoints, List.map_append, List.flatMap_map, List.map_flatMap]
  simp only [reflections_eq_around]
  simp [Int64.ofInt_add, Int64.ofInt_sub]

end Circle

end VectorRaster
