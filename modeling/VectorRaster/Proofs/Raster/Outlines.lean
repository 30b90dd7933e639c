/-
  VectorRaster.Proofs.Raster.Outlines — which outlines of circles are calculated, and what they are.

  An outline does not return if one of its results is no word (`outline?`). The outermost results are
  its points on the axes, and `-2 * radius`, with which the walk begins: no other can overflow if these do
  not (`HasRoom`). That leaves out every radius above `2 ^ 62`, wherever the center is.

  An outline that returns is the one in integers, whose points are the pixels nearest to the circle.

  Main statement: `outline_offsets`.
-/

import Mathlib.Analysis.Real.Sqrt
import VectorRaster.Proofs.Raster.Exact

namespace VectorRaster.Circle

variable {radius x y : ℤ} {steps : ℕ} {q : ℤ × ℤ}

/-- The outermost numbers of an outline are words: its points on the axes, and the walk's first `deltaY`. -/
structure HasRoom (x y radius : ℤ) : Prop where
  left : -2 ^ 63 ≤ x - radius
  right : x + radius < 2 ^ 63
  up : -2 ^ 63 ≤ y - radius
  down : y + radius < 2 ^ 63
  deltaY : radius ≤ 2 ^ 62

theorem HasRoom.mono {smaller : ℤ} (h : HasRoom x y radius) (hle : smaller ≤ radius) : HasRoom x y smaller := by
  obtain ⟨hleft, hright, hup, hdown, hdelta⟩ := h
  exact ⟨by omega, by omega, by omega, by omega, by omega⟩

theorem HasRoom.isWord (h : HasRoom x y radius) (hx : |q.1 - x| ≤ radius) (hy : |q.2 - y| ≤ radius) :
    IsWord q.1 ∧ IsWord q.2 := by
  obtain ⟨hleft, hright, hup, hdown, -⟩ := h
  rw [abs_le] at hx hy
  exact ⟨⟨by omega, by omega⟩, ⟨by omega, by omega⟩⟩

/-! ### Points -/

theorem isWord_of_fitPoint {p : ℤ × ℤ} (h : fitPoint Register.checked q = some p) : IsWord q.1 ∧ IsWord q.2 := by
  simp only [fitPoint, bind, Option.bind_eq_some_iff] at h
  obtain ⟨x, hx, y, hy, -⟩ := h
  exact ⟨(isWord_of_checked hx).1, (isWord_of_checked hy).1⟩

theorem isWord_of_mapM {qs ps : List (ℤ × ℤ)} (h : qs.mapM (fitPoint Register.checked) = some ps) :
    ∀ q ∈ qs, IsWord q.1 ∧ IsWord q.2 := by
  induction qs generalizing ps with
  | nil => exact fun q hq => nomatch hq
  | cons a qs ih =>
    simp only [List.mapM_cons, bind, Option.bind_eq_some_iff] at h
    obtain ⟨p, hp, rest, hrest, -⟩ := h
    intro q hq
    rcases List.mem_cons.mp hq with rfl | hq
    · exact isWord_of_fitPoint hp
    · exact ih hrest q hq

/-! ### Walks -/

section

variable (hradius : 0 ≤ radius) (hmax : radius ≤ 2 ^ 62)
include hradius

/-- Before it meets the diagonal, a walk is well below the radius. -/
theorem OnWalk.four_mul_le (h : OnWalk radius x y) (hlt : x < y) : 4 * x ≤ 3 * radius := by
  have hlower := h.lower
  have hx := h.x_nonneg
  rw [max_eq_right hlt.le] at hlower
  have hrow : x ^ 2 ≤ y ^ 2 - y := by nlinarith
  by_contra hgt
  nlinarith

include hmax

theorem OnWalk.isWord_of_mem_stepResults (h : OnWalk radius x y) (hlt : x < y) {n : ℤ}
    (hn : n ∈ stepResults radius x y) : IsWord n := by
  obtain ⟨-, hyr⟩ := h.le_radius hradius
  obtain ⟨hlow, hhigh⟩ := h.decision_bounds hlt
  have hx := h.x_nonneg
  have hfour := h.four_mul_le hradius hlt
  unfold stepResults at hn
  unfold IsWord
  split at hn
  · simp only [List.mem_cons, List.not_mem_nil, or_false] at hn
    omega
  · simp only [List.mem_cons, List.not_mem_nil, or_false] at hn
    omega

theorem OnWalk.isWord_of_mem_walkResults (h : OnWalk radius x y) {n : ℤ} (hn : n ∈ walkResults radius steps x y) :
    IsWord n := by
  induction steps generalizing x y with
  | zero => cases hn
  | succ steps ih =>
    rw [walkResults] at hn
    split at hn
    · rename_i hlt
      rcases List.mem_append.mp hn with hstep | hrest
      · exact h.isWord_of_mem_stepResults hradius hmax hlt hstep
      · exact ih (h.next hlt) hrest
    · cases hn

end

/-! ### Outlines -/

theorem outlineIn_checked (hradius : 0 ≤ radius) (h : HasRoom x y radius) :
    outlineIn Register.checked x y radius = some (exactOutline x y radius) := by
  have hmax := h.deltaY
  rw [exactOutline_eq]
  refine outlineIn_eq ?_ ?_ ?_ ?_
  · exact checked_of_isWord ⟨by omega, by omega⟩
  · exact checked_of_isWord ⟨by omega, by omega⟩
  · intro n hn
    rcases eq_or_lt_of_le hradius with rfl | hpos
    · cases hn
    · exact checked_of_isWord (OnWalk.isWord_of_mem_walkResults hradius hmax (.start hpos) hn)
  · intro q hq
    rw [← exactOutline_eq] at hq
    obtain ⟨hx, hy⟩ := abs_le_of_mem_exactOutline hradius hq
    obtain ⟨hwordX, hwordY⟩ := h.isWord hx hy
    exact ⟨checked_of_isWord hwordX, checked_of_isWord hwordY⟩

theorem hasRoom_of_outlineIn {points : List (ℤ × ℤ)} (h : outlineIn Register.checked x y radius = some points) :
    HasRoom x y radius := by
  simp only [outlineIn, bind, Option.bind_eq_some_iff] at h
  obtain ⟨axes, haxes, walk, hwalk, -⟩ := h
  simp only [IntWalk.start, bind, Option.bind_eq_some_iff] at hwalk
  obtain ⟨decision, -, deltaY, hdeltaY, -⟩ := hwalk
  have hwords := isWord_of_mapM haxes
  obtain ⟨-, -, hdown⟩ := hwords (x, y + radius) (by simp)
  obtain ⟨-, hup, -⟩ := hwords (x, y - radius) (by simp)
  obtain ⟨⟨-, hright⟩, -⟩ := hwords (x + radius, y) (by simp)
  obtain ⟨⟨hleft, -⟩, -⟩ := hwords (x - radius, y) (by simp)
  obtain ⟨hdelta, -⟩ := (isWord_of_checked hdeltaY).1
  exact ⟨hleft, hright, hup, hdown, by omega⟩

/-- An outline returns exactly if it has room, and it is then the one in integers. -/
theorem outline?_eq_some_iff (hradius : 0 ≤ radius) {points : List (ℤ × ℤ)} :
    outline? x y radius = some points ↔ HasRoom x y radius ∧ points = exactOutline x y radius := by
  constructor
  · intro h
    have hroom : HasRoom x y radius := hasRoom_of_outlineIn h
    rw [outline?, outlineIn_checked hradius hroom] at h
    exact ⟨hroom, (Option.some.inj h).symm⟩
  · intro h
    obtain ⟨hroom, rfl⟩ := h
    exact outlineIn_checked hradius hroom

theorem outline?_ne_none_iff (hradius : 0 ≤ radius) : outline? x y radius ≠ none ↔ HasRoom x y radius := by
  rw [Option.ne_none_iff_exists']
  constructor
  · intro h
    obtain ⟨points, hpoints⟩ := h
    exact ((outline?_eq_some_iff hradius).mp hpoints).1
  · intro h
    exact ⟨_, (outline?_eq_some_iff hradius).mpr ⟨h, rfl⟩⟩

/-! ### The loop -/

/-- The loop: it steps while the column is below the row, and each result of a step is a word. -/
inductive IntWalk.Runs : IntWalk → List (ℤ × ℤ) → Prop
  | done {w : IntWalk} : ¬ w.x < w.y → Runs w []
  | step {w next : IntWalk} {rest : List (ℤ × ℤ)} : w.x < w.y → w.step Register.checked = some next → Runs next rest →
      Runs w ((next.x, next.y) :: rest)

/-- The loop ends within as many steps as the row is above the column. -/
theorem IntWalk.runs_places (hradius : 0 ≤ radius) (hmax : radius ≤ 2 ^ 62) (h : OnWalk radius x y)
    (hsteps : y - x ≤ steps) : (IntWalk.ofPlace radius x y).Runs (places radius steps x y) := by
  induction steps generalizing x y with
  | zero =>
    have hmet : ¬ x < y := by omega
    exact .done hmet
  | succ steps ih =>
    rw [places]
    split
    · rename_i hlt
      have hstep : (IntWalk.ofPlace radius x y).step Register.checked
          = some (.ofPlace radius (x + 1) (nextRow radius x y)) := by
        refine IntWalk.step_eq fun n hn => ?_
        exact checked_of_isWord (h.isWord_of_mem_stepResults hradius hmax hlt hn)
      have hrow := nextRow_le radius x y
      exact .step hlt hstep (ih (h.next hlt) (by omega))
    · rename_i hmet
      exact .done hmet

theorem IntWalk.runs_start (hradius : 0 ≤ radius) (hmax : radius ≤ 2 ^ 62) :
    ∃ walk, IntWalk.start Register.checked radius = some walk ∧ walk.Runs (places radius radius.toNat 0 radius) := by
  refine ⟨.ofPlace radius 0 radius, ?_, ?_⟩
  · refine IntWalk.start_eq ?_ ?_
    · exact checked_of_isWord ⟨by omega, by omega⟩
    · exact checked_of_isWord ⟨by omega, by omega⟩
  · rcases eq_or_lt_of_le hradius with rfl | hpos
    · exact .done (lt_irrefl 0)
    · exact IntWalk.runs_places hradius hmax (.start hpos) (by omega)

/-! ### Offsets -/

/-- The pixels of an outline are less than half a pixel off the circle. -/
theorem abs_sqrt_sub_lt (hradius : 0 ≤ radius) (h : OnOutline radius dx dy) :
    |√((dx ^ 2 + dy ^ 2 : ℤ) : ℝ) - radius| < 1 / 2 := by
  obtain ⟨hlower, hupper⟩ := onOutline_iff.mp h
  have hlargest : max |dx| |dy| ^ 2 ≤ dx ^ 2 + dy ^ 2 := by
    rcases max_cases |dx| |dy| with ⟨hmax, -⟩ | ⟨hmax, -⟩
    · rw [hmax, sq_abs]
      exact le_add_of_nonneg_right (sq_nonneg dy)
    · rw [hmax, sq_abs]
      exact le_add_of_nonneg_left (sq_nonneg dx)
  generalize max |dx| |dy| = b at hlower hupper hlargest
  generalize dx ^ 2 + dy ^ 2 = square at hlower hupper hlargest ⊢
  have hsquare : (0 : ℤ) ≤ square := (sq_nonneg b).trans hlargest
  have hdistance : √(square : ℝ) ^ 2 = square := Real.sq_sqrt (by exact_mod_cast hsquare)
  have hb : (b : ℝ) ≤ √(square : ℝ) := Real.le_sqrt_of_sq_le (by exact_mod_cast hlargest)
  have hlower' : (square : ℝ) - b + 1 ≤ (radius : ℝ) ^ 2 := by exact_mod_cast hlower
  have hupper' : (radius : ℝ) ^ 2 ≤ square + b := by exact_mod_cast hupper
  have hradius' : (0 : ℝ) ≤ radius := by exact_mod_cast hradius
  have hnonneg := Real.sqrt_nonneg (square : ℝ)
  rw [abs_lt]
  constructor
  · nlinarith
  · nlinarith

/-- How far the points of an outline are from its center. -/
def offsetsFrom (x y : ℤ) (points : List (ℤ × ℤ)) : Set (ℤ × ℤ) := {d | (x + d.1, y + d.2) ∈ points}

theorem offsetsFrom_exactOutline (x y : ℤ) (hradius : 0 ≤ radius) : offsetsFrom x y (exactOutline x y radius)
    = if radius = 0 then {(0, 0)} else {d | OnOutline radius d.1 d.2} := by
  ext ⟨dx, dy⟩
  split
  · rename_i hzero
    subst hzero
    have hpoint : (x + dx, y + dy) = (x, y) ↔ (dx, dy) = (0, 0) := by
      rw [Prod.mk.injEq, Prod.mk.injEq, add_eq_left, add_eq_left]
    exact mem_exactOutline_zero.trans hpoint
  · rename_i hne
    have hmem : (x + dx, y + dy) ∈ exactOutline x y radius ↔ OnOutline radius (x + dx - x) (y + dy - y) :=
      mem_exactOutline (by omega)
    rwa [add_sub_cancel_left, add_sub_cancel_left] at hmem

/-- Offsets of an outline are alike in all octants: one in each column that the circle crosses in the octant, and never
two. They are less than half a pixel off the circle. -/
structure RoundOffsets (radius : ℤ) (offsets : Set (ℤ × ℤ)) : Prop where
  symmetric : ∀ (o : Octant) (a b : ℤ), o.place a b ∈ offsets ↔ (a, b) ∈ offsets
  unique : ∀ (o : Octant) (a b b' : ℤ), 0 ≤ a → a ≤ b → a ≤ b' → o.place a b ∈ offsets → o.place a b' ∈ offsets → b = b'
  complete : ∀ (o : Octant) (a : ℤ), 0 ≤ a → 2 * a ^ 2 ≤ radius ^ 2 → ∃ b, a ≤ b ∧ o.place a b ∈ offsets
  near : ∀ d ∈ offsets, |√((d.1 ^ 2 + d.2 ^ 2 : ℤ) : ℝ) - radius| < 1 / 2

theorem roundOffsets_exactOutline (x y : ℤ) (hradius : 0 ≤ radius) :
    RoundOffsets radius (offsetsFrom x y (exactOutline x y radius)) := by
  rw [offsetsFrom_exactOutline x y hradius]
  split
  · rename_i hzero
    subst hzero
    refine ⟨fun o a b => ?_, fun o a b b' _ _ _ hb hb' => ?_, fun o a ha hcolumn => ?_, fun d hd => ?_⟩
    · simp only [Set.mem_singleton_iff, Octant.place_eq_zero, Prod.mk.injEq]
    · rw [Set.mem_singleton_iff, Octant.place_eq_zero] at hb hb'
      exact hb.2.trans hb'.2.symm
    · have hcenter : a = 0 := by nlinarith
      exact ⟨0, hcenter.le, (Octant.place_eq_zero o).mpr ⟨hcenter, rfl⟩⟩
    · rw [Set.mem_singleton_iff] at hd
      simp [hd]
  · have hpos : 0 < radius := by omega
    refine ⟨fun o a b => onOutline_place o, fun o a b b' ha hab hab' hb hb' => ?_, fun o a ha hcolumn => ?_,
      fun d hd => abs_sqrt_sub_lt hradius hd⟩
    · exact row_unique ha hab hab' ((onOutline_place o).mp hb) ((onOutline_place o).mp hb')
    · obtain ⟨b, hab, hwalk⟩ := OnWalk.exists_row hpos ha hcolumn
      exact ⟨b, hab, (onOutline_place o).mpr hwalk.onOutline⟩

/-- An outline returns exactly if its coordinates on the axes are words and the radius is `2 ^ 62` at most. Then the loop
ends, and the offsets of the points are the pixels nearest to the circle, in all octants alike. -/
theorem outline_offsets (hradius : 0 ≤ radius) :
    (outline? x y radius ≠ none ↔ HasRoom x y radius) ∧
    ∀ points, outline? x y radius = some points →
      (∃ walk places, IntWalk.start Register.checked radius = some walk ∧ walk.Runs places ∧
        points = [(x, y + radius), (x, y - radius), (x + radius, y), (x - radius, y)] ++ places.flatMap (around x y)) ∧
      offsetsFrom x y points = (if radius = 0 then {(0, 0)} else {d | OnOutline radius d.1 d.2}) ∧
      RoundOffsets radius (offsetsFrom x y points) := by
  refine ⟨outline?_ne_none_iff hradius, fun points hpoints => ?_⟩
  obtain ⟨hroom, rfl⟩ := (outline?_eq_some_iff hradius).mp hpoints
  obtain ⟨walk, hstart, hruns⟩ := IntWalk.runs_start hradius hroom.deltaY
  refine ⟨⟨walk, _, hstart, hruns, ?_⟩, offsetsFrom_exactOutline x y hradius, roundOffsets_exactOutline x y hradius⟩
  rw [exactOutline_eq, outlinePoints]

theorem outline_offsets_three : (0 : ℤ) ≤ 3 ∧ ∃ points, outline? (-4) 7 3 = some points ∧
    (2, -2) ∈ offsetsFrom (-4) 7 points ∧ (3, -2) ∉ offsetsFrom (-4) 7 points := by
  have hradius : (0 : ℤ) ≤ 3 := by decide
  obtain ⟨hreturns, hpoints⟩ := @outline_offsets 3 (-4) 7 hradius
  have hroom : HasRoom (-4) 7 3 := ⟨by decide, by decide, by decide, by decide, by decide⟩
  obtain ⟨points, hsome⟩ := Option.ne_none_iff_exists'.mp (hreturns.mpr hroom)
  obtain ⟨-, hoffsets, -⟩ := hpoints points hsome
  rw [if_neg (by decide)] at hoffsets
  refine ⟨hradius, points, hsome, ?_, ?_⟩
  · rw [hoffsets]
    show OnOutline 3 2 (-2)
    decide
  · rw [hoffsets]
    show ¬ OnOutline 3 3 (-2)
    decide

/-- The greatest radius around the origin. All pixels nearest to that circle have words as coordinates, but the
walk begins with `-2 * radius`. -/
theorem outline_of_last_radius :
    (∀ d : ℤ × ℤ, OnOutline 9223372036854775807 d.1 d.2 → IsWord (0 + d.1) ∧ IsWord (0 + d.2)) ∧
      outline? 0 0 9223372036854775807 = none := by
  have hradius : (0 : ℤ) ≤ 9223372036854775807 := by decide
  refine ⟨fun d hd => ?_, ?_⟩
  · obtain ⟨hx, hy⟩ := hd.abs_le hradius
    rw [abs_le] at hx hy
    exact ⟨⟨by omega, by omega⟩, ⟨by omega, by omega⟩⟩
  · rw [← not_ne_iff, outline?_ne_none_iff hradius]
    intro hroom
    exact absurd hroom.deltaY (by decide)

end VectorRaster.Circle
