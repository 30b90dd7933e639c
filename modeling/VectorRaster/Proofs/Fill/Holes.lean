/-
  VectorRaster.Proofs.Fill.Holes — what a fill finds inside a single stamp.

  A stamp is made of outlines, one for each radius below its own, and these do not meet everywhere. Seen from the
  center, a pixel begins and ends along its larger coordinate (`Circle.inner`, `Circle.outer`); it is on the outlines
  of the radii between, and there may be none.

  - A pixel that no outline comes to is between two of consecutive radii, and these come to all its neighbours
    (`Circle.Between.beside`). So the holes of a stamp are single pixels.
  - From a pixel beyond the last outline, a step along the larger coordinate leads further out
    (`Circle.inner_of_abs`), and so on to the edge of the surface (`IsDot.exists_joined_edge`).

  Main statement: `enclosedCells_dot`.
-/

import Mathlib.Tactic.IntervalCases
import VectorRaster.Proofs.Fill.Enclosed
import VectorRaster.Proofs.Raster.Stamps

namespace VectorRaster

namespace Circle

variable {r radius a b a' b' dx dy dx' dy' : ℤ}

/-! ## Pixels between outlines -/

/-- Where a pixel begins, half a pixel before its middle along its larger coordinate: how far from the center, as a
square; up to a quarter. -/
def inner (dx dy : ℤ) : ℤ := dx ^ 2 + dy ^ 2 - max |dx| |dy|

/-- Where it ends. -/
def outer (dx dy : ℤ) : ℤ := dx ^ 2 + dy ^ 2 + max |dx| |dy|

theorem onOutline_iff_inner_outer :
    OnOutline radius dx dy ↔ inner dx dy < radius ^ 2 ∧ radius ^ 2 ≤ outer dx dy := onOutline_iff

theorem sq_add_sq_le_outer (dx dy : ℤ) : dx ^ 2 + dy ^ 2 ≤ outer dx dy :=
  le_add_of_nonneg_right ((abs_nonneg dx).trans (le_max_left _ _))

theorem inner_le_outer (dx dy : ℤ) : inner dx dy ≤ outer dx dy :=
  (sub_le_self _ ((abs_nonneg dx).trans (le_max_left _ _))).trans (sq_add_sq_le_outer dx dy)

theorem inner_nonneg (dx dy : ℤ) : 0 ≤ inner dx dy := by
  have hx := Int.le_self_sq |dx|
  have hy := Int.le_self_sq |dy|
  rw [sq_abs] at hx hy
  have hmax : max |dx| |dy| ≤ dx ^ 2 + dy ^ 2 := by
    refine max_le ?_ ?_
    · linarith [sq_nonneg dy]
    · linarith [sq_nonneg dx]
  unfold inner
  omega

theorem inner_swap (dx dy : ℤ) : inner dy dx = inner dx dy := by rw [inner, inner, max_comm, add_comm (dy ^ 2)]

theorem outer_swap (dx dy : ℤ) : outer dy dx = outer dx dy := by rw [outer, outer, max_comm, add_comm (dy ^ 2)]

theorem onOutline_swap : OnOutline r dy dx ↔ OnOutline r dx dy := by
  rw [onOutline_iff_inner_outer, inner_swap, outer_swap, onOutline_iff_inner_outer]

theorem inner_abs (dx dy : ℤ) : inner |dx| |dy| = inner dx dy := by simp only [inner, sq_abs, abs_abs]

theorem outer_abs (dx dy : ℤ) : outer |dx| |dy| = outer dx dy := by simp only [outer, sq_abs, abs_abs]

theorem onOutline_abs : OnOutline r |dx| |dy| ↔ OnOutline r dx dy := by
  rw [onOutline_iff_inner_outer, inner_abs, outer_abs, onOutline_iff_inner_outer]

/-- A step outward along the larger coordinate: the next pixel begins where this one ends. -/
theorem inner_of_abs (hstep : |dx'| = |dx| + 1) (hlarger : |dy| ≤ |dx|) : inner dx' dy = outer dx dy := by
  have hmax : max |dx'| |dy| = |dx| + 1 := by rw [hstep, max_eq_left (by omega)]
  rw [inner, outer, hmax, max_eq_left hlarger, ← sq_abs dx', hstep, ← sq_abs dx]
  ring

theorem inner_of_octant (ha : 0 ≤ a) (hab : a ≤ b) : inner a b = a ^ 2 + b ^ 2 - b := by
  rw [inner, abs_of_nonneg ha, abs_of_nonneg (ha.trans hab), max_eq_right hab]

theorem outer_of_octant (ha : 0 ≤ a) (hab : a ≤ b) : outer a b = a ^ 2 + b ^ 2 + b := by
  rw [outer, abs_of_nonneg ha, abs_of_nonneg (ha.trans hab), max_eq_right hab]

/-- A pixel outside of one outline and inside of the next. -/
structure Between (r dx dy : ℤ) : Prop where
  outside : r ^ 2 ≤ inner dx dy
  inside : outer dx dy < (r + 1) ^ 2

theorem exists_between (h : ∀ r : ℕ, ¬ OnOutline r dx dy) : ∃ r : ℕ, Between r dx dy := by
  obtain ⟨n, hn⟩ := Int.eq_ofNat_of_zero_le (inner_nonneg dx dy)
  have hlow : ((n.sqrt ^ 2 : ℕ) : ℤ) ≤ n := by exact_mod_cast Nat.sqrt_le' n
  have hhigh : (n : ℤ) < (((n.sqrt + 1) ^ 2 : ℕ) : ℤ) := by exact_mod_cast Nat.lt_succ_sqrt' n
  have hnext := h (n.sqrt + 1)
  rw [onOutline_iff_inner_outer, hn] at hnext
  push_cast at hlow hhigh hnext
  refine ⟨n.sqrt, ⟨?_, ?_⟩⟩
  · rw [hn]
    exact hlow
  · by_contra hge
    exact hnext ⟨hhigh, not_lt.mp hge⟩

/-- Offsets of two pixels that share a side. -/
def Beside (dx dy dx' dy' : ℤ) : Prop :=
  (dy' = dy ∧ (dx' = dx + 1 ∨ dx' + 1 = dx)) ∨ (dx' = dx ∧ (dy' = dy + 1 ∨ dy' + 1 = dy))

theorem Beside.swap (h : Beside dx dy dx' dy') : Beside dy dx dy' dx' := Or.symm h

theorem Beside.abs (h : Beside dx dy dx' dy') : Beside |dx| |dy| |dx'| |dy'| := by
  have hstep (n n' : ℤ) (hn : n' = n + 1 ∨ n' + 1 = n) : |n'| = |n| + 1 ∨ |n'| + 1 = |n| := by
    rcases abs_cases n with hn | hn <;> rcases abs_cases n' with hn' | hn' <;> omega
  rcases h with ⟨rfl, hx⟩ | ⟨rfl, hy⟩
  · exact .inl ⟨rfl, hstep dx dx' hx⟩
  · exact .inr ⟨rfl, hstep dy dy' hy⟩

/-- In an octant, the smaller radius is between the larger coordinate of the pixel and the sum of both. -/
theorem Between.bounds (h : Between r a b) (hr : 0 ≤ r) (ha : 0 ≤ a) (hab : a ≤ b) (hb : 0 < b) :
    b ≤ r ∧ r < a + b := by
  obtain ⟨hlow, hhigh⟩ := h
  rw [inner_of_octant ha hab] at hlow
  rw [outer_of_octant ha hab] at hhigh
  refine ⟨by nlinarith, ?_⟩
  by_contra hge
  nlinarith

theorem Between.beside_of_octant (h : Between r a b) (hr : 0 ≤ r) (ha : 0 ≤ a) (hab : a ≤ b) (hb : 0 < b)
    (hbeside : Beside a b a' b') : OnOutline r a' b' ∨ OnOutline (r + 1) a' b' := by
  obtain ⟨hbr, hrab⟩ := h.bounds hr ha hab hb
  obtain ⟨hlow, hhigh⟩ := h
  rw [inner_of_octant ha hab] at hlow
  rw [outer_of_octant ha hab] at hhigh
  -- outward along the larger coordinate
  have houtward : OnOutline (r + 1) a (b + 1) := by
    rw [onOutline_of_octant ha (by omega)]
    constructor <;> linarith
  -- toward the axis
  have haxis : OnOutline r (a - 1) b := by
    rw [onOutline_of_octant (by omega) (by omega)]
    constructor <;> linarith
  rcases hbeside with ⟨rfl, rfl | hx⟩ | ⟨rfl, rfl | hy⟩
  · rcases eq_or_lt_of_le hab with rfl | hlt
    · right
      rw [onOutline_swap]
      exact houtward
    · right
      rw [onOutline_of_octant (by omega) (by omega)]
      constructor <;> linarith
  · obtain rfl : a' = a - 1 := by omega
    exact .inl haxis
  · exact .inr houtward
  · obtain rfl : b' = b - 1 := by omega
    left
    rcases eq_or_lt_of_le hab with rfl | hlt
    · rw [onOutline_swap]
      exact haxis
    · rw [onOutline_of_octant ha (by omega)]
      constructor <;> linarith

theorem Between.swap (h : Between r dx dy) : Between r dy dx := by
  obtain ⟨houtside, hinside⟩ := h
  rw [← inner_swap] at houtside
  rw [← outer_swap] at hinside
  exact ⟨houtside, hinside⟩

theorem Between.beside_of_le (h : Between r dx dy) (hr : 0 ≤ r) (hle : |dx| ≤ |dy|) (hdy : dy ≠ 0)
    (hbeside : Beside dx dy dx' dy') : OnOutline r dx' dy' ∨ OnOutline (r + 1) dx' dy' := by
  obtain ⟨houtside, hinside⟩ := h
  rw [← inner_abs] at houtside
  rw [← outer_abs] at hinside
  rw [← onOutline_abs, ← onOutline_abs (r := r + 1)]
  exact Between.beside_of_octant ⟨houtside, hinside⟩ hr (abs_nonneg dx) hle (abs_pos.mpr hdy) hbeside.abs

/-- The two outlines on both sides of a pixel come to all its neighbours. -/
theorem Between.beside (h : Between r dx dy) (hr : 0 ≤ r) (hne : ¬ (dx = 0 ∧ dy = 0))
    (hbeside : Beside dx dy dx' dy') : OnOutline r dx' dy' ∨ OnOutline (r + 1) dx' dy' := by
  rcases le_total |dx| |dy| with hle | hle
  · refine h.beside_of_le hr hle ?_ hbeside
    intro hzero
    rw [hzero, abs_zero, abs_nonpos_iff] at hle
    exact hne ⟨hle, hzero⟩
  · rw [← onOutline_swap, ← onOutline_swap (r := r + 1)]
    refine h.swap.beside_of_le hr hle ?_ hbeside.swap
    intro hzero
    rw [hzero, abs_zero, abs_nonpos_iff] at hle
    exact hne ⟨hzero, hle⟩

end Circle

/-! ## Stepping outward -/

/-- One step away from a coordinate. -/
def awayFrom (k n : ℕ) : ℕ := if k ≤ n then n + 1 else n - 1

theorem awayFrom_spec {k n : ℕ} (hn : 0 < n) :
    (awayFrom k n = n + 1 ∨ awayFrom k n + 1 = n) ∧ |(awayFrom k n : ℤ) - k| = |(n : ℤ) - k| + 1 := by
  unfold awayFrom
  split
  · rw [abs_of_nonneg (by omega), abs_of_nonneg (by omega)]
    omega
  · rw [abs_of_nonpos (by omega), abs_of_neg (by omega)]
    omega

namespace Cell

/-- The horizontal distance of a cell from a center. -/
def offX (center c : Cell) : ℤ := c.x - center.x

def offY (center c : Cell) : ℤ := c.y - center.y

/-- The next cell outward from a center, along the larger coordinate. -/
def outward (center c : Cell) : Cell :=
  if |center.offY c| ≤ |center.offX c| then ⟨awayFrom center.x c.x, c.y⟩ else ⟨c.x, awayFrom center.y c.y⟩

variable {center c d : Cell}

/-- On each side of the cell, there are so many pixels of the surface, itself counted. -/
structure HasMargin (margin width height : ℕ) (c : Cell) : Prop where
  left : margin ≤ c.x + 1
  right : c.x + margin ≤ width
  up : margin ≤ c.y + 1
  down : c.y + margin ≤ height

theorem offX_eq_zero_and_offY_eq_zero : center.offX c = 0 ∧ center.offY c = 0 ↔ c = center := by
  obtain ⟨x, y⟩ := c
  obtain ⟨x', y'⟩ := center
  simp only [offX, offY, Cell.mk.injEq]
  omega

theorem NextTo.beside (h : c.NextTo d) :
    Circle.Beside (center.offX c) (center.offY c) (center.offX d) (center.offY d) := by
  unfold NextTo at h
  unfold Circle.Beside offX offY
  omega

section

variable (center) (hx : 0 < c.x) (hy : 0 < c.y)
include hx hy

theorem nextTo_outward : c.NextTo (center.outward c) := by
  obtain ⟨hstepX, -⟩ := awayFrom_spec (k := center.x) hx
  obtain ⟨hstepY, -⟩ := awayFrom_spec (k := center.y) hy
  unfold NextTo outward
  split
  · exact .inl ⟨rfl, hstepX.imp Eq.symm id⟩
  · exact .inr ⟨rfl, hstepY.imp Eq.symm id⟩

theorem inner_outward : Circle.inner (center.offX (center.outward c)) (center.offY (center.outward c))
    = Circle.outer (center.offX c) (center.offY c) := by
  obtain ⟨-, hstepX⟩ := awayFrom_spec (k := center.x) hx
  obtain ⟨-, hstepY⟩ := awayFrom_spec (k := center.y) hy
  unfold outward
  split
  · rename_i hle
    exact Circle.inner_of_abs hstepX hle
  · rename_i hgt
    rw [← Circle.inner_swap, ← Circle.outer_swap]
    exact Circle.inner_of_abs hstepY (not_le.mp hgt).le

theorem abs_outward : |center.offX (center.outward c)| + |center.offY (center.outward c)|
    = |center.offX c| + |center.offY c| + 1 := by
  obtain ⟨-, hstepX⟩ := awayFrom_spec (k := center.x) hx
  obtain ⟨-, hstepY⟩ := awayFrom_spec (k := center.y) hy
  unfold outward
  split
  · unfold offX offY
    rw [hstepX]
    ring
  · unfold offX offY
    rw [hstepY]
    ring

end

end Cell

/-! ## Dots -/

namespace BorderMask

variable {m : BorderMask} {radius : ℕ} {center c d : Cell}

/-- A mask of a single stamp that is all on the surface: the center is marked, and the outlines around it. -/
structure IsDot (m : BorderMask) (radius : ℕ) (center : Cell) : Prop where
  margin : center.HasMargin radius m.width m.height
  isBorder_iff : ∀ c, m.contains c = true → (m.isBorder c = true ↔
    c = center ∨ ∃ r < radius, Circle.OnOutline r (center.offX c) (center.offY c))

/-- A cell that no outline comes to, although it is within the last one. -/
structure Hole (radius : ℕ) (center c : Cell) : Prop where
  ne : c ≠ center
  within : Circle.outer (center.offX c) (center.offY c) < ((radius : ℤ) - 1) ^ 2
  missed : ∀ r : ℕ, ¬ Circle.OnOutline r (center.offX c) (center.offY c)

/-- A cell that is outside of all outlines. -/
structure Beyond (radius : ℕ) (center c : Cell) : Prop where
  ne : c ≠ center
  outside : ∀ r < radius, (r : ℤ) ^ 2 ≤ Circle.inner (center.offX c) (center.offY c)

theorem one_le_outer (hne : c ≠ center) : 1 ≤ Circle.outer (center.offX c) (center.offY c) := by
  by_contra hlt
  have hsquares := Circle.sq_add_sq_le_outer (center.offX c) (center.offY c)
  have hx := sq_nonneg (center.offX c)
  have hy := sq_nonneg (center.offY c)
  exact hne (Cell.offX_eq_zero_and_offY_eq_zero.mp ⟨sq_eq_zero_iff.mp (by omega), sq_eq_zero_iff.mp (by omega)⟩)

namespace Hole

variable (h : Hole radius center c)
include h

theorem three_le : 3 ≤ radius := by
  have hwithin := h.within
  have houter := one_le_outer h.ne
  by_contra hlt
  have hsmall : radius = 0 ∨ radius = 1 ∨ radius = 2 := by omega
  rcases hsmall with rfl | rfl | rfl <;> omega

theorem abs_off_lt : |center.offX c| < radius - 1 ∧ |center.offY c| < radius - 1 := by
  have hwithin := h.within
  have hradius := h.three_le
  have hsquares := Circle.sq_add_sq_le_outer (center.offX c) (center.offY c)
  have hx := sq_nonneg (center.offX c)
  have hy := sq_nonneg (center.offY c)
  exact ⟨abs_lt_of_sq_lt_sq (by omega) (by omega), abs_lt_of_sq_lt_sq (by omega) (by omega)⟩

/-- The outlines on both sides of a hole are among those of the stamp. -/
theorem onOutline_of_nextTo (hd : c.NextTo d) :
    ∃ r < radius, Circle.OnOutline r (center.offX d) (center.offY d) := by
  obtain ⟨r, hr⟩ := Circle.exists_between h.missed
  have hlast : r + 1 < radius := by
    have hradius := h.three_le
    have hsquares : (r : ℤ) ^ 2 < ((radius : ℤ) - 1) ^ 2 :=
      (hr.outside.trans (Circle.inner_le_outer _ _)).trans_lt h.within
    have hlt := lt_of_pow_lt_pow_left₀ 2 (by omega) hsquares
    omega
  have hne : ¬ (center.offX c = 0 ∧ center.offY c = 0) := by
    rw [Cell.offX_eq_zero_and_offY_eq_zero]
    exact h.ne
  rcases hr.beside (Int.natCast_nonneg r) hne hd.beside with hfirst | hsecond
  · exact ⟨r, by omega, hfirst⟩
  · exact ⟨r + 1, hlast, by exact_mod_cast hsecond⟩

end Hole

theorem Beyond.outward (h : Beyond radius center c) (hx : 0 < c.x) (hy : 0 < c.y) :
    Beyond radius center (center.outward c) := by
  refine ⟨?_, ?_⟩
  · intro heq
    have hfar := Cell.abs_outward center hx hy
    obtain ⟨hzeroX, hzeroY⟩ := Cell.offX_eq_zero_and_offY_eq_zero.mpr heq
    rw [hzeroX, hzeroY, abs_zero] at hfar
    have hnonnegX := abs_nonneg (center.offX c)
    have hnonnegY := abs_nonneg (center.offY c)
    omega
  · intro r hr
    rw [Cell.inner_outward center hx hy]
    exact (h.outside r hr).trans (Circle.inner_le_outer _ _)

namespace IsDot

variable (h : m.IsDot radius center)
include h

theorem isOpen_iff : m.IsOpen c ↔ m.contains c = true ∧ c ≠ center ∧
    ∀ r < radius, ¬ Circle.OnOutline r (center.offX c) (center.offY c) := by
  rw [IsOpen, and_congr_right_iff]
  intro hc
  rw [← Bool.not_eq_true, h.isBorder_iff c hc]
  simp only [not_or, not_exists, not_and, ne_eq]

theorem isOpen_of_beyond (hc : m.contains c = true) (hbeyond : Beyond radius center c) : m.IsOpen c := by
  refine h.isOpen_iff.mpr ⟨hc, hbeyond.ne, ?_⟩
  intro r hr hout
  exact absurd (hbeyond.outside r hr) (not_le.mpr (Circle.onOutline_iff_inner_outer.mp hout).1)

/-- An open cell is a hole or beyond the last outline. -/
theorem hole_or_beyond (hc : m.IsOpen c) : Hole radius center c ∨ Beyond radius center c := by
  obtain ⟨-, hne, hmissed⟩ := h.isOpen_iff.mp hc
  by_cases hwithin : Circle.outer (center.offX c) (center.offY c) < ((radius : ℤ) - 1) ^ 2
  · left
    refine ⟨hne, hwithin, ?_⟩
    intro r hout
    by_cases hr : r < radius
    · exact hmissed r hr hout
    · have hradius : 1 ≤ radius := by
        have houter := one_le_outer hne
        by_contra hzero
        obtain rfl : radius = 0 := by omega
        omega
      have hle := (Circle.onOutline_iff_inner_outer.mp hout).2
      nlinarith
  · right
    refine ⟨hne, ?_⟩
    intro r hr
    have hlast := hmissed (radius - 1) (by omega)
    rw [Circle.onOutline_iff_inner_outer, Nat.cast_sub (by omega), Nat.cast_one] at hlast
    have houtside : ((radius : ℤ) - 1) ^ 2 ≤ Circle.inner (center.offX c) (center.offY c) := by
      by_contra hlt
      exact hlast ⟨not_le.mp hlt, not_lt.mp hwithin⟩
    refine le_trans ?_ houtside
    exact pow_le_pow_left₀ (Int.natCast_nonneg r) (by omega) 2

/-- From beyond the last outline, all steps outward are open, up to the edge. -/
theorem exists_joined_edge (hc : m.contains c = true) (hbeyond : Beyond radius center c) :
    ∃ d, m.Joined c d ∧ m.OnEdge d := by
  -- on how far from the center a cell can be, more than this one is
  obtain ⟨n, hn⟩ : ∃ n : ℕ, (m.width + center.x + (m.height + center.y) : ℤ)
      ≤ |center.offX c| + |center.offY c| + n := by
    have hX := abs_nonneg (center.offX c)
    have hY := abs_nonneg (center.offY c)
    exact ⟨m.width + center.x + (m.height + center.y), by omega⟩
  induction n generalizing c with
  | zero =>
    obtain ⟨hwidth, hheight⟩ := contains_iff.mp hc
    have hX : |center.offX c| < m.width + center.x := by
      rw [Cell.offX, abs_lt]
      omega
    have hY : |center.offY c| < m.height + center.y := by
      rw [Cell.offY, abs_lt]
      omega
    omega
  | succ n ih =>
    by_cases hedge : m.OnEdge c
    · exact ⟨c, .refl, hedge⟩
    · obtain ⟨hwidth, hheight⟩ := contains_iff.mp hc
      unfold OnEdge at hedge
      have hx : 0 < c.x := by omega
      have hy : 0 < c.y := by omega
      have hnext := Cell.nextTo_outward center hx hy
      have hfar := Cell.abs_outward center hx hy
      have hout : m.contains (center.outward c) = true := by
        unfold Cell.NextTo at hnext
        exact contains_iff.mpr (by omega)
      have hbeyond' := hbeyond.outward hx hy
      obtain ⟨d, hjoined, hd⟩ := ih hout hbeyond' (by omega)
      have hstep : m.Step c (center.outward c) :=
        ⟨hnext, h.isOpen_of_beyond hc hbeyond, h.isOpen_of_beyond hout hbeyond'⟩
      exact ⟨d, .head hstep hjoined, hd⟩

theorem contains_of_hole (hhole : Hole radius center c) : m.contains c = true ∧ ¬ m.OnEdge c := by
  obtain ⟨hX, hY⟩ := hhole.abs_off_lt
  obtain ⟨hleft, hright, hup, hdown⟩ := h.margin
  unfold Cell.offX at hX
  unfold Cell.offY at hY
  rw [abs_lt] at hX hY
  rw [contains_iff, OnEdge]
  omega

theorem isBorder_of_nextTo_hole (hhole : Hole radius center c) (hd : c.NextTo d) : m.isBorder d = true := by
  obtain ⟨hc, hedge⟩ := h.contains_of_hole hhole
  rw [contains_iff] at hc
  unfold OnEdge at hedge
  have hin : m.contains d = true := by
    unfold Cell.NextTo at hd
    exact contains_iff.mpr (by omega)
  exact (h.isBorder_iff d hin).mpr (.inr (hhole.onOutline_of_nextTo hd))

/-- A fill takes the holes: no path leads out of them, and from any other open cell one leads to the edge. -/
theorem mem_enclosedCells_iff_hole : c ∈ m.enclosedCells ↔ Hole radius center c := by
  rw [mem_enclosedCells]
  constructor
  · intro henclosed
    rcases h.hole_or_beyond henclosed.1 with hhole | hbeyond
    · exact hhole
    · obtain ⟨d, hjoined, hedge⟩ := h.exists_joined_edge henclosed.1.1 hbeyond
      exact absurd hedge (henclosed.2 d hjoined)
  · intro hhole
    obtain ⟨hc, hedge⟩ := h.contains_of_hole hhole
    have hopen : m.IsOpen c := h.isOpen_iff.mpr ⟨hc, hhole.ne, fun r _ => hhole.missed r⟩
    refine ⟨hopen, ?_⟩
    intro d hjoined
    rcases Relation.ReflTransGen.cases_head hjoined with rfl | ⟨e, hstep, -⟩
    · exact hedge
    · have hwall := h.isBorder_of_nextTo_hole hhole hstep.1
      rw [hstep.2.2.2] at hwall
      cases hwall

end IsDot

theorem Hole.diagonal (hradius : 3 ≤ radius) (hx : |center.offX c| = 1) (hy : |center.offY c| = 1) :
    Hole radius center c := by
  have hinner : Circle.inner (center.offX c) (center.offY c) = 1 := by
    rw [Circle.inner, ← sq_abs (center.offX c), ← sq_abs (center.offY c), hx, hy]
    rfl
  have houter : Circle.outer (center.offX c) (center.offY c) = 3 := by
    rw [Circle.outer, ← sq_abs (center.offX c), ← sq_abs (center.offY c), hx, hy]
    rfl
  refine ⟨?_, ?_, ?_⟩
  · intro heq
    obtain ⟨hzero, -⟩ := Cell.offX_eq_zero_and_offY_eq_zero.mpr heq
    rw [hzero, abs_zero] at hx
    omega
  · rw [houter]
    nlinarith
  · intro r hout
    -- no square is two or three
    obtain ⟨hlow, hhigh⟩ := Circle.onOutline_iff_inner_outer.mp hout
    rw [hinner] at hlow
    rw [houter] at hhigh
    have hr : r < 2 := by nlinarith
    interval_cases r <;> omega

end BorderMask

/-! ## Stamps -/

namespace Brush

open BorderMask Numeric

variable {b : Brush} {frame : Frame} {p : GridPoint} {center : Cell}

theorem mem_circles_iff {radius : ℕ} {c : Cell} :
    (∃ r < radius, ((c.x : ℤ), (c.y : ℤ)) ∈ Circle.exactOutline center.x center.y r) ↔
      (0 < radius ∧ c = center) ∨ ∃ r < radius, Circle.OnOutline r (center.offX c) (center.offY c) := by
  have hzero : ((c.x : ℤ), (c.y : ℤ)) ∈ Circle.exactOutline center.x center.y (0 : ℕ) ↔ c = center := by
    rw [Nat.cast_zero, Circle.mem_exactOutline_zero, ← Cell.offX_eq_zero_and_offY_eq_zero, Prod.mk.injEq, Cell.offX,
      Cell.offY, sub_eq_zero, sub_eq_zero]
  have hpos (r : ℕ) (hr : 0 < r) : ((c.x : ℤ), (c.y : ℤ)) ∈ Circle.exactOutline center.x center.y r ↔
      Circle.OnOutline r (center.offX c) (center.offY c) := Circle.mem_exactOutline (by omega)
  constructor
  · intro h
    obtain ⟨r, hr, hmem⟩ := h
    rcases Nat.eq_zero_or_pos r with rfl | hr0
    · exact .inl ⟨hr, hzero.mp hmem⟩
    · exact .inr ⟨r, hr, (hpos r hr0).mp hmem⟩
  · intro h
    rcases h with ⟨hradius, hc⟩ | ⟨r, hr, hout⟩
    · exact ⟨0, hradius, hzero.mpr hc⟩
    · rcases Nat.eq_zero_or_pos r with rfl | hr0
      · -- no pixel begins before the center
        have hbegin := (Circle.onOutline_iff_inner_outer.mp hout).1
        exact absurd (Circle.inner_nonneg _ _) (not_le.mpr hbegin)
      · exact ⟨r, hr, (hpos r hr0).mpr hout⟩

/-- The mask of a single stamp. -/
def dot (b : Brush) (frame : Frame) (p : GridPoint) : BorderMask :=
  (b.stamp ⟨frame, .blank frame.width frame.height⟩ p).border

theorem isDot_dot (hcolor : b.color? ≠ none) (hcenter : p.cell? frame.width frame.height = some center)
    (hmargin : center.HasMargin b.radius frame.width frame.height) (hwidth : frame.width ≤ 2 ^ 63)
    (hheight : frame.height ≤ 2 ^ 63) : (b.dot frame p).IsDot b.radius center := by
  obtain ⟨hleft, hright, hup, hdown⟩ := hmargin
  obtain ⟨hx, hy, hw, hh⟩ := GridPoint.cell?_eq_some_iff.mp hcenter
  have hlast : (Word.lastSigned : ℤ) = 2 ^ 63 - 1 := rfl
  have hreach : b.reach = b.radius := min_eq_left (by omega)
  have hnear : b.misses frame.width frame.height p = false := by
    simp only [misses, Bool.or_eq_false_iff, decide_eq_false_iff_not]
    omega
  have hroom : ∀ r < b.reach, Circle.HasRoom p.x.toInt p.y.toInt r := by
    intro r hr
    exact ⟨by omega, by omega, by omega, by omega, by omega⟩
  have hcanvas : Canvas.Matched ⟨frame, .blank frame.width frame.height⟩ := ⟨rfl, rfl, by simp [blank]⟩
  have hstamp : b.stamp ⟨frame, .blank frame.width frame.height⟩ p
      = b.fullStamp ⟨frame, .blank frame.width frame.height⟩ p := stamp_eq_fullStamp_of_room hnear hroom
  have hsizes := holding_stamp (b := b) hcanvas.holding p
  refine ⟨⟨hleft, ?_, hup, ?_⟩, ?_⟩
  · rw [dot, hsizes.borderWidth]
    exact hright
  · rw [dot, hsizes.borderHeight]
    exact hdown
  · intro c hc
    have hin : c.x < frame.width ∧ c.y < frame.height := by
      rw [dot, contains_iff, hsizes.borderWidth, hsizes.borderHeight] at hc
      exact hc
    have hinBlank : (blank frame.width frame.height).contains c = true := contains_iff.mpr hin
    have hnearest : (blank frame.width frame.height).nearest p.x.toInt p.y.toInt = center :=
      GridPoint.nearest_of_cell? hcenter
    rw [dot, hstamp, isBorder_fullStamp_iff hcanvas, hnearest, isBorder_blank, Paints, hreach, hx, hy, mem_circles_iff]
    simp only [Bool.false_eq_true, false_or, hcolor, ne_eq, not_false_eq_true, hinBlank, hin, and_self, true_and]
    constructor
    · intro hmarked
      rcases hmarked with (⟨-, rfl⟩ | hcircle) | rfl
      · exact .inl rfl
      · exact .inr hcircle
      · exact .inl rfl
    · intro hmarked
      rcases hmarked with rfl | hcircle
      · exact .inr rfl
      · exact .inl (.inr hcircle)

/-- What a fill finds inside a single stamp that is all on a surface with sides in words: the pixels within its last
outline that no outline of any radius comes to. All pixels next to such a hole are marked, so none is larger than a
pixel. Below a radius of three there are none, and from there on the four pixels diagonally next to the center always
are. -/
theorem enclosedCells_dot (hcolor : b.color? ≠ none) (hcenter : p.cell? frame.width frame.height = some center)
    (hmargin : center.HasMargin b.radius frame.width frame.height) (hwidth : frame.width ≤ 2 ^ 63)
    (hheight : frame.height ≤ 2 ^ 63) :
    (∀ c, c ∈ (b.dot frame p).enclosedCells ↔ Hole b.radius center c) ∧
    (∀ c ∈ (b.dot frame p).enclosedCells, ∀ d, c.NextTo d → (b.dot frame p).isBorder d = true) ∧
    (b.radius < 3 → (b.dot frame p).enclosedCells = []) ∧
    (3 ≤ b.radius → ∀ c : Cell, |center.offX c| = 1 → |center.offY c| = 1 → c ∈ (b.dot frame p).enclosedCells) := by
  have hdot := isDot_dot hcolor hcenter hmargin hwidth hheight
  have hholes (c : Cell) : c ∈ (b.dot frame p).enclosedCells ↔ Hole b.radius center c :=
    hdot.mem_enclosedCells_iff_hole
  refine ⟨hholes, ?_, ?_, ?_⟩
  · intro c hc d hd
    exact hdot.isBorder_of_nextTo_hole ((hholes c).mp hc) hd
  · intro hradius
    rw [List.eq_nil_iff_forall_not_mem]
    intro c hc
    have hthree := ((hholes c).mp hc).three_le
    omega
  · intro hradius c hX hY
    exact (hholes c).mpr (.diagonal hradius hX hY)

/-- A stamp of radius 4 next to the left side of a surface of 8 by 9 pixels. -/
theorem enclosedCells_dot_near_side :
    let b : Brush := ⟨some ⟨255, 0, 0, 255⟩, 4⟩
    let frame : Frame := .blank 8 9
    let p : GridPoint := ⟨3, 4⟩
    let center : Cell := ⟨3, 4⟩
    p.cell? 8 9 = some center ∧ center.HasMargin 4 8 9 ∧ (⟨2, 5⟩ : Cell) ∈ (b.dot frame p).enclosedCells ∧
      (b.dot frame p).isBorder ⟨2, 6⟩ = true ∧ (⟨0, 0⟩ : Cell) ∉ (b.dot frame p).enclosedCells := by
  intro b frame p center
  have hcenter : p.cell? 8 9 = some center := by decide
  have hmargin : center.HasMargin 4 8 9 := ⟨by decide, by decide, by decide, by decide⟩
  obtain ⟨hholes, hwalls, -, hdiagonal⟩ :=
    @enclosedCells_dot b frame p center nofun hcenter hmargin (by decide) (by decide)
  have hhole : (⟨2, 5⟩ : Cell) ∈ (b.dot frame p).enclosedCells := hdiagonal (by decide) ⟨2, 5⟩ (by decide) (by decide)
  have hbelow : Cell.NextTo ⟨2, 5⟩ ⟨2, 6⟩ := .inr ⟨rfl, .inl rfl⟩
  refine ⟨hcenter, hmargin, hhole, hwalls ⟨2, 5⟩ hhole ⟨2, 6⟩ hbelow, ?_⟩
  intro hcorner
  exact absurd ((hholes ⟨0, 0⟩).mp hcorner).within (by decide)

/-- A dot of radius 3, with its center further than that from all sides: four pixels in it stay open. -/
theorem dot_with_holes :
    let b : Brush := ⟨some ⟨255, 0, 0, 255⟩, 3⟩
    let p : GridPoint := ⟨3, 3⟩
    b.color? ≠ none ∧ p.cell? 7 7 = some ⟨3, 3⟩ ∧ b.radius ≤ 3 ∧ 3 + b.radius < 7 ∧
      (b.dot (.blank 7 7) p).enclosedCells = [⟨2, 2⟩, ⟨4, 2⟩, ⟨2, 4⟩, ⟨4, 4⟩] :=
  ⟨nofun, by decide, by decide, by decide, by decide +kernel⟩

end Brush

end VectorRaster
