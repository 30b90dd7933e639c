/-
  VectorRaster.Proofs.Raster.Overflow — which stamps can be calculated in words.

  A stamp keeps away from centers that are too far from the surface, and takes sums that stop at the last word to tell
  which are. Near centers it offsets by every radius below its reach, and the radius and the center can both be as
  large as words are.

  Proved (`stamp_calculated`): which stamps overflow, exactly; so none on a surface that, grown by the radius on both
  sides, is at most `2 ^ 63` wide and high. A stamp that does not overflow is what its circles draw in integers.
  At the last word, a stamp overflows with its second circle (`stamp_overflows_at_last_word`).
-/

import VectorRaster.Proofs.Raster.Marks
import VectorRaster.Proofs.Raster.Outlines
import VectorRaster.Render.Outline

namespace VectorRaster

open Numeric

/-! ## Stamps -/

/-- The cell of a point, on a surface of this size. -/
def Cell.at? (width height : ℕ) (q : ℤ × ℤ) : Option Cell :=
  if 0 ≤ q.1 ∧ 0 ≤ q.2 ∧ q.1 < width ∧ q.2 < height then some ⟨q.1.toNat, q.2.toNat⟩ else none

theorem Cell.at?_eq_some_iff {width height : ℕ} {q : ℤ × ℤ} {c : Cell} :
    Cell.at? width height q = some c ↔ q = ((c.x : ℤ), (c.y : ℤ)) ∧ c.x < width ∧ c.y < height := by
  obtain ⟨qx, qy⟩ := q
  obtain ⟨x, y⟩ := c
  simp only [Cell.at?, Prod.mk.injEq]
  constructor
  · intro h
    split at h
    · cases h
      omega
    · cases h
  · intro h
    rw [if_pos (by omega)]
    simp only [Option.some.injEq, Cell.mk.injEq]
    omega

theorem GridPoint.cell?_eq_some_iff {p : GridPoint} {width height : ℕ} {c : Cell} :
    p.cell? width height = some c ↔ p.x.toInt = c.x ∧ p.y.toInt = c.y ∧ c.x < width ∧ c.y < height := by
  constructor
  · intro h
    obtain ⟨hx, hy⟩ := toInt_of_cell? h
    exact ⟨hx, hy, lt_of_cell? h⟩
  · intro h
    obtain ⟨hx, hy, hw, hh⟩ := h
    have hword : ∀ (n : Int64) (k : ℕ), n.toInt = k → ¬ n < 0 ∧ n.toUInt64.toNat = k := by
      intro n k hn
      have hnonneg : 0 ≤ n := by
        rw [Int64.le_iff_toInt_le, hn]
        exact Int.natCast_nonneg k
      refine ⟨Int64.not_lt.mpr hnonneg, ?_⟩
      rw [Int64.toNat_toUInt64_of_le hnonneg, ← Int64.toNat_toInt, hn, Int.toNat_natCast]
    obtain ⟨hx0, hxk⟩ := hword p.x c.x hx
    obtain ⟨hy0, hyk⟩ := hword p.y c.y hy
    unfold cell?
    simp [hx0, hy0, hxk, hyk, hw, hh]

/-- A point in words has the cell that it has in integers. -/
theorem GridPoint.cell?_ofInt {q : ℤ × ℤ} (h : IsWord q.1 ∧ IsWord q.2) (width height : ℕ) :
    (⟨.ofInt q.1, .ofInt q.2⟩ : GridPoint).cell? width height = Cell.at? width height q := by
  obtain ⟨⟨hx, hx'⟩, hy, hy'⟩ := h
  ext c
  rw [cell?_eq_some_iff, Cell.at?_eq_some_iff, Int64.toInt_ofInt_of_le hx hx', Int64.toInt_ofInt_of_le hy hy',
    Prod.ext_iff, and_assoc]

theorem foldlM_eq_pure {m : Type → Type} [Monad m] [LawfulMonad m] {α β : Type} {f : β → α → m β} {g : β → α → β}
    {as : List α} (h : ∀ b, ∀ a ∈ as, f b a = pure (g b a)) (b : β) : as.foldlM f b = pure (as.foldl g b) := by
  induction as generalizing b with
  | nil => rfl
  | cons a as ih =>
    rw [List.foldlM_cons, h b a List.mem_cons_self, pure_bind, List.foldl_cons]
    exact ih (fun b a ha => h b a (List.mem_cons_of_mem _ ha)) _

theorem exists_of_foldlM {α β : Type} {f : β → α → Option β} {as : List α} {b c : β} (h : as.foldlM f b = some c) :
    ∀ a ∈ as, ∃ b' c', f b' a = some c' := by
  induction as generalizing b with
  | nil => exact fun a ha => nomatch ha
  | cons a as ih =>
    simp only [List.foldlM_cons, bind, Option.bind_eq_some_iff] at h
    obtain ⟨d, hd, hrest⟩ := h
    intro a' ha'
    rcases List.mem_cons.mp ha' with rfl | ha'
    · exact ⟨b, d, hd⟩
    · exact ih hrest a' ha'

namespace Brush

/-- Paints a point, if it is on the surface and the brush has a colour. -/
def dab (b : Brush) (canvas : Canvas) (q : ℤ × ℤ) : Canvas :=
  match b.color?, Cell.at? canvas.frame.width canvas.frame.height q with
  | some color, some c => canvas.paint color c
  | _, _ => canvas

section

variable {m : Type → Type} [Monad m] (fit : ℤ → m ℤ)

/-- The circles of a stamp, wherever its center is. -/
def fullStampIn (b : Brush) (canvas : Canvas) (p : GridPoint) : m Canvas := do
  let painted ← (List.range b.reach).foldlM (fun canvas (r : ℕ) => do
    let points ← Circle.outlineIn fit p.x.toInt p.y.toInt r
    return points.foldl b.dab canvas) canvas
  return painted.markClamped p

/-- A stamp: its circles are left out where the center is too far from the surface. The sums that tell stop at the last
word. -/
def stampIn (b : Brush) (canvas : Canvas) (p : GridPoint) : m Canvas := do
  let least ← fit (-b.reach)
  if p.x.toInt < least || p.y.toInt < least || min (canvas.frame.width + b.reach) Word.lastSigned < p.x.toInt
      || min (canvas.frame.height + b.reach) Word.lastSigned < p.y.toInt then
    return canvas.markClamped p
  else fullStampIn fit b canvas p

end

/-- A stamp of which all circles are drawn, in integers of any size. -/
def fullStamp (b : Brush) (canvas : Canvas) (p : GridPoint) : Canvas := (fullStampIn Register.unbounded b canvas p).run

variable {b : Brush} {canvas : Canvas} {p : GridPoint}

theorem fullStamp_eq (b : Brush) (canvas : Canvas) (p : GridPoint) : b.fullStamp canvas p
    = ((List.range b.reach).foldl (fun canvas (r : ℕ) =>
        (Circle.exactOutline p.x.toInt p.y.toInt r).foldl b.dab canvas) canvas).markClamped p := by
  rw [fullStamp, fullStampIn, foldlM_eq_pure (g := fun canvas (r : ℕ) =>
    (Circle.exactOutline p.x.toInt p.y.toInt r).foldl b.dab canvas)]
  · rfl
  · intro canvas r _
    rfl

/-! ### Calculated in words -/

theorem fullStampIn_checked (h : ∀ r < b.reach, Circle.HasRoom p.x.toInt p.y.toInt r) :
    fullStampIn Register.checked b canvas p = some (b.fullStamp canvas p) := by
  rw [fullStampIn, fullStamp_eq, foldlM_eq_pure (g := fun canvas (r : ℕ) =>
    (Circle.exactOutline p.x.toInt p.y.toInt r).foldl b.dab canvas)]
  · rfl
  · intro canvas r hr
    rw [Circle.outlineIn_checked (Int.natCast_nonneg r) (h r (List.mem_range.mp hr))]
    rfl

theorem hasRoom_of_fullStampIn {canvas' : Canvas} (h : fullStampIn Register.checked b canvas p = some canvas') :
    ∀ r < b.reach, Circle.HasRoom p.x.toInt p.y.toInt r := by
  simp only [fullStampIn, bind, Option.bind_eq_some_iff] at h
  obtain ⟨painted, hpainted, -⟩ := h
  intro r hr
  obtain ⟨before, after, hcircle⟩ := exists_of_foldlM hpainted r (List.mem_range.mpr hr)
  rw [Option.bind_eq_some_iff] at hcircle
  obtain ⟨points, hpoints, -⟩ := hcircle
  exact Circle.hasRoom_of_outlineIn hpoints

theorem paintAt_eq_dab {color : Pixel} (hcolor : b.color? = some color) {q : ℤ × ℤ} (hq : IsWord q.1 ∧ IsWord q.2)
    (canvas : Canvas) : canvas.paintAt color (.ofInt q.1) (.ofInt q.2) = b.dab canvas q := by
  rw [Canvas.paintAt, GridPoint.cell?_ofInt hq, dab, hcolor]
  cases Cell.at? canvas.frame.width canvas.frame.height q <;> rfl

theorem dab_of_colorless (hcolor : b.color? = none) (canvas : Canvas) (q : ℤ × ℤ) : b.dab canvas q = canvas := by
  rw [dab, hcolor]

theorem ring_eq {color : Pixel} (hcolor : b.color? = some color) {r : ℕ}
    (h : Circle.HasRoom p.x.toInt p.y.toInt r) (canvas : Canvas) :
    ring color p canvas r = (Circle.exactOutline p.x.toInt p.y.toInt r).foldl b.dab canvas := by
  have hr : (0 : ℤ) ≤ r := Int.natCast_nonneg r
  rw [ring, Circle.foldOutline_eq_foldl, ← Int64.ofInt_eq_ofNat, Circle.outline_eq_exact p.x p.y hr h.deltaY,
    List.foldl_map]
  refine List.foldl_ext _ _ _ fun canvas q hq => ?_
  obtain ⟨hx, hy⟩ := Circle.abs_le_of_mem_exactOutline hr hq
  exact paintAt_eq_dab hcolor (h.isWord hx hy) canvas

/-- Where the words are wide enough, a stamp near the surface is all its circles. -/
theorem stamp_eq_fullStamp_of_room (hnear : b.misses canvas.frame.width canvas.frame.height p = false)
    (h : ∀ r < b.reach, Circle.HasRoom p.x.toInt p.y.toInt r) : b.stamp canvas p = b.fullStamp canvas p := by
  rw [stamp, hnear, if_neg Bool.false_ne_true, fullStamp_eq]
  cases hcolor : b.color? with
  | none =>
    have hdab : b.dab = fun canvas _ => canvas := by
      funext canvas q
      exact dab_of_colorless hcolor canvas q
    simp only [hdab, List.foldl_fixed]
  | some color =>
    refine congrArg (Canvas.markClamped · p) ?_
    refine List.foldl_ext _ _ _ fun canvas r hr => ?_
    exact ring_eq hcolor (h r (List.mem_range.mp hr)) canvas

theorem reach_le (b : Brush) : (b.reach : ℤ) < 2 ^ 63 := by
  have hle : b.reach ≤ Word.lastSigned := min_le_right _ _
  have hlast : Word.lastSigned = 9223372036854775807 := rfl
  omega

/-- The sums that stop at the last word tell the same centers as exact ones. -/
theorem stampIn_checked (b : Brush) (canvas : Canvas) (p : GridPoint) : stampIn Register.checked b canvas p
    = if b.misses canvas.frame.width canvas.frame.height p then some (canvas.markClamped p)
      else fullStampIn Register.checked b canvas p := by
  have hreach := b.reach_le
  have hleast : IsWord (-(b.reach : ℤ)) := ⟨by omega, by omega⟩
  have hlast : (Word.lastSigned : ℤ) = 2 ^ 63 - 1 := rfl
  have hcap : ∀ (size : ℕ) (n : Int64),
      ((min (size + b.reach) Word.lastSigned : ℕ) : ℤ) < n.toInt ↔ (size : ℤ) + b.reach < n.toInt := by
    intro size n
    have hn := Int64.toInt_lt n
    omega
  rw [stampIn, checked_of_isWord hleast, misses]
  simp only [bind, Option.bind, hcap]
  rfl

theorem stampIn_checked_ne_none_iff : stampIn Register.checked b canvas p ≠ none ↔
    b.misses canvas.frame.width canvas.frame.height p = true ∨ ∀ r < b.reach, Circle.HasRoom p.x.toInt p.y.toInt r := by
  rw [stampIn_checked]
  by_cases hmiss : b.misses canvas.frame.width canvas.frame.height p = true
  · simp [hmiss]
  · rw [if_neg hmiss]
    constructor
    · intro h
      obtain ⟨canvas', hfull⟩ := Option.ne_none_iff_exists'.mp h
      exact .inr (hasRoom_of_fullStampIn hfull)
    · intro h
      rw [fullStampIn_checked (h.resolve_left hmiss)]
      exact Option.some_ne_none _

theorem forall_hasRoom_iff {x y : ℤ} : (∀ r < b.reach, Circle.HasRoom x y r) ↔
    b.reach = 0 ∨ Circle.HasRoom x y (b.reach - 1) := by
  constructor
  · intro h
    rcases Nat.eq_zero_or_pos b.reach with hzero | hpos
    · exact .inl hzero
    · have hlast := h (b.reach - 1) (by omega)
      rw [Nat.cast_sub hpos] at hlast
      exact .inr hlast
  · intro h r hr
    rcases h with hzero | hroom
    · omega
    · exact hroom.mono (by omega)

/-- Where the surface is no wider than words are with the radius on both sides, a circle around a center in reach has
room. -/
theorem hasRoom_of_size {width height : ℕ} (hnear : b.misses width height p = false)
    (hwidth : width + 2 * b.radius ≤ 2 ^ 63) (hheight : height + 2 * b.radius ≤ 2 ^ 63) :
    Circle.HasRoom p.x.toInt p.y.toInt (b.reach - 1) := by
  have hradius : b.reach ≤ b.radius := min_le_left _ _
  simp only [misses, Bool.or_eq_false_iff, decide_eq_false_iff_not] at hnear
  exact ⟨by omega, by omega, by omega, by omega, by omega⟩

/-- Which stamps can be calculated in words: those that are out of reach, those of no circles, and those whose widest
circle has its outermost numbers in words. No other operation of a stamp can overflow. Where the surface is no wider
than words are with the radius on both sides, all can. -/
theorem stamp_calculated (b : Brush) (canvas : Canvas) (p : GridPoint) :
    (stampIn Register.checked b canvas p = some (b.stamp canvas p) ↔
      b.misses canvas.frame.width canvas.frame.height p = true ∨ b.reach = 0 ∨
        Circle.HasRoom p.x.toInt p.y.toInt (b.reach - 1)) ∧
    (stampIn Register.checked b canvas p ≠ some (b.stamp canvas p) → stampIn Register.checked b canvas p = none) ∧
    (canvas.frame.width + 2 * b.radius ≤ 2 ^ 63 → canvas.frame.height + 2 * b.radius ≤ 2 ^ 63 →
      stampIn Register.checked b canvas p = some (b.stamp canvas p)) := by
  rw [stampIn_checked]
  by_cases hmiss : b.misses canvas.frame.width canvas.frame.height p = true
  · have hstamp : b.stamp canvas p = canvas.markClamped p := by rw [stamp, if_pos hmiss]
    simp only [hmiss, if_true, hstamp, true_or, ne_eq, not_true_eq_false, false_implies, implies_true, and_self]
  · rw [if_neg hmiss]
    have hnear : b.misses canvas.frame.width canvas.frame.height p = false := by simpa using hmiss
    have hall (h : ∀ r < b.reach, Circle.HasRoom p.x.toInt p.y.toInt r) :
        fullStampIn Register.checked b canvas p = some (b.stamp canvas p) := by
      rw [stamp_eq_fullStamp_of_room hnear h]
      exact fullStampIn_checked h
    refine ⟨?_, ?_, ?_⟩
    · rw [← forall_hasRoom_iff]
      constructor
      · intro h
        exact .inr (hasRoom_of_fullStampIn h)
      · intro h
        exact hall (h.resolve_left hmiss)
    · intro hne
      rw [Option.eq_none_iff_forall_ne_some]
      intro canvas' h
      exact hne (hall (hasRoom_of_fullStampIn h))
    · intro hwidth hheight
      exact hall (forall_hasRoom_iff.mpr (.inr (hasRoom_of_size hnear hwidth hheight)))

/-- A wide stroke far off on a surface of four pixels by three. -/
theorem stamp_calculated_wide :
    let b : Brush := ⟨some ⟨255, 0, 0, 255⟩, 2 ^ 61⟩
    let canvas : Canvas := ⟨.blank 4 3, .blank 4 3⟩
    let p : GridPoint := ⟨1000000, -1000⟩
    4 + 2 * 2 ^ 61 ≤ 2 ^ 63 ∧ b.misses 4 3 p = false ∧
      stampIn Register.checked b canvas p = some (b.stamp canvas p) := by
  intro b canvas p
  have hsize : 4 + 2 * 2 ^ 61 ≤ 2 ^ 63 := by decide
  exact ⟨hsize, by decide, (stamp_calculated b canvas p).2.2 hsize (by decide)⟩

/-- A stroke of width 1e300 at 1e300 has its centers and its reach at the last word. They are not too far from the
surface, and the second circle overflows with its rightmost point: neither it nor the stamp returns. -/
theorem stamp_overflows_at_last_word :
    let b : Brush := ⟨some ⟨255, 0, 0, 255⟩, strokeRadius 1e300 .identity⟩
    let canvas : Canvas := ⟨.blank 1 1, .blank 1 1⟩
    let p : GridPoint := .nearest (⟨1e300, 0.0⟩ : Point Float)
    b.radius = 2 ^ 64 - 1 ∧ p = ⟨9223372036854775807, 0⟩ ∧ b.misses 1 1 p = false ∧
      Circle.outline? p.x.toInt p.y.toInt 1 = none ∧ stampIn Register.checked b canvas p = none := by
  intro b canvas p
  have hradius : b.radius = 2 ^ 64 - 1 := by decide +kernel
  have hp : p = ⟨9223372036854775807, 0⟩ := by decide +kernel
  have hmiss : b.misses 1 1 p = false := by
    rw [hp, misses, reach, hradius]
    decide
  have hroom : ¬ Circle.HasRoom p.x.toInt p.y.toInt 1 := by
    intro h
    have hright := h.right
    rw [hp] at hright
    exact absurd hright (by decide)
  have hone : 1 < b.reach := by
    rw [reach, hradius]
    decide
  refine ⟨hradius, hp, hmiss, ?_, ?_⟩
  · rw [← not_ne_iff, Circle.outline?_ne_none_iff Int.one_nonneg]
    exact hroom
  · have hnear : ¬ b.misses canvas.frame.width canvas.frame.height p = true := Bool.eq_false_iff.mp hmiss
    rw [stampIn_checked, if_neg hnear, Option.eq_none_iff_forall_ne_some]
    intro canvas' h
    exact hroom (by simpa using hasRoom_of_fullStampIn h 1 hone)

end Brush

end VectorRaster
