/-
  VectorRaster.Proofs.Raster.Strokes — what a stroke does to its canvas, one touch at a time.

  Whatever a brush draws, it touches the canvas in two ways only: it paints a cell of the frame
  and marks it, or it marks the cell of the mask nearest to a point. Which touches it makes is
  decided by the sizes of frame and mask, the radius, and whether there is a colour: not by
  the pixels, the marks or the colour itself. So two strokes of one outline on two canvases
  of the same sizes touch both in the same places, and a relation between the canvases that
  every touch keeps (`Kept`) holds after the strokes if it held before (`Kept.draw`). This
  passes through all the layers of drawing: points, rings, stamps, samples, stretches, pieces.
-/

import VectorRaster.Proofs.Raster.Cells
import VectorRaster.Raster.Trace

namespace VectorRaster

/-- A point inside a surface is one of its cells. -/
theorem GridPoint.lt_of_cell? {p : GridPoint} {width height : Nat} {c : Cell} (h : p.cell? width height = some c) :
    c.x < width ∧ c.y < height := by
  unfold cell? at h
  split at h
  · cases h
  · dsimp only at h
    split at h
    · rename_i hb
      cases h
      simpa using hb
    · cases h

structure Canvas.SameSizes (a b : Canvas) : Prop where
  frameWidth : a.frame.width = b.frame.width
  frameHeight : a.frame.height = b.frame.height
  borderWidth : a.border.width = b.border.width
  borderHeight : a.border.height = b.border.height

/-- A relation between two canvases of the same sizes that is kept when both are touched in the same
place, by brushes of which both or neither have a colour. -/
structure Kept (P : Canvas → Canvas → Prop) (color₁? color₂? : Option Pixel) : Prop where
  isSome : color₁?.isSome = color₂?.isSome
  sameSizes : ∀ {a b}, P a b → a.SameSizes b
  paint : ∀ {a b c p q}, color₁? = some p → color₂? = some q → P a b → c.x < a.frame.width → c.y < a.frame.height →
    P (a.paint p c) (b.paint q c)
  mark : ∀ {a b} (g : GridPoint), P a b → P (a.markClamped g) (b.markClamped g)

namespace Kept

variable {P : Canvas → Canvas → Prop} {color₁? color₂? : Option Pixel} {a b : Canvas} {p q : Pixel} {radius : Nat}

/-! ## Points, rings and stamps -/

theorem paintAt (h : Kept P (some p) (some q)) (hP : P a b) (x y : Int64) : P (a.paintAt p x y) (b.paintAt q x y) := by
  have hs := h.sameSizes hP
  unfold Canvas.paintAt
  rw [← hs.frameWidth, ← hs.frameHeight]
  split
  · rename_i c hc
    obtain ⟨hx, hy⟩ := GridPoint.lt_of_cell? hc
    exact h.paint rfl rfl hP hx hy
  · exact hP

theorem ring (h : Kept P (some p) (some q)) (hP : P a b) (g : GridPoint) (r : Nat) :
    P (Brush.ring p g a r) (Brush.ring q g b r) := by
  unfold Brush.ring
  rw [Circle.foldOutline_eq_foldl, Circle.foldOutline_eq_foldl]
  exact List.foldl_rel hP fun o _ a b hP => h.paintAt hP o.x o.y

theorem stamp (h : Kept P color₁? color₂?) (hP : P a b) (g : GridPoint) :
    P (Brush.stamp ⟨color₁?, radius⟩ a g) (Brush.stamp ⟨color₂?, radius⟩ b g) := by
  have hs := h.sameSizes hP
  have hmiss : Brush.misses ⟨color₁?, radius⟩ a.frame.width a.frame.height g
      = Brush.misses ⟨color₂?, radius⟩ b.frame.width b.frame.height g := by
    rw [hs.frameWidth, hs.frameHeight]
    rfl
  unfold Brush.stamp
  rw [hmiss]
  split
  · exact h.mark g hP
  · cases color₁? with
    | none =>
      cases color₂? with
      | none => exact h.mark g hP
      | some q => cases h.isSome
    | some p =>
      cases color₂? with
      | none => cases h.isSome
      | some q => exact h.mark g (List.foldl_rel hP fun r _ a b hP => h.ring hP g r)

/-! ## Curves -/

section Curves

variable {α : Type} [Numeric.Scalar α]

theorem stampSamples (h : Kept P color₁? color₂?) (hP : P a b) (terms : List (Curve.Term α)) (count n first : Nat) :
    P (Brush.stampSamples ⟨color₁?, radius⟩ terms count n first a)
      (Brush.stampSamples ⟨color₂?, radius⟩ terms count n first b) := by
  rw [Brush.stampSamples_eq_foldl, Brush.stampSamples_eq_foldl]
  exact List.foldl_rel hP fun g _ a b hP => h.stamp hP g

/-- Both strokes leave out the same stretches. -/
theorem settles_eq (h : Kept P color₁? color₂?) (hP : P a b) (box : PixelBox) :
    Brush.settles ⟨color₁?, radius⟩ a box = Brush.settles ⟨color₂?, radius⟩ b box := by
  have hs := h.sameSizes hP
  have hnone : color₁?.isNone = color₂?.isNone := by
    rw [← Option.not_isSome, ← Option.not_isSome, h.isSome]
  unfold Brush.settles BorderMask.nearest
  rw [hnone, hs.frameWidth, hs.frameHeight, hs.borderWidth, hs.borderHeight]
  rfl

theorem drawStretch (h : Kept P color₁? color₂?) (points : List (Point α)) (terms : List (Curve.Term α))
    (count depth n first : Nat) (hP : P a b) :
    P (Brush.drawStretch ⟨color₁?, radius⟩ points terms count depth n first a)
      (Brush.drawStretch ⟨color₂?, radius⟩ points terms count depth n first b) := by
  induction depth generalizing n first a b with
  | zero => exact h.stampSamples hP terms count n first
  | succ depth ih =>
    unfold Brush.drawStretch
    split
    · exact h.stampSamples hP terms count n first
    · have hsettles : Brush.settles ⟨color₁?, radius⟩ a = Brush.settles ⟨color₂?, radius⟩ b :=
        funext fun box => h.settles_eq hP box
      simp only [hsettles]
      split
      · exact h.mark _ hP
      · exact ih _ _ (ih _ _ hP)

theorem drawPiece (h : Kept P color₁? color₂?) (hP : P a b) (piece : Primitive α) :
    P (Brush.drawPiece ⟨color₁?, radius⟩ a piece) (Brush.drawPiece ⟨color₂?, radius⟩ b piece) := by
  have hs := h.sameSizes hP
  have hcount : Brush.stepCount ⟨color₁?, radius⟩ a.frame piece.controlPoints
      = Brush.stepCount ⟨color₂?, radius⟩ b.frame piece.controlPoints := by
    simp only [Brush.stepCount, hs.frameWidth, hs.frameHeight]
  unfold Brush.drawPiece
  simp only [hcount]
  split
  · exact h.drawStretch _ _ _ _ _ _ hP
  · unfold Brush.drawCurve
    simp only [hcount]
    exact h.stampSamples hP _ _ _ _

/-- A relation that every touch keeps is kept by the strokes of an outline. -/
theorem draw (h : Kept P color₁? color₂?) (hP : P a b) (pieces : List (Primitive α)) :
    P (Brush.draw ⟨color₁?, radius⟩ a pieces) (Brush.draw ⟨color₂?, radius⟩ b pieces) :=
  List.foldl_rel hP fun piece _ _ _ hP => h.drawPiece hP piece

end Curves

end Kept

end VectorRaster
