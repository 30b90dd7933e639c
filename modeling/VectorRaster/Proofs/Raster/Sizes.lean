/-
  VectorRaster.Proofs.Raster.Sizes — a frame keeps its size and its pixels.

  A frame of a size holds a pixel for every cell (`Sized.get?`). Whatever is drawn on it, a pixel,
  a stroke or a fill, it stays a frame of that size (`Sized.draw`, `Sized.fill`).
-/

import VectorRaster.Proofs.Raster.Strokes
import VectorRaster.Raster.Fill

namespace VectorRaster

open Numeric

/-- A product that is a word. -/
theorem Numeric.Word.product?_eq {m n : ℕ} (h : m * n < Word.size) : Word.product? m n = some (m * n) := by
  have hmod : m % Word.size * (n % Word.size) = m * n := by
    rcases Nat.eq_zero_or_pos m with rfl | hm
    · rw [Nat.zero_mod, Nat.zero_mul, Nat.zero_mul]
    rcases Nat.eq_zero_or_pos n with rfl | hn
    · rw [Nat.zero_mod, Nat.mul_zero, Nat.mul_zero]
    rw [Nat.mod_eq_of_lt (Nat.lt_of_le_of_lt (Nat.le_mul_of_pos_right m hn) h),
      Nat.mod_eq_of_lt (Nat.lt_of_le_of_lt (Nat.le_mul_of_pos_left n hm) h)]
  rw [Word.product?, hmod]
  exact if_pos h

/-- A scaled size that fits into words. -/
theorem FrameSize.scaled?_eq {size : FrameSize} {scale : Nat} (hwidth : size.width * scale < Word.size)
    (hheight : size.height * scale < Word.size) :
    size.scaled? scale = some ⟨size.width * scale, size.height * scale⟩ := by
  rw [scaled?, Word.product?_eq hwidth, Word.product?_eq hheight]
  rfl

/-- A frame of this size with all its pixels. -/
structure Frame.Sized (f : Frame) (width height : Nat) : Prop where
  pixels : f.pixels.size = width * height
  width : f.width = width
  height : f.height = height

namespace Frame

variable {f : Frame} {width height : Nat}

theorem Sized.own (h : f.Sized width height) : f.Sized f.width f.height := by
  obtain ⟨hpixels, rfl, rfl⟩ := h
  exact ⟨hpixels, rfl, rfl⟩

theorem Sized.blank (width height : Nat) : (Frame.blank width height).Sized width height :=
  ⟨by simp [Frame.blank], rfl, rfl⟩

theorem Sized.set (h : f.Sized width height) (x y : Nat) (p : Pixel) : (f.set x y p).Sized width height := by
  refine ⟨?_, by rw [width_set, h.width], by rw [height_set, h.height]⟩
  unfold Frame.set
  split
  · rw [Array.size_setIfInBounds, h.pixels]
  · exact h.pixels

theorem Sized.blend (h : f.Sized width height) (x y : Nat) (p : Pixel) : (f.blend x y p).Sized width height := by
  unfold Frame.blend
  split
  · exact h.set x y _
  · exact h

theorem Sized.foldl_set (p : Cell → Pixel) (cells : List Cell) (h : f.Sized width height) :
    (cells.foldl (fun f c => f.set c.x c.y (p c)) f).Sized width height := by
  induction cells generalizing f with
  | nil => exact h
  | cons c cells ih => exact ih (h.set c.x c.y (p c))

/-- Writing at some cells is seen at these and at no other. -/
theorem get?_foldl_set (p : Cell → Pixel) (cells : List Cell) (f : Frame) (c : Cell) :
    (cells.foldl (fun f c => f.set c.x c.y (p c)) f).get? c.x c.y
      = if c ∈ cells then (f.get? c.x c.y).map fun _ => p c else f.get? c.x c.y := by
  induction cells generalizing f with
  | nil => simp
  | cons d cells ih =>
    rw [List.foldl_cons, ih, get?_set]
    by_cases e : c = d
    · subst e
      simp [Function.comp_def]
    · simp [e]

/-- The pixel at a position, where there is one. -/
def pixel (f : Frame) (x y : Nat) : Pixel := (f.get? x y).getD .transparent

theorem Sized.get? (h : f.Sized width height) {x y : Nat} (hx : x < width) (hy : y < height) :
    f.get? x y = some (f.pixel x y) := by
  obtain ⟨hpixels, rfl, rfl⟩ := h
  have hindex : y * f.width + x < f.pixels.size := by
    rw [hpixels]
    exact @index_lt_area f.width f.height ⟨x, y⟩ hx hy
  have hget : f.get? x y = some f.pixels[y * f.width + x] := by
    rw [Frame.get?, decide_eq_true hx, decide_eq_true hy, Bool.and_self, if_pos rfl]
    exact Array.getElem?_eq_getElem hindex
  rw [pixel, hget, Option.getD_some]

theorem Sized.fill (h : f.Sized width height) (m : BorderMask) (color : Pixel) : (f.fill m color).Sized width height := by
  have hcells : ∀ (cells : List Cell) (f : Frame), f.Sized width height →
      (cells.foldl (fun f c => f.blend c.x c.y color) f).Sized width height := by
    intro cells
    induction cells with
    | nil => exact fun f h => h
    | cons c cells ih => exact fun f h => ih _ (h.blend c.x c.y color)
  exact hcells m.enclosedCells f h

end Frame

/-- Strokes keep the size of their frame. -/
theorem kept_sized (width height : Nat) (color? : Option Pixel) :
    Kept (fun a b => a = b ∧ a.frame.Sized width height) color? color? where
  isSome := rfl
  sameSizes := by
    rintro a _ ⟨rfl, -⟩
    exact ⟨rfl, rfl, rfl, rfl⟩
  paint := by
    rintro a _ c p q hp hq ⟨rfl, h⟩ - -
    cases hp.symm.trans hq
    exact ⟨rfl, h.blend c.x c.y p⟩
  mark := by
    rintro a _ g ⟨rfl, h⟩
    exact ⟨rfl, h⟩

theorem Frame.Sized.draw {width height : Nat} {canvas : Canvas} (h : canvas.frame.Sized width height) (b : Brush)
    (pieces : List (Primitive Float)) : (b.draw canvas pieces).frame.Sized width height :=
  ((kept_sized width height b.color?).draw ⟨rfl, h⟩ pieces).2

end VectorRaster
