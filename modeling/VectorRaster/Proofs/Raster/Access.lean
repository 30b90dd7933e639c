/-
  VectorRaster.Proofs.Raster.Access — when every access to a frame returns.

  A frame is made of a buffer if the number of its pixels is the product of the sides as words. If
  that product fits into a word, the frame holds a pixel for every position, no index wraps, and
  every access returns what the frame shows there (`Sized.fetch?_eq`, `Sized.store?_eq`,
  `Sized.slice?_eq`). If it does not, the buffer is too short: the first position past it is inside
  the frame, its index is exact, and reading it, writing it or reading its row does not return
  (`Short.fetch?_eq`, `Short.store?_eq`, `Short.slice?_eq`). So `ofPixels?` keeps its promise exactly
  for the sides whose product fits (`ofPixels?_returns`).
-/

import VectorRaster.Proofs.Raster.Rows
import VectorRaster.Raster.Index

namespace VectorRaster.Frame

open Numeric

variable {f : Frame} {width height : Nat} {pixels : Array Pixel}

/-- Every access returns, wherever it is made. -/
structure Returns (f : Frame) : Prop where
  fetch? : ∀ x y, (f.fetch? x y).isSome = true
  store? : ∀ x y p, (f.store? x y p).isSome = true
  slice? : ∀ y, (f.slice? y).isSome = true

theorem ofPixels?_eq_some_iff : ofPixels? width height pixels = some f ↔
    pixels.size = Word.product width height ∧ f = ⟨width, height, pixels⟩ := by
  unfold ofPixels?
  split
  · rename_i hcount
    rw [Option.some.injEq, eq_comm]
    exact ⟨fun h => ⟨hcount, h⟩, fun h => h.2⟩
  · rename_i hcount
    exact ⟨nofun, fun h => absurd h.1 hcount⟩

theorem index_eq {x y : Nat} (h : y * f.width + x < Word.size) : f.index x y = y * f.width + x := by
  have hrow : y * f.width < Word.size := Nat.lt_of_le_of_lt (Nat.le_add_right _ _) h
  rw [index, Word.product, Nat.mod_eq_of_lt hrow, Nat.mod_eq_of_lt h]

/-- Where a row ends, as a word. -/
theorem stop_eq (f : Frame) (y : Nat) :
    Word.product ((y + 1) % Word.size) f.width = (y * f.width + f.width) % Word.size := by
  rw [Word.product, Nat.mod_mul_mod, Nat.succ_mul]

/-! ## A buffer that is long enough -/

section Sized

variable (h : f.Sized width height) (hfits : width * height < Word.size)

include h hfits

theorem Sized.index_lt {x y : Nat} (hx : x < width) (hy : y < height) :
    f.index x y = y * f.width + x ∧ y * f.width + x < f.pixels.size := by
  have hinside : y * f.width + x < f.pixels.size := by
    rw [h.pixels, h.width]
    exact @index_lt_area width height ⟨x, y⟩ hx hy
  refine ⟨index_eq (Nat.lt_trans hinside ?_), hinside⟩
  rwa [h.pixels]

theorem Sized.fetch?_eq (x y : Nat) : f.fetch? x y = some (f.get? x y) := by
  unfold Frame.fetch? Frame.get?
  split
  · rename_i hinside
    simp only [h.width, h.height, Bool.and_eq_true, decide_eq_true_eq] at hinside
    obtain ⟨hindex, hlt⟩ := h.index_lt hfits hinside.1 hinside.2
    rw [hindex, Array.getElem?_eq_getElem hlt, Option.map_some]
  · rfl

theorem Sized.store?_eq (x y : Nat) (p : Pixel) : f.store? x y p = some (f.set x y p) := by
  unfold Frame.store? Frame.set
  split
  · rename_i hinside
    simp only [h.width, h.height, Bool.and_eq_true, decide_eq_true_eq] at hinside
    obtain ⟨hindex, hlt⟩ := h.index_lt hfits hinside.1 hinside.2
    simp only [hindex, hlt, dif_pos, Array.setIfInBounds]
  · rfl

theorem Sized.slice?_eq (y : Nat) : f.slice? y = some (f.row? y) := by
  unfold Frame.slice? Frame.row?
  split
  · rename_i hinside
    have hstop : y * f.width + f.width ≤ f.pixels.size := by
      rw [h.pixels, h.width, ← Nat.succ_mul, Nat.mul_comm]
      exact Nat.mul_le_mul_left width (h.height ▸ hinside)
    have hwords : f.pixels.size < Word.size := by rwa [h.pixels]
    have hstart : Word.product y f.width = y * f.width := by
      rw [Word.product, Nat.mod_eq_of_lt (by omega)]
    rw [stop_eq, hstart, Nat.mod_eq_of_lt (by omega), Nat.add_mul, Nat.one_mul]
    simp [hstop]
  · rfl

theorem Sized.returns : f.Returns where
  fetch? x y := by rw [h.fetch?_eq hfits, Option.isSome_some]
  store? x y p := by rw [h.store?_eq hfits, Option.isSome_some]
  slice? y := by rw [h.slice?_eq hfits, Option.isSome_some]

end Sized

/-! ## A buffer that is too short -/

/-- The first position that the buffer has no pixel for. -/
def past (f : Frame) : Cell := .ofIndex f.width f.pixels.size

/-- A frame of words that has more positions than pixels. -/
structure Short (f : Frame) : Prop where
  width : f.width < Word.size
  pixels : f.pixels.size < Word.size
  area : f.pixels.size < f.width * f.height

section Short

variable (h : f.Short)

include h

theorem Short.past_spec : f.past.x < f.width ∧ f.past.y < f.height ∧ f.past.y * f.width + f.past.x = f.pixels.size :=
  Cell.ofIndex_spec h.area

theorem Short.index_past : f.index f.past.x f.past.y = f.pixels.size := by
  obtain ⟨-, -, hpast⟩ := h.past_spec
  rw [index_eq (by rw [hpast]; exact h.pixels), hpast]

theorem Short.fetch?_eq : f.fetch? f.past.x f.past.y = none := by
  obtain ⟨hx, hy, -⟩ := h.past_spec
  simp [Frame.fetch?, hx, hy, h.index_past]

theorem Short.store?_eq (p : Pixel) : f.store? f.past.x f.past.y p = none := by
  obtain ⟨hx, hy, -⟩ := h.past_spec
  simp [Frame.store?, hx, hy, h.index_past]

/-- The row of that position ends beside the buffer, or wraps and ends before it starts. -/
theorem Short.slice?_eq : f.slice? f.past.y = none := by
  obtain ⟨hx, hy, hpast⟩ := h.past_spec
  have hpixels := h.pixels
  have hwidth := h.width
  have hstart : Word.product f.past.y f.width = f.past.y * f.width := by
    rw [Word.product, Nat.mod_eq_of_lt (by omega)]
  have hbeside : ¬(f.past.y * f.width ≤ (f.past.y * f.width + f.width) % Word.size ∧
      (f.past.y * f.width + f.width) % Word.size ≤ f.pixels.size) := by
    by_cases hwraps : f.past.y * f.width + f.width < Word.size
    · rw [Nat.mod_eq_of_lt hwraps]
      omega
    · rw [Nat.mod_eq_sub_mod (by omega), Nat.mod_eq_of_lt (by omega)]
      omega
  simp [Frame.slice?, hy, hstart, stop_eq, hbeside]

theorem Short.not_returns : ¬f.Returns := by
  intro hreturns
  have hfetch := hreturns.fetch? f.past.x f.past.y
  rw [h.fetch?_eq] at hfetch
  cases hfetch

end Short

/-! ## Frames of buffers -/

theorem ofPixels?_sized (hfits : width * height < Word.size) (h : ofPixels? width height pixels = some f) :
    f.Sized width height := by
  obtain ⟨hcount, rfl⟩ := ofPixels?_eq_some_iff.mp h
  exact ⟨by rw [hcount, Word.product, Nat.mod_eq_of_lt hfits], rfl, rfl⟩

theorem ofPixels?_short (hwidth : width < Word.size) (hwraps : Word.size ≤ width * height)
    (h : ofPixels? width height pixels = some f) : f.Short := by
  obtain ⟨hcount, rfl⟩ := ofPixels?_eq_some_iff.mp h
  have hsize : pixels.size < Word.size := by
    rw [hcount]
    exact Nat.mod_lt _ (by decide)
  exact ⟨hwidth, hsize, Nat.lt_of_lt_of_le hsize hwraps⟩

theorem size_pixels_eq_iff (hwidth : width < Word.size) (h : ofPixels? width height pixels = some f) :
    f.pixels.size = f.width * f.height ↔ width * height < Word.size := by
  constructor
  · intro hcount
    by_contra hwraps
    exact absurd hcount (Nat.ne_of_lt (ofPixels?_short hwidth (Nat.le_of_not_lt hwraps) h).area)
  · intro hfits
    obtain ⟨hpixels, hw, hh⟩ := ofPixels?_sized hfits h
    rw [hpixels, hw, hh]

theorem returns_iff (hwidth : width < Word.size) (h : ofPixels? width height pixels = some f) :
    f.Returns ↔ width * height < Word.size := by
  constructor
  · intro hreturns
    by_contra hwraps
    exact (ofPixels?_short hwidth (Nat.le_of_not_lt hwraps) h).not_returns hreturns
  · intro hfits
    exact (ofPixels?_sized hfits h).returns hfits

/-- A frame that is made of a buffer has a pixel for every position, and all accesses to it return, exactly if the
product of its sides fits into a word. Then each access gives what the frame shows at its position. Otherwise the
first position past the buffer is inside the frame, and no access there returns. -/
theorem ofPixels?_returns (hwidth : width < Word.size) (h : ofPixels? width height pixels = some f) :
    (f.pixels.size = f.width * f.height ↔ width * height < Word.size) ∧ (f.Returns ↔ width * height < Word.size) ∧
      (width * height < Word.size → ∀ x y p,
        f.fetch? x y = some (f.get? x y) ∧ f.store? x y p = some (f.set x y p) ∧ f.slice? y = some (f.row? y)) ∧
      (Word.size ≤ width * height →
        f.past.x < f.width ∧ f.past.y < f.height ∧ f.fetch? f.past.x f.past.y = none ∧
          (∀ p, f.store? f.past.x f.past.y p = none) ∧ f.slice? f.past.y = none) := by
  refine ⟨size_pixels_eq_iff hwidth h, returns_iff hwidth h, ?_, ?_⟩
  · intro hfits x y p
    have hsized := ofPixels?_sized hfits h
    exact ⟨hsized.fetch?_eq hfits x y, hsized.store?_eq hfits x y p, hsized.slice?_eq hfits y⟩
  · intro hwraps
    have hshort := ofPixels?_short hwidth hwraps h
    obtain ⟨hx, hy, -⟩ := hshort.past_spec
    exact ⟨hx, hy, hshort.fetch?_eq, hshort.store?_eq, hshort.slice?_eq⟩

/-- Two rows of two pixels. The second is read whole, and one of its pixels is written. -/
theorem ofPixels?_returns_square :
    let pixels : Array Pixel := #[⟨255, 0, 0, 255⟩, ⟨0, 0, 0, 0⟩, ⟨1, 2, 3, 4⟩, ⟨5, 6, 7, 8⟩]
    let f : Frame := ⟨2, 2, pixels⟩
    2 < Word.size ∧ ofPixels? 2 2 pixels = some f ∧ f.pixels.size = f.width * f.height ∧ f.Returns ∧
      f.slice? 1 = some (some [⟨1, 2, 3, 4⟩, ⟨5, 6, 7, 8⟩]) ∧
      f.store? 0 1 ⟨9, 9, 9, 9⟩ = some (f.set 0 1 ⟨9, 9, 9, 9⟩) := by
  intro pixels f
  have hmade : ofPixels? 2 2 pixels = some f := by decide
  obtain ⟨hcount, hreturns, hshown, -⟩ := ofPixels?_returns (by decide) hmade
  obtain ⟨-, hstore, hslice⟩ := hshown (by decide) 0 1 ⟨9, 9, 9, 9⟩
  exact ⟨by decide, hmade, hcount.mpr (by decide), hreturns.mpr (by decide), hslice.trans (by decide), hstore⟩

/-- Two rows of half as many pixels as there are words are made of no pixels at all. -/
theorem ofPixels?_of_nothing :
    ∃ f : Frame, ofPixels? 9223372036854775808 2 #[] = some f ∧ f.pixels.size ≠ f.width * f.height ∧
      f.fetch? 0 0 = none ∧ (∀ p, f.store? 0 0 p = none) ∧ f.slice? 0 = none :=
  ⟨⟨9223372036854775808, 2, #[]⟩, by decide, by decide, by decide, fun _ => rfl, by decide⟩

end VectorRaster.Frame
