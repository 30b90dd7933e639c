/-
  VectorRaster.Raster.Frame — frames of pixels, in rows from the top.

  Sizes are 64-bit words. Where a product of them is no word, a calculation does not return,
  and neither does asking for a buffer that is larger than one can be. Reading outside a frame
  gives nothing, and writing there does nothing.
-/

import VectorRaster.Numeric.Word
import VectorRaster.Raster.Pixel

namespace VectorRaster

open Numeric

structure FrameSize where
  width : Nat
  height : Nat
  deriving DecidableEq, Repr

namespace FrameSize

/-- The size when each pixel becomes a block of `scale` by `scale`. -/
def scaled? (size : FrameSize) (scale : Nat) : Option FrameSize := do
  let width ← Word.product? size.width scale
  let height ← Word.product? size.height scale
  return ⟨width, height⟩

def isEmpty (size : FrameSize) : Bool := size.width == 0 || size.height == 0

def pixelCount? (size : FrameSize) : Option Nat := Word.product? size.width size.height

end FrameSize

structure Frame where
  width : Nat
  height : Nat
  pixels : Array Pixel
  deriving DecidableEq, Repr

namespace Frame

/-- A transparent frame. -/
def blank (width height : Nat) : Frame := ⟨width, height, Array.replicate (width * height) .transparent⟩

/-- A transparent frame. A pixel takes four bytes, and a buffer has as many as the greatest word with a
sign at most. -/
def allocate? (width height : Nat) : Option Frame :=
  if 4 * (width * height) ≤ Word.lastSigned then some (blank width height) else none

/-- A frame with these pixels, if their number fits its size. The product of the sides wraps. -/
def ofPixels? (width height : Nat) (pixels : Array Pixel) : Option Frame :=
  if pixels.size = Word.product width height then some ⟨width, height, pixels⟩ else none

def size (f : Frame) : FrameSize := ⟨f.width, f.height⟩

@[inline]
def get? (f : Frame) (x y : Nat) : Option Pixel :=
  if x < f.width && y < f.height then f.pixels[y * f.width + x]? else none

@[inline]
def set (f : Frame) (x y : Nat) (p : Pixel) : Frame :=
  if x < f.width && y < f.height then
    { f with pixels := f.pixels.setIfInBounds (y * f.width + x) p }
  else f

/-- Draws a pixel over the one that is there. -/
@[inline]
def blend (f : Frame) (x y : Nat) (p : Pixel) : Frame :=
  match f.get? x y with
  | some below => f.set x y (p.sourceOver below)
  | none => f

def row? (f : Frame) (y : Nat) : Option (List Pixel) :=
  if y < f.height then some (f.pixels.extract (y * f.width) ((y + 1) * f.width)).toList else none

/-- All bytes, row by row: red, green, blue and alpha of each pixel. -/
def bytes (f : Frame) : List UInt8 := f.pixels.toList.flatMap Pixel.bytes

def countPixels (f : Frame) (condition : Pixel → Bool) : Nat := f.pixels.countP condition

end Frame

end VectorRaster
