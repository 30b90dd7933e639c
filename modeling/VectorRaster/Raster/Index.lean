/-
  VectorRaster.Raster.Index — accesses to the buffer of a frame.

  A frame keeps its pixels in one buffer, row by row, and an access works out where to look in
  words, so its indices wrap. A buffer can be too small for the frame that was made of it, because
  the product of the sides that it is compared with wraps as well. Then an index can fall beside
  the buffer, and the access does not return; on any other frame it gives what `get?`, `set` and
  `row?` give.
-/

import VectorRaster.Raster.Frame

namespace VectorRaster.Frame

open Numeric

/-- Where the buffer keeps the pixel at a position. -/
def index (f : Frame) (x y : Nat) : Nat := (Word.product y f.width + x) % Word.size

/-- Reads a pixel; none if that does not return. -/
def fetch? (f : Frame) (x y : Nat) : Option (Option Pixel) :=
  if x < f.width && y < f.height then (f.pixels[f.index x y]?).map some else some none

/-- Writes a pixel; none if that does not return. -/
def store? (f : Frame) (x y : Nat) (p : Pixel) : Option Frame :=
  if x < f.width && y < f.height then
    if h : f.index x y < f.pixels.size then some { f with pixels := f.pixels.set (f.index x y) p h } else none
  else some f

/-- Reads a row; none if that does not return. A slice must not stop before it starts or after the buffer. -/
def slice? (f : Frame) (y : Nat) : Option (Option (List Pixel)) :=
  if y < f.height then
    let start := Word.product y f.width
    let stop := Word.product ((y + 1) % Word.size) f.width
    if start ≤ stop && stop ≤ f.pixels.size then some (some (f.pixels.extract start stop).toList) else none
  else some none

end VectorRaster.Frame
