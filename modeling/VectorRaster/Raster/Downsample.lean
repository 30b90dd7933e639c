/-
  VectorRaster.Raster.Downsample — a large frame averaged down to a smaller one.

  Each pixel of the target is the mean of a square block of the source, rounded to the
  nearest in every channel. Sums are 32-bit words; where one is no word, or there are no
  pixels to take a mean of, the reduction does not return. Each column is a task of its own.
-/

import VectorRaster.Raster.Frame
import VectorRaster.Raster.Tasks

namespace VectorRaster

open Numeric

inductive SupersampleError where
  | invalidScale (scale : Nat)
  /-- The target's blocks do not fit into the source. -/
  | sourceTooSmall (available target : FrameSize) (scale : Nat)
  /-- A block reaches out of the source. -/
  | columnFailed (column row : Nat)
  deriving DecidableEq, Repr

def SupersampleError.message : SupersampleError → String
  | invalidScale scale => s!"{scale} is not a valid supersampling scale"
  | sourceTooSmall available target scale =>
    s!"a {available.width}x{available.height} frame is too small to supersample a "
      ++ s!"{target.width}x{target.height} frame by {scale}"
  | columnFailed column row => s!"column {column} could not be read from the source frame at row {row}"

/-- What a part of a reduction gives. None if it does not return. -/
abbrev Reduction : Type → Type := ExceptT SupersampleError Option

/-- The sums of the channels of some pixels. -/
structure Totals where
  red : UInt32
  green : UInt32
  blue : UInt32
  alpha : UInt32

namespace Totals

def zero : Totals := ⟨0, 0, 0, 0⟩

/-- A sum of words, which does not return if it is no word. -/
def sum? (a b : UInt32) : Option UInt32 := if a.toNat + b.toNat < UInt32.size then some (a + b) else none

def add? (t : Totals) (p : Pixel) : Option Totals := do
  let red ← sum? t.red p.red.toUInt32
  let green ← sum? t.green p.green.toUInt32
  let blue ← sum? t.blue p.blue.toUInt32
  let alpha ← sum? t.alpha p.alpha.toUInt32
  return ⟨red, green, blue, alpha⟩

/-- A channel's mean over `count` pixels, to the nearest byte. There is none over no pixels. -/
def mean? (total count : UInt32) : Option UInt8 :=
  if count = 0 then none else return ((← sum? total (count / 2)) / count).toUInt8

def average? (t : Totals) (count : UInt32) : Option Pixel := do
  let red ← mean? t.red count
  let green ← mean? t.green count
  let blue ← mean? t.blue count
  let alpha ← mean? t.alpha count
  return ⟨red, green, blue, alpha⟩

/-- Adds `count` pixels of row `y`, from column `x` on. One that is `outside` is an error. -/
def addRow (source : Frame) (outside : SupersampleError) (y : Nat) : (x count : Nat) → Totals → Reduction Totals
  | _, 0, t => return t
  | x, count + 1, t =>
    match source.get? x y with
    | some p => do addRow source outside y (x + 1) count (← t.add? p)
    | none => throw outside

/-- Adds `width` columns, from `x` on, of `count` rows, from `y` on. -/
def addRows (source : Frame) (outside : SupersampleError) (x width : Nat) : (y count : Nat) → Totals → Reduction Totals
  | _, 0, t => return t
  | y, count + 1, t => do addRows source outside x width (y + 1) count (← addRow source outside y x width t)

end Totals

structure Downsampler where
  scale : Nat
  scale_pos : 0 < scale

namespace Downsampler

def ofScale (scale : Nat) : Except SupersampleError Downsampler :=
  if h : 0 < scale then .ok ⟨scale, h⟩ else .error (.invalidScale scale)

/-- The number of pixels of a block, counted in 64 bits and then cut off to 32. -/
def samples? (d : Downsampler) : Option UInt32 :=
  if d.scale * d.scale < Word.size then some (.ofNat (d.scale * d.scale)) else none

/-- The pixel of the target at `x` and `y`, the mean of `samples` pixels. -/
def pixel (d : Downsampler) (source : Frame) (samples : UInt32) (x y : Nat) : Reduction Pixel := do
  let totals ← Totals.addRows source (.columnFailed x y) (x * d.scale) d.scale (y * d.scale) d.scale .zero
  totals.average? samples

def column (d : Downsampler) (source : Frame) (height x : Nat) : Reduction (List Pixel) := do
  let samples ← d.samples?
  (List.range height).mapM (d.pixel source samples x)

/-- A task that does not return keeps back all the others, one that fails does not. -/
def reduce (d : Downsampler) (pool : WorkerPool) (source : Frame) (target : FrameSize) :
    Option (Except SupersampleError Frame) := do
  let required ← target.scaled? d.scale
  if source.width < required.width || source.height < required.height then
    return .error (.sourceTooSmall source.size target d.scale)
  let columns ← (pool.run target.width fun x => (d.column source target.height x).run).mapM id
  return (columns.mapM id).map fun columns =>
    columns.zipIdx.foldl (fun frame (column, x) =>
      column.zipIdx.foldl (fun frame (p, y) => frame.set x y p) frame) (.blank target.width target.height)

end Downsampler

end VectorRaster
