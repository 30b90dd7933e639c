/-
  VectorRaster.Geometry.Point — points and offsets in the plane.
-/

import VectorRaster.Numeric.Scalar

namespace VectorRaster

open Numeric

structure Point (α : Type) where
  x : α
  y : α
  deriving DecidableEq, Repr

namespace Point

variable {α : Type} [Scalar α]

def origin : Point α := ⟨0.0, 0.0⟩

instance : Add (Point α) := ⟨fun p q => ⟨p.x + q.x, p.y + q.y⟩⟩

instance : Sub (Point α) := ⟨fun p q => ⟨p.x - q.x, p.y - q.y⟩⟩

/-- Both coordinates multiplied by `k`. -/
def scale (p : Point α) (k : α) : Point α := ⟨p.x * k, p.y * k⟩

/-- The point as far from `center` as `p`, on the other side. -/
def reflect (center p : Point α) : Point α := ⟨2.0 * center.x - p.x, 2.0 * center.y - p.y⟩

@[simp] theorem add_x (p q : Point α) : (p + q).x = p.x + q.x := rfl
@[simp] theorem add_y (p q : Point α) : (p + q).y = p.y + q.y := rfl
@[simp] theorem sub_x (p q : Point α) : (p - q).x = p.x - q.x := rfl
@[simp] theorem sub_y (p q : Point α) : (p - q).y = p.y - q.y := rfl
@[simp] theorem scale_x (p : Point α) (k : α) : (p.scale k).x = p.x * k := rfl
@[simp] theorem scale_y (p : Point α) (k : α) : (p.scale k).y = p.y * k := rfl

end Point

end VectorRaster
