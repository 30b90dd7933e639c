/-
  VectorRaster.Raster.Circle — the pixels on the outline of a circle.

  One octant is walked with the midpoint rule: a decision variable tells whether the next
  column's pixel is one row lower. Every step is reflected into the other octants, so
  points on the axes and diagonals come more than once. Coordinates are 64-bit words, and strokes
  fold over them. Which outlines have no result that is out of range, the ones in Raster.Register say.
-/

namespace VectorRaster

/-- A position on the unbounded grid of pixels. -/
structure GridPoint where
  x : Int64
  y : Int64
  deriving DecidableEq, Repr

namespace Circle

/-- The walk along an octant, as offsets from the center. -/
structure Walk where
  x : Int64
  y : Int64
  decision : Int64
  deltaX : Int64
  deltaY : Int64
  deriving DecidableEq, Repr

def Walk.start (radius : Int64) : Walk := ⟨0, radius, 1 - radius, 1, -2 * radius⟩

/-- One row lower, if the decision asks for it. -/
def Walk.descend (w : Walk) : Walk :=
  if 0 ≤ w.decision then
    { w with y := w.y - 1, deltaY := w.deltaY + 2, decision := w.decision + (w.deltaY + 2) }
  else w

/-- One column on. -/
def Walk.advance (w : Walk) : Walk :=
  { w with x := w.x + 1, deltaX := w.deltaX + 2, decision := w.decision + (w.deltaX + 2) }

/-- The offsets of the octant after the first, in at most `steps` steps. -/
def Walk.offsets (w : Walk) : Nat → List GridPoint
  | 0 => []
  | steps + 1 =>
    if w.x < w.y then
      let w := w.descend.advance
      ⟨w.x, w.y⟩ :: w.offsets steps
    else []

/-- An offset and its reflections, around the center. -/
def reflections (centerX centerY : Int64) (o : GridPoint) : List GridPoint :=
  [⟨centerX + o.x, centerY + o.y⟩, ⟨centerX - o.x, centerY + o.y⟩,
   ⟨centerX + o.x, centerY - o.y⟩, ⟨centerX - o.x, centerY - o.y⟩,
   ⟨centerX + o.y, centerY + o.x⟩, ⟨centerX - o.y, centerY + o.x⟩,
   ⟨centerX + o.y, centerY - o.x⟩, ⟨centerX - o.y, centerY - o.x⟩]

/-- The outline, starting with its four points on the axes. The walk takes at most `radius` steps. -/
def outline (centerX centerY radius : Int64) : List GridPoint :=
  [⟨centerX, centerY + radius⟩, ⟨centerX, centerY - radius⟩,
   ⟨centerX + radius, centerY⟩, ⟨centerX - radius, centerY⟩]
    ++ ((Walk.start radius).offsets radius.toNatClampNeg).flatMap (reflections centerX centerY)

/-! ## Folding over an outline without building it -/

section

variable {β : Type} (f : β → Int64 → Int64 → β) (centerX centerY : Int64)

/-- Takes an offset's reflections in turn. -/
@[inline]
def foldReflections (b : β) (x y : Int64) : β :=
  let b := f b (centerX + x) (centerY + y)
  let b := f b (centerX - x) (centerY + y)
  let b := f b (centerX + x) (centerY - y)
  let b := f b (centerX - x) (centerY - y)
  let b := f b (centerX + y) (centerY + x)
  let b := f b (centerX - y) (centerY + x)
  let b := f b (centerX + y) (centerY - x)
  f b (centerX - y) (centerY - x)

/-- Takes the reflections of what is left of a walk. -/
@[specialize]
def foldWalk : Nat → Walk → β → β
  | 0, _, b => b
  | steps + 1, w, b =>
    if w.x < w.y then
      let w := w.descend.advance
      foldWalk steps w (foldReflections f centerX centerY b w.x w.y)
    else b

/-- Takes the points of an outline in turn. -/
@[inline]
def foldOutline (radius : Int64) (b : β) : β :=
  let b := f b centerX (centerY + radius)
  let b := f b centerX (centerY - radius)
  let b := f b (centerX + radius) centerY
  let b := f b (centerX - radius) centerY
  foldWalk f centerX centerY radius.toNatClampNeg (.start radius) b

theorem foldWalk_eq_foldl (steps : Nat) (w : Walk) (b : β) :
    foldWalk f centerX centerY steps w b
      = ((w.offsets steps).flatMap (reflections centerX centerY)).foldl (fun b p => f b p.x p.y) b := by
  induction steps generalizing w b with
  | zero => rfl
  | succ steps ih =>
    simp only [foldWalk, Walk.offsets]
    split
    · rw [ih, List.flatMap_cons, List.foldl_append]
      rfl
    · rfl

theorem foldOutline_eq_foldl (radius : Int64) (b : β) :
    foldOutline f centerX centerY radius b
      = (outline centerX centerY radius).foldl (fun b p => f b p.x p.y) b := by
  simp only [foldOutline, foldWalk_eq_foldl, outline, List.foldl_append]
  rfl

end

end Circle

end VectorRaster
