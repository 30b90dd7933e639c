/-
  VectorRaster.Proofs.Render.Drawing — what drawing a path does to each pixel.

  A stroke leaves a canvas over the frame it started from (`Canvas.Over`): where no cell is
  marked the pixel is as it was, and where one is, the stroke's colour lies over it some number
  of times. Every touch of a stroke keeps that, and keeps two canvases with equal masks so
  (`kept_over`). A fill then blends once over each enclosed cell, and these are not marked. So
  each pixel is filled, stroked or untouched, as the mask tells (`Drawing.AtCell`), and the
  mask hangs on the frame's size alone (`drawPath_pixels`).
-/

import Mathlib.Logic.Function.Iterate
import VectorRaster.Proofs.Fill.Enclosed
import VectorRaster.Proofs.Path.Checked
import VectorRaster.Proofs.Raster.Strokes
import VectorRaster.Render.Outline

namespace VectorRaster

/-! ## Colours -/

theorem Pixel.sourceOver_of_opaque {p : Pixel} (h : p.alpha = 255) (below : Pixel) : p.sourceOver below = p := by
  simp [sourceOver, h]

theorem Pixel.iterate_sourceOver_of_opaque {p : Pixel} (h : p.alpha = 255) (n : Nat) (below : Pixel) :
    p.sourceOver^[n + 1] below = p := by
  rw [Function.iterate_succ_apply', sourceOver_of_opaque h]

theorem Pixel.ofColor?_eq_none_iff {c : Color} : Pixel.ofColor? c = none ↔ c = .none := by
  cases c <;> simp [ofColor?]

/-! ## Strokes -/

/-- Painting a cell draws the colour over its pixel, and over no other. -/
theorem Canvas.get?_paint {a : Canvas} {color : Pixel} {c d : Cell} : (a.paint color c).frame.get? d.x d.y =
    if d = c then (a.frame.get? d.x d.y).map color.sourceOver else a.frame.get? d.x d.y := Frame.get?_blend

/-- A canvas that a stroke of this colour has been drawn on, where there was this frame. -/
structure Canvas.Over (color? : Option Pixel) (f : Frame) (a : Canvas) : Prop where
  frameWidth : a.frame.width = f.width
  frameHeight : a.frame.height = f.height
  borderWidth : a.border.width = f.width
  borderHeight : a.border.height = f.height
  size : a.border.cells.size = a.border.width * a.border.height
  pixel : ∀ c : Cell, a.frame.get? c.x c.y = f.get? c.x c.y ∨
    (a.border.isBorder c = true ∧
      ∃ color n, color? = some color ∧ a.frame.get? c.x c.y = (f.get? c.x c.y).map color.sourceOver^[n])

namespace Canvas.Over

variable {color? : Option Pixel} {f : Frame} {a : Canvas}

theorem blank (color? : Option Pixel) (f : Frame) : Over color? f ⟨f, .blank f.width f.height⟩ where
  frameWidth := rfl
  frameHeight := rfl
  borderWidth := rfl
  borderHeight := rfl
  size := by simp [BorderMask.blank]
  pixel _ := .inl rfl

theorem paint {color : Pixel} {c : Cell} (h : Over (some color) f a) (hx : c.x < a.frame.width)
    (hy : c.y < a.frame.height) : Over (some color) f (a.paint color c) := by
  have hc : a.border.contains c = true := by
    rw [BorderMask.contains_iff, h.borderWidth, h.borderHeight, ← h.frameWidth, ← h.frameHeight]
    exact ⟨hx, hy⟩
  refine ⟨?_, ?_, ?_, ?_, ?_, fun d => ?_⟩
  · simpa [Canvas.paint] using h.frameWidth
  · simpa [Canvas.paint] using h.frameHeight
  · simpa [Canvas.paint] using h.borderWidth
  · simpa [Canvas.paint] using h.borderHeight
  · simpa [Canvas.paint] using h.size
  · have hmark : (a.paint color c).border.isBorder d = true ↔ d = c ∨ a.border.isBorder d = true :=
      BorderMask.isBorder_markCell h.size hc
    rw [get?_paint, hmark]
    by_cases e : d = c
    · rw [if_pos e]
      refine .inr ⟨.inl e, ?_⟩
      rcases h.pixel d with hd | ⟨-, color', n, hcolor, hd⟩
      · exact ⟨color, 1, rfl, by rw [hd]; rfl⟩
      · cases hcolor
        refine ⟨color, n + 1, rfl, ?_⟩
        rw [hd, Option.map_map, Function.iterate_succ']
    · rw [if_neg e]
      rcases h.pixel d with hd | ⟨hb, hd⟩
      · exact .inl hd
      · exact .inr ⟨.inr hb, hd⟩

theorem mark (h : Over color? f a) (g : GridPoint) : Over color? f (a.markClamped g) := by
  show Over color? f ⟨a.frame, a.border.markClamped g.x.toInt g.y.toInt⟩
  refine ⟨h.frameWidth, h.frameHeight, by simpa using h.borderWidth, by simpa using h.borderHeight,
    by simpa using h.size, fun d => ?_⟩
  rcases h.pixel d with hd | ⟨hb, hd⟩
  · exact .inl hd
  · exact .inr ⟨(BorderMask.isBorder_markClamped h.size _ _).mpr (.inr hb), hd⟩

/-! ### What the marks tell of the pixels -/

theorem pixel_of_clear {c : Cell} (h : Over color? f a) (hc : a.border.isBorder c = false) :
    a.frame.get? c.x c.y = f.get? c.x c.y := by
  rcases h.pixel c with hd | ⟨hb, -⟩
  · exact hd
  · rw [hc] at hb
    cases hb

theorem exists_pixel_of_color (h : Over color? f a) {color : Pixel} (hcolor : color? = some color)
    (c : Cell) : ∃ n, a.frame.get? c.x c.y = (f.get? c.x c.y).map color.sourceOver^[n] := by
  rcases h.pixel c with hd | ⟨-, color', n, hcolor', hd⟩
  · exact ⟨0, by rw [hd, Function.iterate_zero, Option.map_id_fun, id]⟩
  · rw [hcolor] at hcolor'
    cases hcolor'
    exact ⟨n, hd⟩

theorem pixel_of_colorless {c : Cell} (h : Over color? f a) (hcolor : color? = none) :
    a.frame.get? c.x c.y = f.get? c.x c.y := by
  rcases h.pixel c with hd | ⟨-, color', n, hcolor', -⟩
  · exact hd
  · rw [hcolor] at hcolor'
    cases hcolor'

end Canvas.Over

/-- Strokes of one outline on two frames of one size leave equal masks. -/
theorem kept_over {color₁? color₂? : Option Pixel} {f₁ f₂ : Frame} (hsome : color₁?.isSome = color₂?.isSome)
    (hw : f₁.width = f₂.width) (hh : f₁.height = f₂.height) :
    Kept (fun a b => a.Over color₁? f₁ ∧ b.Over color₂? f₂ ∧ a.border = b.border) color₁? color₂? where
  isSome := hsome
  sameSizes := fun ⟨ha, hb, he⟩ =>
    ⟨by rw [ha.frameWidth, hb.frameWidth, hw], by rw [ha.frameHeight, hb.frameHeight, hh], by rw [he], by rw [he]⟩
  paint := by
    rintro a b c p q rfl rfl ⟨ha, hb, he⟩ hx hy
    refine ⟨ha.paint hx hy, hb.paint ?_ ?_, ?_⟩
    · rwa [hb.frameWidth, ← hw, ← ha.frameWidth]
    · rwa [hb.frameHeight, ← hh, ← ha.frameHeight]
    · simp only [Canvas.paint, he]
  mark := fun g ⟨ha, hb, he⟩ => ⟨ha.mark g, hb.mark g, by simp only [Canvas.markClamped, he]⟩

/-! ## Fills -/

/-- Blending over some cells, each once, changes these and no other. -/
theorem get?_foldl_blend {cells : List Cell} (hnd : cells.Nodup) (f : Frame) (color : Pixel) (c : Cell) :
    (cells.foldl (fun f c => f.blend c.x c.y color) f).get? c.x c.y
      = if c ∈ cells then (f.get? c.x c.y).map color.sourceOver else f.get? c.x c.y := by
  rw [Frame.get?_foldl_blend_count]
  by_cases hc : c ∈ cells
  · rw [if_pos hc, List.count_eq_one_of_mem hnd hc, Function.iterate_one]
  · rw [if_neg hc, List.count_eq_zero_of_not_mem hc, Function.iterate_zero, Option.map_id_fun, id]

theorem size_foldl_blend (cells : List Cell) (f : Frame) (color : Pixel) :
    (cells.foldl (fun f c => f.blend c.x c.y color) f).width = f.width ∧
      (cells.foldl (fun f c => f.blend c.x c.y color) f).height = f.height :=
  ⟨Frame.width_foldl_blend cells color, Frame.height_foldl_blend cells color⟩

/-! ## Paths -/

/-- How a drawing on a frame leaves the pixel of a cell. -/
structure Drawing.AtCell (frame : Frame) (style : Style) (d : Drawing) (c : Cell) : Prop where
  filled : ∀ color, Pixel.ofColor? style.fill = some color → c ∈ d.border.enclosedCells →
    d.frame.get? c.x c.y = (frame.get? c.x c.y).map color.sourceOver
  stroked : ∀ color, Pixel.ofColor? style.stroke = some color → d.border.isBorder c = true →
    ∃ n, d.frame.get? c.x c.y = (frame.get? c.x c.y).map color.sourceOver^[n]
  strokedOpaque : ∀ color, Pixel.ofColor? style.stroke = some color → color.alpha = 255 → d.border.isBorder c = true →
    d.frame.get? c.x c.y = frame.get? c.x c.y ∨ d.frame.get? c.x c.y = (frame.get? c.x c.y).map fun _ => color
  unstroked : style.stroke = .none → d.border.isBorder c = true → d.frame.get? c.x c.y = frame.get? c.x c.y
  untouched : d.border.isBorder c = false → (style.fill = .none ∨ c ∉ d.border.enclosedCells) →
    d.frame.get? c.x c.y = frame.get? c.x c.y

namespace Style

variable {style : Style} {frame : Frame} {t : Transform Float} {pieces : List (Primitive Float)}

/-- The canvas that the stroke of a path leaves. -/
def stroked (style : Style) (frame : Frame) (t : Transform Float) (pieces : List (Primitive Float)) : Canvas :=
  (style.brush t).draw ⟨frame, .blank frame.width frame.height⟩ pieces

theorem brush_eq (style : Style) (t : Transform Float) :
    style.brush t = ⟨Pixel.ofColor? style.stroke, if style.stroke = .none then 0 else strokeRadius style.strokeWidth t⟩ := by
  unfold brush
  split
  · rename_i color h
    have : style.stroke ≠ .none := fun e => by rw [Pixel.ofColor?_eq_none_iff.mpr e] at h; cases h
    rw [h, if_neg this]
  · rename_i h
    rw [h, if_pos (Pixel.ofColor?_eq_none_iff.mp h)]

/-- The stroke lies over the frame, and on a frame of the same size a stroke of the same width marks
the same cells. -/
theorem stroked_over {style' : Style} {frame' : Frame} (hw : frame.width = frame'.width)
    (hh : frame.height = frame'.height) (hwidth : style.strokeWidth = style'.strokeWidth)
    (hnone : style.stroke = .none ↔ style'.stroke = .none) (t : Transform Float) (pieces : List (Primitive Float)) :
    (style.stroked frame t pieces).Over (Pixel.ofColor? style.stroke) frame ∧
      (style.stroked frame t pieces).border = (style'.stroked frame' t pieces).border := by
  have hsome : (Pixel.ofColor? style.stroke).isSome = (Pixel.ofColor? style'.stroke).isSome := by
    rw [Bool.eq_iff_iff, Option.isSome_iff_ne_none, Option.isSome_iff_ne_none, ne_eq, ne_eq,
      Pixel.ofColor?_eq_none_iff, Pixel.ofColor?_eq_none_iff, hnone]
  have hstart : (⟨frame, .blank frame.width frame.height⟩ : Canvas).Over (Pixel.ofColor? style.stroke) frame ∧
      (⟨frame', .blank frame'.width frame'.height⟩ : Canvas).Over (Pixel.ofColor? style'.stroke) frame' ∧
      BorderMask.blank frame.width frame.height = .blank frame'.width frame'.height :=
    ⟨.blank _ _, .blank _ _, by rw [hw, hh]⟩
  have hdraw := @Kept.draw _ _ _ _ _ (if style.stroke = .none then 0 else strokeRadius style.strokeWidth t) _ _
    (kept_over hsome hw hh) hstart pieces
  have hradius : (if style.stroke = .none then 0 else strokeRadius style.strokeWidth t)
      = if style'.stroke = .none then 0 else strokeRadius style'.strokeWidth t := by
    rw [hwidth]
    simp only [hnone]
  unfold stroked
  rw [brush_eq style, brush_eq style', ← hradius]
  exact ⟨hdraw.1, hdraw.2.2⟩

theorem paint_border : (style.paint frame t pieces).border = (style.stroked frame t pieces).border := by
  unfold paint stroked
  cases Pixel.ofColor? style.fill <;> rfl

theorem paint_frame : (style.paint frame t pieces).frame = match Pixel.ofColor? style.fill with
    | some color => (style.stroked frame t pieces).frame.fill (style.stroked frame t pieces).border color
    | none => (style.stroked frame t pieces).frame := by
  unfold paint stroked
  cases Pixel.ofColor? style.fill <;> rfl

theorem paint_filled : (style.paint frame t pieces).filled
    = if style.fill = .none then 0 else (style.paint frame t pieces).border.enclosedCells.length := by
  rw [paint_border]
  unfold paint stroked
  cases h : Pixel.ofColor? style.fill with
  | none => rw [if_pos (Pixel.ofColor?_eq_none_iff.mp h)]
  | some color =>
    have : style.fill ≠ .none := fun e => by rw [Pixel.ofColor?_eq_none_iff.mpr e] at h; cases h
    rw [if_neg this]

/-- What a fill does to a cell. -/
theorem paint_pixel {color : Pixel} (hcolor : Pixel.ofColor? style.fill = some color) (c : Cell) :
    (style.paint frame t pieces).frame.get? c.x c.y
      = if c ∈ (style.stroked frame t pieces).border.enclosedCells
        then ((style.stroked frame t pieces).frame.get? c.x c.y).map color.sourceOver
        else (style.stroked frame t pieces).frame.get? c.x c.y := by
  rw [paint_frame, hcolor]
  exact get?_foldl_blend (BorderMask.nodup_enclosedCells _) _ _ _

theorem paint_pixel_of_unfilled {c : Cell}
    (h : style.fill = .none ∨ c ∉ (style.stroked frame t pieces).border.enclosedCells) :
    (style.paint frame t pieces).frame.get? c.x c.y = (style.stroked frame t pieces).frame.get? c.x c.y := by
  cases hcolor : Pixel.ofColor? style.fill with
  | none => rw [paint_frame, hcolor]
  | some color =>
    rcases h with h | h
    · rw [Pixel.ofColor?_eq_none_iff.mpr h] at hcolor
      cases hcolor
    · rw [paint_pixel hcolor, if_neg h]

theorem paint_pixel_of_marked {c : Cell} (h : (style.stroked frame t pieces).border.isBorder c = true) :
    (style.paint frame t pieces).frame.get? c.x c.y = (style.stroked frame t pieces).frame.get? c.x c.y := by
  refine paint_pixel_of_unfilled (.inr fun hc => ?_)
  have hopen := (BorderMask.mem_enclosedCells.mp hc).1.2
  rw [h] at hopen
  cases hopen

theorem paint_atCell (style : Style) (frame : Frame) (t : Transform Float) (pieces : List (Primitive Float)) (c : Cell) :
    Drawing.AtCell frame style (style.paint frame t pieces) c := by
  obtain ⟨hover, -⟩ := @stroked_over style frame style frame rfl rfl rfl Iff.rfl t pieces
  constructor
  · intro color hcolor hc
    rw [paint_border] at hc
    rw [paint_pixel hcolor, if_pos hc, hover.pixel_of_clear (BorderMask.mem_enclosedCells.mp hc).1.2]
  · intro color hcolor hb
    rw [paint_border] at hb
    rw [paint_pixel_of_marked hb]
    exact hover.exists_pixel_of_color hcolor c
  · intro color hcolor halpha hb
    rw [paint_border] at hb
    rw [paint_pixel_of_marked hb]
    obtain ⟨n, hc⟩ := hover.exists_pixel_of_color hcolor c
    rw [hc]
    cases n with
    | zero => exact .inl (by rw [Function.iterate_zero, Option.map_id_fun, id])
    | succ n => exact .inr (congrArg (Option.map · _) (funext (Pixel.iterate_sourceOver_of_opaque halpha n)))
  · intro hnone hb
    rw [paint_border] at hb
    rw [paint_pixel_of_marked hb, hover.pixel_of_colorless (Pixel.ofColor?_eq_none_iff.mpr hnone)]
  · intro hb hor
    rw [paint_border] at hb hor
    rw [paint_pixel_of_unfilled hor, hover.pixel_of_clear hb]

end Style

/-- Checked commands can always be drawn. The drawing leaves every pixel filled once, stroked or
untouched as its mask tells; it counts the cells it fills; and the mask depends on nothing of the
frame but its size, and on nothing of the colours but whether there is a stroke. -/
theorem drawPath_pixels (frame : Frame) {commands : List Path.Command} (h : ∀ c ∈ commands, c.check = .ok ())
    (t : Transform Float) (style : Style) :
    ∃ d, frame.drawPath commands t style = .ok d ∧
      (d.border.width = frame.width ∧ d.border.height = frame.height ∧
        d.border.cells.size = frame.width * frame.height) ∧
      (d.frame.width = frame.width ∧ d.frame.height = frame.height) ∧
      (∀ c, Drawing.AtCell frame style d c) ∧
      d.filled = (if style.fill = .none then 0 else d.border.enclosedCells.length) ∧
      ∀ (frame' : Frame) (style' : Style), frame.width = frame'.width → frame.height = frame'.height →
        style.strokeWidth = style'.strokeWidth → (style.stroke = .none ↔ style'.stroke = .none) →
        ∃ d', frame'.drawPath commands t style' = .ok d' ∧ d'.border = d.border := by
  obtain ⟨⟨last, pieces⟩, ho⟩ := Path.State.interpret_ok h t .initial
  have hok : ∀ (frame : Frame) (style : Style),
      frame.drawPath commands t style = .ok (style.paint frame t pieces) := fun frame style => by
    simp only [Frame.drawPath, ho, bind, Except.bind, pure, Except.pure]
  obtain ⟨hover, -⟩ := @Style.stroked_over style frame style frame rfl rfl rfl Iff.rfl t pieces
  refine ⟨_, hok frame style, ?_, ?_, Style.paint_atCell style frame t pieces, Style.paint_filled, ?_⟩
  · rw [Style.paint_border]
    exact ⟨hover.borderWidth, hover.borderHeight, by rw [hover.size, hover.borderWidth, hover.borderHeight]⟩
  · rw [Style.paint_frame, ← hover.frameWidth, ← hover.frameHeight]
    split
    · exact size_foldl_blend _ _ _
    · exact ⟨rfl, rfl⟩
  · intro frame' style' hw hh hwidth hnone
    refine ⟨_, hok frame' style', ?_⟩
    rw [Style.paint_border, Style.paint_border]
    exact (Style.stroked_over hw hh hwidth hnone t pieces).2.symm

theorem drawPath_pixels_closed_line :
    let commands : List Path.Command := [⟨⟨.moveTo, .absolute⟩, [0.0, 0.0]⟩, ⟨⟨.lineTo, .relative⟩, [2.0, 1.0]⟩,
      ⟨⟨.closePath, .absolute⟩, []⟩]
    let style : Style := ⟨.none, .black, 2.0⟩
    (∀ c ∈ commands, c.check = .ok ()) ∧
      ∃ d, (Frame.blank 3 2).drawPath commands .identity style = .ok d ∧
        ∀ c, Drawing.AtCell (.blank 3 2) style d c := by
  have hc : ∀ c ∈ ([⟨⟨.moveTo, .absolute⟩, [0.0, 0.0]⟩, ⟨⟨.lineTo, .relative⟩, [2.0, 1.0]⟩,
      ⟨⟨.closePath, .absolute⟩, []⟩] : List Path.Command), c.check = .ok () := by decide
  obtain ⟨d, hd, -, -, hpixels, -⟩ := drawPath_pixels (.blank 3 2) hc .identity ⟨.none, .black, 2.0⟩
  exact ⟨hc, d, hd, hpixels⟩

end VectorRaster
