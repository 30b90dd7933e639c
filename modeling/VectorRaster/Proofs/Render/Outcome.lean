/-
  VectorRaster.Proofs.Render.Outcome — what comes of rendering a document at a size.

  A frame that no buffer can hold is asked for in vain (`Allocates`). Otherwise a size without pixels, a
  document without elements and a document without a viewport are the reasons not to render it, in this
  order (`Document.Unrenderable`). Nothing else is one: elements keep the size of the frame they are drawn
  on (`sized_drawElement`), so the large frame has every sample that its reduction asks for, and
  reducing it cannot fail. Whether it returns, its operations decide (`Downsampler.Calculates`); without
  supersampling and up to a scale of 4100, it does (`render_outcome`).
-/

import VectorRaster.Proofs.Raster.Blocks
import VectorRaster.Proofs.Render.InPlace

namespace VectorRaster

open Numeric

/-! ## Drawing -/

theorem Style.sized_paint {frame : Frame} {width height : Nat} (h : frame.Sized width height) (style : Style)
    (t : Transform Float) (pieces : List (Primitive Float)) : (style.paint frame t pieces).frame.Sized width height := by
  have hstroked : ((style.brush t).draw ⟨frame, .blank frame.width frame.height⟩ pieces).frame.Sized width height :=
    @Frame.Sized.draw width height ⟨frame, .blank frame.width frame.height⟩ h (style.brush t) pieces
  rw [paint_eq_fillStroked, fillStroked]
  cases Pixel.ofColor? style.fill with
  | none => exact hstroked
  | some color => exact hstroked.fill _ color

namespace RenderOptions

variable {o : RenderOptions} {d : Document} {viewport : Viewport} {frame : Frame} {width height : Nat}

theorem sized_drawElement (h : frame.Sized width height) {id : ElementId} {drawn : Frame}
    (hdrawn : o.drawElement d viewport frame id = .ok drawn) : drawn.Sized width height := by
  unfold drawElement at hdrawn
  cases hcommands : d.outline id with
  | error e =>
    rw [hcommands] at hdrawn
    cases hdrawn
  | ok commands =>
    cases hstyle : Style.ofElement d id viewport.referenceLength o.styleDefaults with
    | error e =>
      rw [hcommands, hstyle] at hdrawn
      cases hdrawn
    | ok style =>
      rw [hcommands, hstyle] at hdrawn
      cases hrun : Path.State.initial.interpret (viewport.toSurface frame.width frame.height) commands with
      | error e =>
        simp only [Frame.drawPath, hrun, bind, Except.bind, mapError_ok, mapError_error] at hdrawn
        cases hdrawn
      | ok outcome =>
        simp only [Frame.drawPath, hrun, bind, Except.bind, mapError_ok, pure, Except.pure] at hdrawn
        cases hdrawn
        exact style.sized_paint h _ _

theorem sized_drawNext {done : Frame × Nat} (h : done.1.Sized width height) (id : ElementId) :
    (o.drawNext d viewport done id).1.Sized width height := by
  unfold drawNext
  cases hdraw : o.drawElement d viewport done.1 id with
  | error e => exact h
  | ok drawn => exact sized_drawElement h hdraw

theorem sized_drawElements (h : frame.Sized width height) (ids : List ElementId) :
    (o.drawElements d viewport frame ids).1.Sized width height := by
  have hfold : ∀ (ids : List ElementId) (done : Frame × Nat), done.1.Sized width height →
      (ids.foldl (o.drawNext d viewport) done).1.Sized width height := by
    intro ids
    induction ids with
    | nil => exact fun done h => h
    | cons id ids ih => exact fun done h => ih _ (sized_drawNext h id)
  rw [drawElements_eq_foldl]
  exact hfold ids _ h

theorem draw_of_empty (hempty : d.children Document.root = []) : o.draw d frame = .error .emptyDocument := by
  rw [draw, hempty]

theorem draw_of_viewport_error {e : AttributeError} (hne : d.children Document.root ≠ [])
    (hviewport : Viewport.ofElement d Document.root = .error e) : o.draw d frame = .error (.viewport e) := by
  rw [draw]
  cases hids : d.children Document.root with
  | nil => exact absurd hids hne
  | cons id ids => simp only [hviewport, mapError_error, bind, Except.bind]

theorem draw_of_viewport (h : frame.Sized width height) (hne : d.children Document.root ≠ [])
    (hviewport : Viewport.ofElement d Document.root = .ok viewport) :
    ∃ drawn count, o.draw d frame = .ok (drawn, count) ∧ drawn.Sized width height := by
  have hsized : (o.drawElements d viewport frame (d.children Document.root)).1.Sized width height :=
    sized_drawElements h (d.children Document.root)
  refine ⟨_, (o.drawElements d viewport frame (d.children Document.root)).2, ?_, hsized⟩
  rw [draw]
  cases hids : d.children Document.root with
  | nil => exact absurd hids hne
  | cons id ids => simp only [hviewport, mapError_ok, bind, Except.bind, pure, Except.pure]

/-! ## Rendering -/

/-- How many times as large a document is drawn. -/
def scale (o : RenderOptions) : Nat := max o.supersample 1

/-- No count that a rendering at this size works out leaves its word. -/
structure Fits (o : RenderOptions) (size : FrameSize) : Prop where
  width : size.width * o.scale < Word.size
  height : size.height * o.scale < Word.size
  pixels : size.width * o.scale * (size.height * o.scale) < Word.size

/-- A buffer can hold the frame that a rendering at this size draws on. -/
def Allocates (o : RenderOptions) (size : FrameSize) : Prop :=
  4 * (size.width * o.scale * (size.height * o.scale)) ≤ Word.lastSigned

theorem scale_pos (o : RenderOptions) : 0 < o.scale := Nat.lt_of_lt_of_le Nat.one_pos (Nat.le_max_right _ _)

/-- What averages down a document that is drawn at its scale. -/
def downsampler (o : RenderOptions) : Downsampler := ⟨o.scale, o.scale_pos⟩

end RenderOptions

/-- The reason why a document has no frame of this size. An earlier reason hides the later ones. -/
inductive Document.Unrenderable (d : Document) (size : FrameSize) : RenderError → Prop where
  | zeroSized : size.width = 0 ∨ size.height = 0 → Unrenderable d size (.zeroSizedSurface size)
  | empty : size.width ≠ 0 → size.height ≠ 0 → d.children Document.root = [] → Unrenderable d size .emptyDocument
  | viewport {e : AttributeError} : size.width ≠ 0 → size.height ≠ 0 → d.children Document.root ≠ [] →
    Viewport.ofElement d Document.root = .error e → Unrenderable d size (.viewport e)

/-- A document with a viewport and an element can be rendered at any size that has pixels. -/
theorem Document.not_unrenderable {d : Document} {size : FrameSize} (hw : size.width ≠ 0) (hh : size.height ≠ 0)
    (hne : d.children Document.root ≠ []) (hviewport : (Viewport.ofElement d Document.root).toOption.isSome = true)
    (e : RenderError) : ¬d.Unrenderable size e := by
  intro h
  cases h with
  | zeroSized hzero => exact hzero.elim hw hh
  | empty _ _ hempty => exact hne hempty
  | viewport _ _ _ herror =>
    rw [herror] at hviewport
    cases hviewport

namespace RenderOptions

variable {o : RenderOptions} {d : Document} {size : FrameSize}

theorem render_of_isEmpty (h : size.width = 0 ∨ size.height = 0) :
    o.render d size = some (.error (.zeroSizedSurface size)) := by
  rw [render, if_pos (by simpa [FrameSize.isEmpty] using h)]
  rfl

/-- What a rendering makes of a document that is drawn. -/
def finish (o : RenderOptions) (size : FrameSize) : Except RenderError (Frame × Nat) → Option (Except RenderError Frame)
  | .error e => some (.error e)
  | .ok (source, _) =>
    if o.scale = 1 then some (.ok source)
    else (o.downsampler.reduce o.pool source size).map (·.mapError .supersample)

section

variable (hfits : o.Fits size) (hw : size.width ≠ 0) (hh : size.height ≠ 0)
include hfits hw hh

/-- A document is drawn on a large frame, and what comes of that comes of the rendering. -/
theorem render_eq_finish : o.render d size
    = (Frame.allocate? (size.width * o.scale) (size.height * o.scale)).bind fun blank => o.finish size (o.draw d blank) := by
  have hpixels : ¬size.isEmpty = true := by simp [FrameSize.isEmpty, hw, hh]
  have hscaled := FrameSize.scaled?_eq hfits.width hfits.height
  have hrender : o.render d size = if o.scale = 1 then o.renderDirect d size else o.renderReduced d size o.scale :=
    if_neg hpixels
  rw [hrender]
  by_cases hone : o.scale = 1
  · rw [if_pos hone, renderDirect, hone, Nat.mul_one, Nat.mul_one]
    refine Option.bind_congr fun blank _ => ?_
    cases hdraw : o.draw d blank with
    | error e => rfl
    | ok drawn => exact (if_pos hone).symm
  · rw [if_neg hone, renderReduced, hscaled]
    simp only [bind, Option.bind_some]
    refine Option.bind_congr fun blank _ => ?_
    cases hdraw : o.draw d blank with
    | error e => rfl
    | ok drawn =>
      simp only [finish, if_neg hone, Downsampler.ofScale, dif_pos o.scale_pos]
      rfl

theorem render_of_not_allocates (h : ¬o.Allocates size) : o.render d size = none := by
  have hnone : Frame.allocate? (size.width * o.scale) (size.height * o.scale) = none := if_neg h
  rw [render_eq_finish hfits hw hh, hnone, Option.bind_none]

variable (hallocates : o.Allocates size)
include hallocates

theorem render_of_draw {drawn : Except RenderError (Frame × Nat)}
    (hdraw : o.draw d (.blank (size.width * o.scale) (size.height * o.scale)) = drawn) :
    o.render d size = o.finish size drawn := by
  have hblank : Frame.allocate? (size.width * o.scale) (size.height * o.scale)
      = some (.blank (size.width * o.scale) (size.height * o.scale)) := if_pos hallocates
  rw [render_eq_finish hfits hw hh, hblank, Option.bind_some, hdraw]

section

variable {source : Frame} {count : Nat}
  (hdraw : o.draw d (.blank (size.width * o.scale) (size.height * o.scale)) = .ok (source, count))
  (hsource : source.Sized (size.width * o.scale) (size.height * o.scale))
include hdraw hsource

theorem render_of_calculates (h : o.downsampler.Calculates source size) :
    ∃ frame, o.render d size = some (.ok frame) ∧ frame.Sized size.width size.height := by
  rw [render_of_draw hfits hw hh hallocates hdraw, finish]
  by_cases hone : o.scale = 1
  · rw [hone, Nat.mul_one, Nat.mul_one] at hsource
    exact ⟨source, if_pos hone, hsource⟩
  · have hlarge : o.downsampler.Fits source size := ⟨hsource.width.ge, hsource.height.ge⟩
    have haccepts := Downsampler.accepts_of_fits hfits.width hfits.height hlarge
    obtain ⟨frame, hreduce, hframe, -⟩ := Downsampler.reduce_blockMean hsource.own haccepts hlarge o.pool h
    refine ⟨frame, ?_, hframe⟩
    rw [if_neg hone, hreduce, Option.map_some, mapError_ok]

theorem render_of_not_calculates (h : ¬o.downsampler.Calculates source size) : o.render d size = none := by
  have hone : ¬o.scale = 1 := fun hone => h (Downsampler.calculates_of_le (hone.le.trans (by decide)))
  have hlarge : o.downsampler.Fits source size := ⟨hsource.width.ge, hsource.height.ge⟩
  have haccepts := Downsampler.accepts_of_fits hfits.width hfits.height hlarge
  rw [render_of_draw hfits hw hh hallocates hdraw, finish, if_neg hone,
    Downsampler.reduce_of_not_calculates hsource.own haccepts hlarge o.pool h, Option.map_none]

end

end

section

variable (hfits : size.width ≠ 0 → size.height ≠ 0 → o.Fits size)
  (hallocates : size.width ≠ 0 → size.height ≠ 0 → o.Allocates size)
include hfits hallocates

theorem render_of_unrenderable {e : RenderError} (h : d.Unrenderable size e) : o.render d size = some (.error e) := by
  cases h with
  | zeroSized hzero => exact render_of_isEmpty hzero
  | empty hw hh hempty => exact render_of_draw (hfits hw hh) hw hh (hallocates hw hh) (draw_of_empty hempty)
  | viewport hw hh hne hviewport =>
    exact render_of_draw (hfits hw hh) hw hh (hallocates hw hh) (draw_of_viewport_error hne hviewport)

theorem render_of_renderable (h : ∀ e, ¬d.Unrenderable size e) : ∃ source count,
    o.draw d (.blank (size.width * o.scale) (size.height * o.scale)) = .ok (source, count) ∧
      (o.downsampler.Calculates source size →
        ∃ frame, o.render d size = some (.ok frame) ∧ frame.Sized size.width size.height) ∧
      (¬o.downsampler.Calculates source size → o.render d size = none) := by
  have hw : size.width ≠ 0 := fun hzero => h _ (.zeroSized (.inl hzero))
  have hh : size.height ≠ 0 := fun hzero => h _ (.zeroSized (.inr hzero))
  have hne : d.children Document.root ≠ [] := fun hempty => h _ (.empty hw hh hempty)
  cases hviewport : Viewport.ofElement d Document.root with
  | error e => exact absurd (.viewport hw hh hne hviewport) (h (.viewport e))
  | ok viewport =>
    obtain ⟨source, count, hdraw, hsource⟩ := draw_of_viewport (Frame.Sized.blank _ _) hne hviewport
    exact ⟨source, count, hdraw, render_of_calculates (hfits hw hh) hw hh (hallocates hw hh) hdraw hsource,
      render_of_not_calculates (hfits hw hh) hw hh (hallocates hw hh) hdraw hsource⟩

theorem render_eq_error_iff (e : RenderError) : o.render d size = some (.error e) ↔ d.Unrenderable size e := by
  refine ⟨fun herror => ?_, render_of_unrenderable hfits hallocates⟩
  by_cases hreason : ∃ e', d.Unrenderable size e'
  · obtain ⟨e', he'⟩ := hreason
    rw [render_of_unrenderable hfits hallocates he'] at herror
    cases herror
    exact he'
  · obtain ⟨source, count, -, hreturns, hnot⟩ := render_of_renderable hfits hallocates (not_exists.mp hreason)
    by_cases h : o.downsampler.Calculates source size
    · obtain ⟨frame, hok, -⟩ := hreturns h
      rw [hok] at herror
      cases herror
    · rw [hnot h] at herror
      cases herror

end

/-- A rendering that draws on a frame that no buffer can hold does not return. Else it fails for the first of three
reasons that applies: no pixels, no elements, no viewport. If none of them applies, no element that cannot be drawn and
no reduction makes it fail: it gives a frame of the size that was asked for, whatever the elements, unless an operation
of the reduction overflows or divides by zero. Up to a scale of 4100, none does. -/
theorem render_outcome (hfits : size.width ≠ 0 → size.height ≠ 0 → o.Fits size) :
    (size.width ≠ 0 → size.height ≠ 0 → ¬o.Allocates size → o.render d size = none) ∧
    ((size.width ≠ 0 → size.height ≠ 0 → o.Allocates size) →
      (∀ e, o.render d size = some (.error e) ↔ d.Unrenderable size e) ∧
      ((∀ e, ¬d.Unrenderable size e) → ∃ source count,
        o.draw d (.blank (size.width * o.scale) (size.height * o.scale)) = .ok (source, count) ∧
        (o.downsampler.Calculates source size →
          ∃ frame, o.render d size = some (.ok frame) ∧ frame.Sized size.width size.height) ∧
        (¬o.downsampler.Calculates source size → o.render d size = none) ∧
        (o.scale ≤ 4100 → o.downsampler.Calculates source size))) := by
  refine ⟨fun hw hh => render_of_not_allocates (hfits hw hh) hw hh, fun hallocates => ?_⟩
  refine ⟨render_eq_error_iff hfits hallocates, fun h => ?_⟩
  obtain ⟨source, count, hdraw, hreturns, hnot⟩ := render_of_renderable hfits hallocates h
  exact ⟨source, count, hdraw, hreturns, hnot, fun hscale => Downsampler.calculates_of_le hscale⟩

/-- A rectangle cannot be drawn, but a document with one can, at three times its size. -/
theorem render_outcome_rectangle :
    let o : RenderOptions := { supersample := 3 }
    let d : Document := ⟨#[⟨"svg", [("width", "4"), ("height", "4")], none, [⟨1⟩]⟩, ⟨"rect", [], some ⟨0⟩, []⟩]⟩
    o.Fits ⟨2, 1⟩ ∧ o.Allocates ⟨2, 1⟩ ∧ (∀ e, ¬d.Unrenderable ⟨2, 1⟩ e) ∧
      ∃ frame, o.render d ⟨2, 1⟩ = some (.ok frame) ∧ frame.Sized 2 1 := by
  intro o d
  have hfits : o.Fits ⟨2, 1⟩ := ⟨by decide, by decide, by decide⟩
  have hallocates : o.Allocates ⟨2, 1⟩ := by
    unfold Allocates
    decide
  have hrenderable : ∀ e, ¬d.Unrenderable ⟨2, 1⟩ e :=
    Document.not_unrenderable (by decide) (by decide) (by decide) (by decide +kernel)
  obtain ⟨-, houtcome⟩ := @render_outcome o d ⟨2, 1⟩ fun _ _ => hfits
  obtain ⟨-, hok⟩ := houtcome fun _ _ => hallocates
  obtain ⟨source, count, -, hreturns, -, hscale⟩ := hok hrenderable
  exact ⟨hfits, hallocates, hrenderable, hreturns (hscale (by decide))⟩

/-- A frame of a size that a buffer cannot hold, and one that it can, of which a block has as many samples as there are
words of 32 bits. The document can be rendered, no product of sizes overflows, and neither rendering returns. -/
theorem render_without_result :
    let wide : RenderOptions := { supersample := 1 }
    let fine : RenderOptions := { supersample := 65536 }
    let d : Document := ⟨#[⟨"svg", [("width", "4"), ("height", "4")], none, [⟨1⟩]⟩, ⟨"rect", [], some ⟨0⟩, []⟩]⟩
    wide.Fits ⟨2305843009213693952, 1⟩ ∧ (∀ e, ¬d.Unrenderable ⟨2305843009213693952, 1⟩ e) ∧
      wide.render d ⟨2305843009213693952, 1⟩ = none ∧
      fine.Fits ⟨1, 1⟩ ∧ fine.Allocates ⟨1, 1⟩ ∧ (∀ e, ¬d.Unrenderable ⟨1, 1⟩ e) ∧ fine.render d ⟨1, 1⟩ = none := by
  intro wide fine d
  have hwide : wide.Fits ⟨2305843009213693952, 1⟩ := ⟨by decide, by decide, by decide⟩
  have hfine : fine.Fits ⟨1, 1⟩ := ⟨by decide, by decide, by decide⟩
  have hallocates : fine.Allocates ⟨1, 1⟩ := by
    unfold Allocates
    decide
  have hlarge : ¬wide.Allocates ⟨2305843009213693952, 1⟩ := by
    unfold Allocates
    decide
  have hrenderable (size : FrameSize) (hw : size.width ≠ 0) (hh : size.height ≠ 0) : ∀ e, ¬d.Unrenderable size e :=
    Document.not_unrenderable hw hh (by decide) (by decide +kernel)
  have hone := hrenderable ⟨1, 1⟩ (by decide) (by decide)
  obtain ⟨source, count, -, -, hnot⟩ := render_of_renderable (fun _ _ => hfine) (fun _ _ => hallocates) hone
  refine ⟨hwide, hrenderable _ (by decide) (by decide), render_of_not_allocates hwide (by decide) (by decide) hlarge,
    hfine, hallocates, hone, hnot fun h => ?_⟩
  have hzero : blockSamples 65536 = 0 := by decide
  exact absurd hzero (h.averages 0 Nat.one_pos 0 Nat.one_pos).1

end RenderOptions

end VectorRaster
