/-
  VectorRaster.Proofs.Render.Direct — drawing at the target's own size is reducing by one.

  A document that is not to be drawn larger than its target is drawn on the target's frame, and no
  reduction follows. That is a shortcut. At a scale of one each block is a single pixel, whose mean is
  that pixel (`blockMean_one`), so a reduction leaves the top left corner of its source, as large as
  the target (`reduce_of_scale_one`); and a source of the target's size is all corner.

  Main statement: `render_directly`. The shortcut gives the frame, or the error, that drawing and
  reducing by one gives.
-/

import VectorRaster.Proofs.Raster.Rows
import VectorRaster.Proofs.Render.Outcome

namespace VectorRaster

open Numeric

/-! ## Blocks of one pixel -/

theorem Pixel.ext_channel {p q : Pixel} (h : ∀ c, p.channel c = q.channel c) : p = q := by
  obtain ⟨r, g, b, a⟩ := p
  obtain ⟨r', g', b', a'⟩ := q
  have hr : r = r' := h .red
  have hg : g = g' := h .green
  have hb : b = b' := h .blue
  have ha : a = a' := h .alpha
  rw [hr, hg, hb, ha]

theorem Frame.blockSum_one (f : Frame) (c : Channel) (x y : Nat) :
    f.blockSum 1 c x y = ((f.pixel x y).channel c).toNat := by
  simp only [blockSum, rowSum, Nat.mul_one, Nat.Ico_succ_singleton, Finset.sum_singleton]

/-- The mean of one pixel is that pixel. -/
theorem Frame.blockMean_one (f : Frame) (x y : Nat) : f.blockMean 1 x y = f.pixel x y := by
  refine Pixel.ext_channel fun c => UInt8.toNat_inj.mp ?_
  rw [channel_blockMean, toNat_channelMean f x y c (by decide) (by decide), blockSum_one]
  omega

/-- Scaling a size by one keeps words as they are. -/
theorem FrameSize.scaled?_one (size : FrameSize) :
    size.scaled? 1 = some ⟨size.width % Word.size, size.height % Word.size⟩ := by
  have hside : ∀ n, Word.product? n 1 = some (n % Word.size) := by
    intro n
    have hword : n % Word.size * (1 % Word.size) = n % Word.size := Nat.mul_one _
    rw [Word.product?, hword]
    exact if_pos (Nat.mod_lt _ (by decide))
  rw [scaled?, hside, hside]
  rfl

/-- A reduction by one takes the corner of its source that is as large as the target. -/
theorem Downsampler.reduce_of_scale_one {d : Downsampler} (hscale : d.scale = 1) (pool : WorkerPool) {source : Frame}
    (hsource : source.Sized source.width source.height) {target : FrameSize} (hwidth : target.width ≤ source.width)
    (hheight : target.height ≤ source.height) :
    ∃ frame, d.reduce pool source target = some (.ok frame) ∧ frame.Sized target.width target.height ∧
      ∀ x < target.width, ∀ y < target.height, frame.get? x y = source.get? x y := by
  have haccepts : d.Accepts source target := by
    refine ⟨⟨target.width % Word.size, target.height % Word.size⟩, ?_, (Nat.mod_le _ _).trans hwidth,
      (Nat.mod_le _ _).trans hheight⟩
    rw [hscale]
    exact target.scaled?_one
  have hfits : d.Fits source target := by
    rw [Fits, hscale, Nat.mul_one, Nat.mul_one]
    exact ⟨hwidth, hheight⟩
  have hcalculates : d.Calculates source target := calculates_of_le (hscale.le.trans (by decide))
  obtain ⟨frame, hframe, hsized, hpixels⟩ := reduce_blockMean hsource haccepts hfits pool hcalculates
  refine ⟨frame, hframe, hsized, fun x hx y hy => ?_⟩
  rw [hpixels x hx y hy, hscale, Frame.blockMean_one, hsource.get? (by omega) (by omega)]

/-! ## The shortcut -/

namespace RenderOptions

variable {o : RenderOptions} {d : Document} {size : FrameSize}

theorem render_of_supersample_le_one (h : o.supersample ≤ 1) : o.render d size
    = if size.isEmpty then some (.error (.zeroSizedSurface size)) else o.renderDirect d size := by
  have hscale : max o.supersample 1 = 1 := Nat.max_eq_right h
  simp only [render, hscale, if_true]
  rfl

theorem sized_draw {frame : Frame} {width height : Nat} (h : frame.Sized width height) {drawn : Frame × Nat}
    (hdrawn : o.draw d frame = .ok drawn) : drawn.1.Sized width height := by
  by_cases hempty : d.children Document.root = []
  · rw [draw_of_empty hempty] at hdrawn
    cases hdrawn
  · cases hviewport : Viewport.ofElement d Document.root with
    | error e =>
      rw [draw_of_viewport_error hempty hviewport] at hdrawn
      cases hdrawn
    | ok viewport =>
      obtain ⟨frame', count, hok, hsized⟩ := @draw_of_viewport o d viewport frame width height h hempty hviewport
      cases hok.symm.trans hdrawn
      exact hsized

/-- Whatever comes of drawing a document, comes of drawing it and reducing by one. -/
theorem renderDirect_eq (hwidth : size.width < Word.size) (hheight : size.height < Word.size) :
    o.renderDirect d size = o.renderReduced d size 1 := by
  have hscaled : size.scaled? 1 = some size := by
    rw [FrameSize.scaled?_one, Nat.mod_eq_of_lt hwidth, Nat.mod_eq_of_lt hheight]
  rw [renderDirect, renderReduced, hscaled]
  simp only [bind, Option.bind_some]
  refine Option.bind_congr fun blank hblank => ?_
  have hsized : blank.Sized size.width size.height := by
    rw [Frame.allocate?] at hblank
    split at hblank
    · cases hblank
      exact Frame.Sized.blank _ _
    · cases hblank
  cases hdraw : o.draw d blank with
  | error e => rfl
  | ok drawn =>
    have hdrawn : drawn.1.Sized size.width size.height := sized_draw hsized hdraw
    obtain ⟨frame, hframe, hframe', hpixels⟩ := Downsampler.reduce_of_scale_one (d := ⟨1, Nat.one_pos⟩) rfl o.pool
      hdrawn.own hdrawn.width.ge hdrawn.height.ge
    have hsame : frame = drawn.1 := hframe'.ext hdrawn hpixels
    simp only [Downsampler.ofScale, dif_pos Nat.one_pos, hframe, hsame, Option.map_some, mapError_ok]
    rfl

/-- A reduction by one gives the corner of its source that is as large as the target, pixel for pixel, whatever
the source. So drawing a document directly gives the same frame, or the same error, as drawing it and reducing by one,
and without supersampling a document is rendered just as it is by the general way with a scale of one. -/
theorem render_directly (o : RenderOptions) (d : Document) (hwidth : size.width < Word.size)
    (hheight : size.height < Word.size) :
    (∀ (one : Downsampler) (pool : WorkerPool) (source : Frame) (target : FrameSize), one.scale = 1 →
      source.Sized source.width source.height → target.width ≤ source.width → target.height ≤ source.height →
      ∃ frame, one.reduce pool source target = some (.ok frame) ∧ frame.Sized target.width target.height ∧
        ∀ x < target.width, ∀ y < target.height, frame.get? x y = source.get? x y) ∧
    o.renderDirect d size = o.renderReduced d size 1 ∧
    (o.supersample ≤ 1 →
      o.render d size = if size.isEmpty then some (.error (.zeroSizedSurface size)) else o.renderReduced d size 1) := by
  refine ⟨fun one pool source target hscale hsource hw hh => ?_, renderDirect_eq hwidth hheight, fun hdirect => ?_⟩
  · exact Downsampler.reduce_of_scale_one hscale pool hsource hw hh
  · rw [render_of_supersample_le_one hdirect, renderDirect_eq hwidth hheight]

/-- A source that is wider than the target, and a document with a path. -/
theorem render_directly_corner :
    let source : Frame := ⟨3, 2, #[⟨0, 0, 0, 0⟩, ⟨1, 0, 0, 0⟩, ⟨2, 0, 0, 0⟩, ⟨3, 0, 0, 0⟩, ⟨4, 0, 0, 0⟩, ⟨5, 0, 0, 0⟩]⟩
    let o : RenderOptions := { supersample := 0 }
    let d : Document := ⟨#[⟨"svg", [("width", "2"), ("height", "2")], none, [⟨1⟩]⟩,
      ⟨"path", [("d", "M 0 0 L 1 1")], some ⟨0⟩, []⟩]⟩
    2 < Word.size ∧ 2 < Word.size ∧ source.Sized source.width source.height ∧
      (∃ frame, (⟨1, Nat.one_pos⟩ : Downsampler).reduce ⟨4⟩ source ⟨2, 2⟩ = some (.ok frame) ∧
        frame.get? 1 1 = some ⟨4, 0, 0, 0⟩) ∧
      o.render d ⟨2, 2⟩ = o.renderReduced d ⟨2, 2⟩ 1 := by
  intro source o d
  have hsource : source.Sized source.width source.height := ⟨rfl, rfl, rfl⟩
  obtain ⟨hcorner, -, hrender⟩ := @render_directly ⟨2, 2⟩ o d (by decide) (by decide)
  obtain ⟨frame, hframe, -, hpixels⟩ := hcorner ⟨1, Nat.one_pos⟩ ⟨4⟩ source ⟨2, 2⟩ rfl hsource (by decide) (by decide)
  have hpixel := hpixels 1 (by decide) 1 (by decide)
  exact ⟨by decide, by decide, hsource, ⟨frame, hframe, hpixel.trans rfl⟩, hrender (by decide)⟩

end RenderOptions

end VectorRaster
