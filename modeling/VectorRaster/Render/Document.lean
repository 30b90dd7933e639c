/-
  VectorRaster.Render.Document — drawing documents: paths, circles and ellipses.

  The children of the root are drawn in order. One that cannot be drawn is left out, and
  the rest of the document is drawn all the same. A document without elements, without a
  size or for a frame without pixels is an error.
-/

import VectorRaster.Raster.Downsample
import VectorRaster.Raster.Png
import VectorRaster.Render.Options
import VectorRaster.Render.Outline

namespace VectorRaster

/-- Why one element cannot be drawn. -/
inductive ElementError where
  | path (error : PathError)
  | badAttribute (error : AttributeError)
  | unsupported (name : String)
  deriving DecidableEq, Repr

/-- Why a whole document cannot be drawn. -/
inductive RenderError where
  | emptyDocument
  | zeroSizedSurface (size : FrameSize)
  | viewport (error : AttributeError)
  | supersample (error : SupersampleError)
  | encode (error : Png.EncodeError)
  deriving DecidableEq, Repr

def ElementError.message : ElementError → String
  | path e => e.message
  | badAttribute e => e.message
  | unsupported name => s!"<{name}> elements are not supported"

def RenderError.message : RenderError → String
  | emptyDocument => "the document has no elements to render"
  | zeroSizedSurface size => s!"cannot render to a {size.width}x{size.height} frame"
  | viewport e => e.message
  | supersample e => e.message
  | encode e => s!"could not write the image: {e.message}"

namespace Document

/-- The number that an element itself sets, as a reason not to draw it if it is missing. -/
def coordinate (d : Document) (id : ElementId) (name : String) : Except ElementError Float :=
  (d.number id name).mapError .badAttribute

/-- The outline of an element. -/
def outline (d : Document) (id : ElementId) : Except ElementError (List Path.Command) :=
  match d.name id with
  | "path" =>
    match d.attribute? id "d" with
    | some data => (Path.parse data).mapError .path
    | none => .error (.badAttribute (.missing "d"))
  | "circle" => do
    let radius ← d.coordinate id "r"
    return Path.circle (← d.coordinate id "cx") (← d.coordinate id "cy") radius
  | "ellipse" => do
    let radiusX ← d.coordinate id "rx"
    let radiusY ← d.coordinate id "ry"
    return Path.ellipse (← d.coordinate id "cx") (← d.coordinate id "cy") radiusX radiusY
  | other => .error (.unsupported other)

end Document

namespace RenderOptions

/-- Draws one element. -/
def drawElement (o : RenderOptions) (d : Document) (viewport : Viewport) (frame : Frame) (id : ElementId) :
    Except ElementError Frame := do
  let commands ← d.outline id
  let style ← (Style.ofElement d id viewport.referenceLength o.styleDefaults).mapError .badAttribute
  let drawing ← (frame.drawPath commands (viewport.toSurface frame.width frame.height) style).mapError .path
  return drawing.frame

/-- Draws elements in order, and counts those that could be drawn. -/
def drawElements (o : RenderOptions) (d : Document) (viewport : Viewport) (frame : Frame) (ids : List ElementId) :
    Frame × Nat :=
  ids.foldl (fun (frame, drawn) id =>
    match o.drawElement d viewport frame id with
    | .ok frame => (frame, drawn + 1)
    | .error _ => (frame, drawn)) (frame, 0)

/-- Draws a document on a frame, and counts the elements that could be drawn. -/
def draw (o : RenderOptions) (d : Document) (frame : Frame) : Except RenderError (Frame × Nat) :=
  match d.children Document.root with
  | [] => .error .emptyDocument
  | ids => do
    let viewport ← (Viewport.ofElement d Document.root).mapError .viewport
    return o.drawElements d viewport frame ids

def pool (o : RenderOptions) : WorkerPool := ⟨o.workerThreads.getD 1⟩

/-- The frame of a document, drawn at its own size. -/
def renderDirect (o : RenderOptions) (d : Document) (size : FrameSize) : Option (Except RenderError Frame) := do
  let blank ← Frame.allocate? size.width size.height
  return (o.draw d blank).map (·.1)

/-- The frame of a document, drawn `scale` times as large and averaged down. -/
def renderReduced (o : RenderOptions) (d : Document) (size : FrameSize) (scale : Nat) :
    Option (Except RenderError Frame) := do
  let large ← size.scaled? scale
  let blank ← Frame.allocate? large.width large.height
  match o.draw d blank with
  | .error e => return .error e
  | .ok (source, _) =>
    match Downsampler.ofScale scale with
    | .error e => return .error (.supersample e)
    | .ok downsampler => (downsampler.reduce o.pool source size).map (·.mapError .supersample)

/-- The frame of a document, at this size. None if rendering does not return. -/
def render (o : RenderOptions) (d : Document) (size : FrameSize) : Option (Except RenderError Frame) :=
  let scale := max o.supersample 1
  if size.isEmpty then return .error (.zeroSizedSurface size)
  else if scale = 1 then o.renderDirect d size
  else o.renderReduced d size scale

/-- The frame of a document, at the width and height that its root sets. -/
def renderNatural (o : RenderOptions) (d : Document) : Option (Except RenderError Frame) :=
  let sides : Except RenderError (Float × Float) := do
    let width ← (d.number Document.root "width").mapError .viewport
    let height ← (d.number Document.root "height").mapError .viewport
    return (width, height)
  match sides with
  | .error e => return .error e
  | .ok (width, height) =>
    if width < 1.0 || height < 1.0 then
      return .error (.zeroSizedSurface ⟨Numeric.truncateCount width, Numeric.truncateCount height⟩)
    else
      o.render d ⟨Numeric.truncateCount (Numeric.roundHalfAway width),
        Numeric.truncateCount (Numeric.roundHalfAway height)⟩

end RenderOptions

end VectorRaster
