import VectorRaster.Json.Codec
import VectorRaster.Render.Document
import VectorRaster.Raster.Register
import VectorRaster.Proofs.Fill.Regions
import VectorRaster.Proofs.Fill.Search
import VectorRaster.Proofs.Fill.Enclosed
import VectorRaster.Proofs.Path.Checked
import VectorRaster.Proofs.Path.Grammar
import VectorRaster.Proofs.Raster.Strokes
import VectorRaster.Proofs.Render.Drawing
import VectorRaster.Proofs.Numeric.Arithmetic
import VectorRaster.Proofs.Numeric.Conversion
import VectorRaster.Proofs.Geometry.Bezier
import VectorRaster.Proofs.Numeric.Near
import VectorRaster.Proofs.Geometry.Sampling
import VectorRaster.Proofs.Numeric.Extremes
import VectorRaster.Proofs.Raster.Nearest
import VectorRaster.Proofs.Geometry.Stretch
import VectorRaster.Proofs.Geometry.SampleCount
import VectorRaster.Proofs.Raster.Shortcut
import VectorRaster.Proofs.Raster.Spacing
import VectorRaster.Proofs.Path.Longhand
import VectorRaster.Proofs.Raster.Blocks
import VectorRaster.Proofs.Render.Isolation
import VectorRaster.Proofs.Render.Outcome
import VectorRaster.Proofs.Raster.Tiling
import VectorRaster.Proofs.Path.Layout
import VectorRaster.Proofs.Path.History
import VectorRaster.Proofs.Path.Subpaths
import VectorRaster.Proofs.Path.Dissection
import VectorRaster.Proofs.Document.Inheritance
import VectorRaster.Proofs.Render.Coats
import VectorRaster.Proofs.Path.Interpreter
import VectorRaster.Proofs.Path.Joints
import VectorRaster.Proofs.Path.Verdict
import VectorRaster.Proofs.Raster.Circles
import VectorRaster.Proofs.Raster.Outlines
import VectorRaster.Proofs.Fill.Closure
import VectorRaster.Proofs.Raster.Exact
import VectorRaster.Proofs.Fill.Holes
import VectorRaster.Proofs.Fill.Distance
import VectorRaster.Proofs.Fill.Order
import VectorRaster.Proofs.Geometry.Coefficients
import VectorRaster.Proofs.Geometry.Interpolation
import VectorRaster.Proofs.Color.Casing
import VectorRaster.Proofs.Document.CurrentColor
import VectorRaster.Proofs.Document.Viewports
import VectorRaster.Proofs.Geometry.Hull
import VectorRaster.Proofs.Raster.Extent
import VectorRaster.Proofs.Render.Direct
import VectorRaster.Proofs.Fill.Marking
import VectorRaster.Proofs.Raster.Replay
import VectorRaster.Proofs.Color.Digits
import VectorRaster.Proofs.Raster.Access
import VectorRaster.Proofs.Geometry.ArcSweep
import VectorRaster.Proofs.Document.Lengths
import VectorRaster.Proofs.Document.Foreign
import VectorRaster.Proofs.Fill.Queue
import VectorRaster.Proofs.Raster.Steps
