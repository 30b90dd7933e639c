/-
  VectorRaster.Render.Options — what a caller can set for the drawing of documents.
-/

import VectorRaster.Document.Style

namespace VectorRaster

structure RenderOptions where
  /-- Documents are drawn this many times as large and then averaged down; 0 counts as 1. -/
  supersample : Nat := 2
  defaultColor : Color := .black
  defaultStrokeWidth : Float := 1.0
  /-- The number of workers; the machine's number of processors if not given. -/
  workerThreads : Option Nat := none

def RenderOptions.styleDefaults (o : RenderOptions) : StyleDefaults := ⟨o.defaultColor, o.defaultStrokeWidth⟩

end VectorRaster
