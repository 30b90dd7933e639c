/-
  VectorRaster.Raster.Tasks — independent tasks, and the workers that share them.

  A task sees nothing of the others, so however many workers take them, the results in
  task order are those of one task after another.
-/

namespace VectorRaster

structure WorkerPool where
  threads : Nat

/-- The results of tasks `0` to `count - 1`, in task order. -/
def WorkerPool.run {α : Type} (_ : WorkerPool) (count : Nat) (task : Nat → α) : List α :=
  (List.range count).map task

end VectorRaster
