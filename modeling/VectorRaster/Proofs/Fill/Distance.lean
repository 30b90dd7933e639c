/-
  VectorRaster.Proofs.Fill.Distance — a search finds the cells of a region by their distance from its start.

  The distance of two cells is the length of a shortest path between them, over open cells
  only.

  Cells are taken in the order in which they were found, so what has been found and not yet
  taken is a queue. It is sorted by distance and spans two distances at most (`Layered`). A
  neighbour that is new when a cell is taken is one step further from the start than that
  cell: all cells that are no further than it have been found before (`found_of_distance_le`),
  because a shortest path to them ends with a step from a cell that has been taken.

  Proved: `layered_whole`, that a whole search lists its start first, and then its region by
  distance from it.
-/

import Mathlib.Combinatorics.SimpleGraph.Metric
import VectorRaster.Proofs.Fill.Search

namespace VectorRaster

namespace BorderMask

variable {m : BorderMask} {seed c d : Cell}

/-! ## Distances -/

theorem not_step_self (m : BorderMask) (c : Cell) : ¬m.Step c c := by
  intro h
  have := h.1
  unfold Cell.NextTo at this
  omega

/-- The cells of a mask, with an edge where a path can step. -/
def pathGraph (m : BorderMask) : SimpleGraph Cell where
  Adj := m.Step
  symm := ⟨fun _ _ h => h.symm⟩
  loopless := ⟨m.not_step_self⟩

/-- The number of steps of a shortest path. -/
noncomputable def distance (m : BorderMask) (c d : Cell) : Nat := m.pathGraph.dist c d

theorem reachable_iff_joined : m.pathGraph.Reachable c d ↔ m.Joined c d :=
  SimpleGraph.reachable_iff_reflTransGen c d

theorem distance_step_le (hj : m.Joined seed c) (hs : m.Step c d) : m.distance seed d ≤ m.distance seed c + 1 := by
  have hone : m.pathGraph.dist c d = 1 := SimpleGraph.dist_eq_one_iff_adj.mpr hs
  have htriangle := (reachable_iff_joined.mpr hj).dist_triangle_left d
  rwa [hone] at htriangle

/-- A shortest path to another cell comes there from a cell that is one step nearer. -/
theorem exists_step_of_ne (hj : m.Joined seed d) (hne : d ≠ seed) :
    ∃ c, m.Joined seed c ∧ m.Step c d ∧ m.distance seed c + 1 = m.distance seed d := by
  obtain ⟨path, hpath⟩ := (reachable_iff_joined.mpr hj).exists_walk_length_eq_dist
  have hnil : ¬path.Nil := SimpleGraph.Walk.not_nil_of_ne hne.symm
  have hstart : path.dropLast.length = m.distance seed path.penultimate :=
    SimpleGraph.length_eq_dist_of_subwalk hpath (SimpleGraph.Walk.isSubwalk_take path (path.length - 1))
  have hlength : path.length = m.distance seed d := hpath
  have hpos : 0 < path.length := SimpleGraph.Walk.not_nil_iff_lt_length.mp hnil
  rw [SimpleGraph.Walk.length_dropLast] at hstart
  exact ⟨path.penultimate, reachable_iff_joined.mp ⟨path.dropLast⟩, path.adj_penultimate hnil, by omega⟩

end BorderMask

namespace RegionSearch

open BorderMask

variable {m : BorderMask} {old : Array Bool} {seed c d : Cell} {s : RegionSearch} {next : Nat}

/-! ## The queue -/

/-- What has been found, when the first `next` cells have been taken, by distance from the start. -/
structure Layered (m : BorderMask) (seed : Cell) (next : Nat) (s : RegionSearch) : Prop where
  first : s.cells.toList.head? = some seed
  sorted : s.cells.toList.Pairwise fun c d => m.distance seed c ≤ m.distance seed d
  span : ∀ c ∈ s.cells.toList.drop next, ∀ d ∈ s.cells, m.distance seed d ≤ m.distance seed c + 1

theorem Layered.start (m : BorderMask) (old : Array Bool) (seed : Cell) : Layered m seed 0 (start m old seed) where
  first := rfl
  sorted := List.pairwise_singleton _ _
  span := by simp [RegionSearch.start]

theorem Layered.seed_mem (h : Layered m seed next s) : seed ∈ s.cells := by
  simpa using List.mem_of_head? h.first

/-- What is still to be taken is no nearer than the cell that is taken next. -/
theorem Layered.distance_le (h : Layered m seed next s) (hc : s.cells[next]? = some c)
    (hd : d ∈ s.cells.toList.drop next) : m.distance seed c ≤ m.distance seed d := by
  obtain ⟨hlt, rfl⟩ := Array.getElem?_eq_some_iff.mp hc
  have hdrop : s.cells.toList.drop next = s.cells[next] :: s.cells.toList.drop (next + 1) :=
    List.drop_eq_getElem_cons (by simpa using hlt)
  have hsorted := h.sorted.sublist (List.drop_sublist next _)
  rw [hdrop] at hd hsorted
  rcases List.mem_cons.mp hd with rfl | hd
  · exact Nat.le_refl _
  · exact List.rel_of_pairwise_cons hsorted hd

/-- Every cell that is no further from the start than the one that is taken next has been found. -/
theorem found_of_distance_le (hold : m.Settled old) (hs : Sound m old seed s) (hsc : Scanned m next s)
    (hl : Layered m seed next s) (hc : s.cells[next]? = some c) (hj : m.Joined seed d)
    (hle : m.distance seed d ≤ m.distance seed c) : d ∈ s.cells := by
  -- along a shortest path, which reaches each of its cells from one that has been taken
  induction hn : m.distance seed d using Nat.strong_induction_on generalizing d with
  | _ n ih =>
    by_cases hne : d = seed
    · exact hne ▸ hl.seed_mem
    obtain ⟨e, hje, hstep, hdist⟩ := exists_step_of_ne hj hne
    have he : e ∈ s.cells := ih _ (by omega) hje (by omega) rfl
    have htaken : e ∈ s.cells.toList.take next := by
      have hmem : e ∈ s.cells.toList := by simpa using he
      rw [← List.take_append_drop next s.cells.toList, List.mem_append] at hmem
      refine hmem.resolve_right fun hdrop => ?_
      have := hl.distance_le hc hdrop
      omega
    rcases (hs.raised_iff d hstep.2.2.1).mp (hsc.closed e htaken d hstep) with hd | hd
    · exact hd
    · -- a step back would lead from a region that was visited before to a new cell
      exact absurd (hold d e hstep.symm hd) (hs.new e he)

/-! ## Taking one cell -/

/-- A cell that is one step further than the one that is taken starts or continues the next layer. -/
theorem Layered.push (hl : Layered m seed next s) (hc : s.cells[next]? = some c)
    (hd : m.distance seed d = m.distance seed c + 1) (visited : Array Bool) :
    Layered m seed next { s with visited := visited, cells := s.cells.push d } := by
  have hdistance := fun e => hl.distance_le (d := e) hc
  obtain ⟨hlt, rfl⟩ := Array.getElem?_eq_some_iff.mp hc
  have hqueue : s.cells[next] ∈ s.cells.toList.drop next := by
    rw [List.drop_eq_getElem_cons (by simpa using hlt), Array.getElem_toList]
    exact List.mem_cons_self
  refine ⟨?_, ?_, fun e he f hf => ?_⟩
  · rw [Array.toList_push, List.head?_append, hl.first, Option.some_or]
  · rw [Array.toList_push, List.pairwise_append]
    refine ⟨hl.sorted, List.pairwise_singleton _ _, fun e he f hf => ?_⟩
    rw [List.mem_singleton.mp hf, hd]
    exact hl.span _ hqueue e (by simpa using he)
  · rw [Array.toList_push, List.drop_append_of_le_length (by simpa using hlt.le), List.mem_append,
      List.mem_singleton] at he
    rw [Array.mem_push] at hf
    rcases he with he | rfl <;> rcases hf with hf | rfl
    · exact hl.span e he f hf
    · rw [hd]
      exact Nat.succ_le_succ (hdistance e he)
    · have := hl.span _ hqueue f hf
      omega
    · exact Nat.le_succ _

theorem Layered.meet (hs : Sound m old seed s) (hl : Layered m seed next s) (hc : s.cells[next]? = some c)
    (hfound : ∀ d, m.Joined seed d → m.distance seed d ≤ m.distance seed c → d ∈ s.cells)
    {o : Option Cell} (ho : o ∈ m.neighbours c) : Layered m seed next (s.meet m o) := by
  have hmem : c ∈ s.cells := Array.mem_of_getElem? hc
  cases o with
  | none => exact ⟨hl.first, hl.sorted, hl.span⟩
  | some d =>
    obtain ⟨hnext, hd⟩ := (mem_neighbours (hs.isOpen c hmem).1).mp ho
    rw [meet_some hd]
    split
    · exact hl
    · rename_i hcond
      obtain ⟨hr, hopen⟩ : ¬m.Raised s.visited d ∧ m.IsOpen d := by simpa using hcond
      have hstep : m.Step c d := ⟨hnext, hs.isOpen c hmem, hopen⟩
      have hnew : d ∉ s.cells := fun h => hr ((hs.raised_iff d hd).mpr (.inl h))
      have hfurther : m.distance seed c < m.distance seed d :=
        Nat.lt_of_not_le fun hle => hnew (hfound d ((hs.joined c hmem).tail hstep) hle)
      exact hl.push hc (Nat.le_antisymm (distance_step_le (hs.joined c hmem) hstep) hfurther) _

theorem Layered.foldl_meet (hs : Sound m old seed s) (hl : Layered m seed next s) (hc : s.cells[next]? = some c)
    (hfound : ∀ d, m.Joined seed d → m.distance seed d ≤ m.distance seed c → d ∈ s.cells)
    {os : List (Option Cell)} (hos : os ⊆ m.neighbours c) :
    Layered m seed next (os.foldl (RegionSearch.meet m) s) := by
  induction os generalizing s with
  | nil => exact hl
  | cons o os ih =>
    have ho := hos List.mem_cons_self
    have hsub : s.cells.toList <+: (s.meet m o).cells.toList := prefix_meet s o
    have hc' : (s.meet m o).cells[next]? = some c := by
      rw [← Array.getElem?_toList] at hc ⊢
      obtain ⟨hlt, hget⟩ := List.getElem?_eq_some_iff.mp hc
      rw [List.prefix_iff_getElem?.mp hsub next hlt, hget]
    refine ih (hs.meet (Array.mem_of_getElem? hc) ho) (hl.meet hs hc hfound ho) hc' (fun d hj hle => ?_)
      fun _ h => hos (List.mem_cons_of_mem _ h)
    simpa using hsub.subset (by simpa using hfound d hj hle)

theorem Layered.take (hold : m.Settled old) (hs : Sound m old seed s) (hsc : Scanned m next s)
    (hl : Layered m seed next s) (hc : s.cells[next]? = some c) : Layered m seed (next + 1) (s.take m c) := by
  have hmet := hl.foldl_meet hs hc (fun _ => found_of_distance_le hold hs hsc hl hc) (List.Subset.refl _)
  refine ⟨hmet.first, hmet.sorted, fun d hd => hmet.span d ?_⟩
  exact (List.drop_sublist_drop_left _ (Nat.le_succ next)).subset hd

/-! ## A whole search -/

/-- What every cell that is taken keeps, a search keeps. -/
theorem run_induct {P : Nat → RegionSearch → Prop}
    (htake : ∀ next s c, s.cells[next]? = some c → P next s → P (next + 1) (s.take m c)) (steps : Nat)
    (h : P next s) : ∃ last, P last (s.run m steps next) := by
  induction steps generalizing s next with
  | zero => exact ⟨next, h⟩
  | succ steps ih =>
    cases hc : s.cells[next]? with
    | none =>
      simp only [run, hc]
      exact ⟨next, h⟩
    | some c =>
      simp only [run, hc]
      exact ih (htake next s c hc h)

/-- A search lists its start first, and what it finds by distance from there. -/
theorem layered_whole (hsize : old.size = m.width * m.height) (hold : m.Settled old) (ho : m.IsOpen seed)
    (hn : ¬m.Raised old seed) : ∃ last, Layered m seed last (whole m old seed) := by
  have hrun := run_induct (m := m) (P := fun next s => Sound m old seed s ∧ Scanned m next s ∧ Layered m seed next s)
    (fun next s c hc ⟨hs, hsc, hl⟩ =>
      ⟨(hs.foldl_meet (Array.mem_of_getElem? hc) (List.Subset.refl _)).1, hsc.take hs hc, hl.take hold hs hsc hc⟩)
    (m.width * m.height) ⟨.start hsize ho hn, .start m old seed, .start m old seed⟩
  obtain ⟨last, -, -, hl⟩ := hrun
  exact ⟨last, hl⟩

end RegionSearch

end VectorRaster
