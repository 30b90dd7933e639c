/-
  VectorRaster.Proofs.Fill.Order — the order in which enclosed cells are listed.

  A survey visits the cells row by row, and a cell that starts a search is the first one of its
  region in that order: any earlier one would have been flagged when it was visited. So the
  regions are found in the order of their first cells (`Survey.Ordered`, kept by every cell
  that is visited).

  Proved: `enclosedCells_regions`, that the enclosed cells are listed region by region, in row
  order of the regions' first cells, and each region by distance from its first cell.
-/

import VectorRaster.Proofs.Fill.Distance
import VectorRaster.Proofs.Fill.Enclosed

namespace VectorRaster

open BorderMask

/-! ## Row order -/

/-- Row by row, and from left to right in a row. -/
def Cell.Before (c d : Cell) : Prop := c.y < d.y ∨ (c.y = d.y ∧ c.x < d.x)

theorem pairwise_all (width height : Nat) : (Cell.all width height).Pairwise Cell.Before := by
  refine List.pairwise_flatMap.mpr ⟨fun y _ => ?_, ?_⟩
  · refine List.pairwise_map.mpr (List.pairwise_lt_range.imp fun hlt => ?_)
    exact .inr ⟨rfl, hlt⟩
  · refine List.pairwise_lt_range.imp fun hlt c hc d hd => ?_
    obtain ⟨_, -, rfl⟩ := List.mem_map.mp hc
    obtain ⟨_, -, rfl⟩ := List.mem_map.mp hd
    exact .inl hlt

/-- The cells of a region are listed from the first in row order, by distance from it. -/
structure BorderMask.ListedFrom (m : BorderMask) (first : Cell) (cells : List Cell) : Prop where
  head : cells.head? = some first
  before : ∀ c ∈ cells, c = first ∨ first.Before c
  sorted : cells.Pairwise fun c d => m.distance first c ≤ m.distance first d

namespace Survey

variable {m : BorderMask} {s : Survey} {c : Cell} {visited rest : List Cell}

/-! ## A survey -/

/-- What is known of the regions when some cells have been visited. -/
structure Ordered (m : BorderMask) (visited : List Cell) (s : Survey) : Prop where
  listed : ∀ r ∈ s.regions.toList, ∃ first ∈ visited, m.ListedFrom first r.cells
  inOrder : s.regions.toList.Pairwise fun r r' => ∀ c ∈ r.cells.head?, ∀ d ∈ r'.cells.head?, c.Before d
  raised : ∀ c ∈ visited, m.IsOpen c → m.Raised s.visited c

theorem Ordered.start (m : BorderMask) : Ordered m [] (start m) where
  listed := by simp [Survey.start]
  inOrder := by simp [Survey.start]
  raised := by simp

theorem Ordered.visit (h : Ordered m visited s) (hs : Sound m s) (hc : m.contains c = true)
    (hlast : ∀ d ∈ visited, d.Before c) (hnext : ∀ d, m.contains d = true → d ∈ visited ∨ d = c ∨ c.Before d) :
    Ordered m (visited ++ [c]) (s.visit m c) := by
  have hraised : ∀ d ∈ visited ++ [c], m.IsOpen d → m.Raised (s.visit m c).visited d := by
    intro d hd ho
    rcases List.mem_append.mp hd with hd | hd
    · exact raised_visit_of_raised hs hc ho.1 (h.raised d hd ho)
    · rw [List.mem_singleton.mp hd] at ho ⊢
      exact raised_visit hs ho
  have hold : ∀ r ∈ s.regions.toList, ∃ first ∈ visited ++ [c], m.ListedFrom first r.cells := fun r hr => by
    obtain ⟨first, hfirst, hlisted⟩ := h.listed r hr
    exact ⟨first, List.mem_append_left _ hfirst, hlisted⟩
  rw [visit_eq hc] at hraised ⊢
  split
  · rename_i hcond
    rw [if_pos hcond] at hraised
    exact ⟨hold, h.inOrder, hraised⟩
  · rename_i hcond
    rw [if_neg hcond] at hraised
    obtain ⟨hn, ho⟩ : ¬m.Raised s.visited c ∧ m.IsOpen c := by simpa using hcond
    have hsearch := RegionSearch.sound_whole hs.size ho hn
    obtain ⟨last, hlayered⟩ := RegionSearch.layered_whole hs.size hs.settled ho hn
    have hlisted : m.ListedFrom c (RegionSearch.whole m s.visited c).cells.toList := by
      refine ⟨hlayered.first, fun d hd => ?_, hlayered.sorted⟩
      have hd : d ∈ (RegionSearch.whole m s.visited c).cells := by simpa using hd
      -- a cell that was visited before would have been flagged then
      refine (hnext d (hsearch.isOpen d hd).1).resolve_left fun hvisited => ?_
      exact hsearch.new d hd (h.raised d hvisited (hsearch.isOpen d hd))
    refine ⟨fun r hr => ?_, ?_, hraised⟩
    · rw [Array.toList_push, List.mem_append, List.mem_singleton] at hr
      rcases hr with hr | rfl
      · exact hold r hr
      · exact ⟨c, List.mem_append_right _ (List.mem_singleton.mpr rfl), hlisted⟩
    · rw [Array.toList_push, List.pairwise_append]
      refine ⟨h.inOrder, List.pairwise_singleton _ _, fun r hr r' hr' d hd e he => ?_⟩
      obtain ⟨first, hfirst, hfrom⟩ := h.listed r hr
      rw [List.mem_singleton.mp hr'] at he
      rw [hfrom.head, Option.mem_some_iff] at hd
      rw [hlisted.head, Option.mem_some_iff] at he
      exact hd ▸ he ▸ hlast first hfirst

/-- A survey that has visited some cells in row order goes on to visit the others. -/
theorem Ordered.foldl_visit (h : Ordered m visited s) (hs : Sound m s)
    (hall : Cell.all m.width m.height = visited ++ rest) :
    Ordered m (Cell.all m.width m.height) (rest.foldl (Survey.visit m) s) := by
  induction rest generalizing visited s with
  | nil =>
    rw [hall, List.append_nil]
    exact h
  | cons c rest ih =>
    have hmem : ∀ d, d ∈ visited ++ c :: rest ↔ m.contains d = true := fun d => by
      rw [← hall, mem_all, contains_iff]
    have hpairs := pairwise_all m.width m.height
    rw [hall, List.pairwise_append, List.pairwise_cons] at hpairs
    obtain ⟨-, ⟨hlater, -⟩, hearlier⟩ := hpairs
    have hc : m.contains c = true := (hmem c).mp (by simp)
    refine ih (h.visit hs hc (fun d hd => hearlier d hd c List.mem_cons_self) fun d hd => ?_) (hs.visit hc) ?_
    · rcases List.mem_append.mp ((hmem d).mpr hd) with hd | hd
      · exact .inl hd
      · exact .inr ((List.mem_cons.mp hd).imp_right (hlater d))
    · rw [hall, List.append_assoc, List.singleton_append]

end Survey

namespace BorderMask

/-- The regions of a mask come in row order of their first cells, each listed from there. -/
theorem regions_ordered (m : BorderMask) :
    (∀ r ∈ m.regions, ∃ first, m.ListedFrom first r.cells) ∧
      m.regions.Pairwise fun r r' => ∀ c ∈ r.cells.head?, ∀ d ∈ r'.cells.head?, c.Before d := by
  have h := (Survey.Ordered.start m).foldl_visit (Survey.Sound.start m) (List.nil_append _).symm
  refine ⟨fun r hr => ?_, h.inOrder⟩
  obtain ⟨first, -, hlisted⟩ := h.listed r hr
  exact ⟨first, hlisted⟩

/-- The enclosed cells are listed region by region. The regions come in row order of their
first cells, and the cells of a region by their distance from its first cell in row order. -/
theorem enclosedCells_regions (m : BorderMask) :
    ∃ regions : List (List Cell),
      m.enclosedCells = regions.flatten ∧
        (∀ cells ∈ regions, m.IsRegion ⟨cells, false⟩ ∧ ∃ first, m.ListedFrom first cells) ∧
        (∀ c, m.Enclosed c → ∃ cells ∈ regions, c ∈ cells) ∧
        regions.Pairwise fun cells cells' => ∀ c ∈ cells.head?, ∀ d ∈ cells'.head?, c.Before d := by
  obtain ⟨hregion, -, -⟩ := regions_spec m
  obtain ⟨hlisted, hinOrder⟩ := regions_ordered m
  have heq : m.enclosedCells = ((m.regions.filter (!·.touchesEdge)).map (·.cells)).flatten := List.flatMap_def
  refine ⟨_, heq, fun cells hcells => ?_, fun c hc => ?_, ?_⟩
  · obtain ⟨r, hr, rfl⟩ := List.mem_map.mp hcells
    obtain ⟨hr, hedge⟩ := List.mem_filter.mp hr
    have hr' := hregion r hr
    rw [Bool.not_eq_true'] at hedge
    exact ⟨hedge ▸ hr', hlisted r hr⟩
  · rw [← mem_enclosedCells, enclosedCells, List.mem_flatMap] at hc
    obtain ⟨r, hr, hc⟩ := hc
    exact ⟨r.cells, List.mem_map_of_mem hr, hc⟩
  · rw [List.pairwise_map]
    exact hinOrder.sublist List.filter_sublist

end BorderMask

end VectorRaster
