/-
  VectorRaster.Proofs.Fill.Enclosed — a survey finds every region once, so a fill takes exactly
  the enclosed cells.

  Cells are visited row by row. A cell that is border or belongs to a region that has been
  found is passed over; any other starts a search, which adds its region. What is kept
  (`Survey.Sound`): the regions found are regions, apart from each other, and the flags that
  are up are those of their cells. Every open cell that has been visited is flagged
  (`raised_visit`), and flags stay up.

  Proved: `regions_spec`, that the regions of a mask are all there are, each once, and
  `nodup_and_mem_enclosedCells_iff`, that the enclosed cells are listed once each and nothing else is.
-/

import VectorRaster.Proofs.Fill.Search

namespace VectorRaster

open BorderMask

namespace Survey

variable {m : BorderMask} {s : Survey} {c d : Cell}

structure Sound (m : BorderMask) (s : Survey) : Prop where
  size : s.visited.size = m.width * m.height
  raised_iff : ∀ c, m.contains c = true → (m.Raised s.visited c ↔ ∃ r ∈ s.regions.toList, c ∈ r.cells)
  regions : ∀ r ∈ s.regions.toList, m.IsRegion r
  apart : s.regions.toList.Pairwise fun r r' => r.cells.Disjoint r'.cells

theorem Sound.start (m : BorderMask) : Sound m (start m) where
  size := by simp [Survey.start]
  raised_iff c hc := by simp [Survey.start, Raised, index_lt hc, Array.getD_eq_getD_getElem?]
  regions := by simp [Survey.start]
  apart := by simp [Survey.start]

/-- The flags that are up are those of whole regions. -/
theorem Sound.settled (h : Sound m s) : m.Settled s.visited := by
  intro c d hs hr
  obtain ⟨r, hmem, hc⟩ := (h.raised_iff c hs.2.1.1).mp hr
  exact (h.raised_iff d hs.2.2.1).mpr ⟨r, hmem, (h.regions r hmem).step hc hs⟩

/-- A cell starts a search when it is open and not yet visited. -/
theorem visit_eq (hc : m.contains c = true) :
    s.visit m c =
      if m.Raised s.visited c ∨ ¬m.IsOpen c then s
      else
        let search := RegionSearch.whole m s.visited c
        ⟨search.visited, s.regions.push ⟨search.cells.toList, search.touchesEdge⟩⟩ := by
  have : (s.visited.getD (m.index c) false || m.isBorder c) = true ↔ m.Raised s.visited c ∨ ¬m.IsOpen c := by
    simp [Raised, BorderMask.IsOpen, hc]
  simp only [visit, this]
  rfl

theorem Sound.visit (h : Sound m s) (hc : m.contains c = true) : Sound m (s.visit m c) := by
  rw [visit_eq hc]
  split
  · exact h
  · rename_i hcond
    obtain ⟨hn, ho⟩ : ¬m.Raised s.visited c ∧ m.IsOpen c := by simpa using hcond
    have hs := RegionSearch.sound_whole h.size ho hn
    have hr := RegionSearch.isRegion_whole h.size h.settled ho hn
    refine ⟨hs.size, fun d hd => ?_, fun r hmem => ?_, ?_⟩
    · rw [hs.raised_iff d hd, h.raised_iff d hd]
      simp only [Array.toList_push, List.mem_append, List.mem_singleton, or_and_right, exists_or, exists_eq_left,
        Array.mem_toList_iff]
      exact or_comm
    · rw [Array.toList_push, List.mem_append, List.mem_singleton] at hmem
      rcases hmem with hmem | rfl
      · exact h.regions r hmem
      · exact hr
    · rw [Array.toList_push, List.pairwise_append]
      refine ⟨h.apart, List.pairwise_singleton _ _, fun r hmem r' hmem' d hd hd' => ?_⟩
      obtain rfl := List.mem_singleton.mp hmem'
      -- what the search has found was not flagged before it
      have hd' : d ∈ (RegionSearch.whole m s.visited c).cells := by simpa using hd'
      exact hs.new d hd' ((h.raised_iff d (hs.isOpen d hd').1).mpr ⟨r, hmem, hd⟩)

theorem raised_visit_of_raised (h : Sound m s) (hc : m.contains c = true) (hd : m.contains d = true)
    (hr : m.Raised s.visited d) : m.Raised (s.visit m c).visited d := by
  rw [visit_eq hc]
  split
  · exact hr
  · rename_i hcond
    obtain ⟨hn, ho⟩ : ¬m.Raised s.visited c ∧ m.IsOpen c := by simpa using hcond
    exact ((RegionSearch.sound_whole h.size ho hn).raised_iff d hd).mpr (.inr hr)

theorem raised_visit (h : Sound m s) (ho : m.IsOpen c) : m.Raised (s.visit m c).visited c := by
  rw [visit_eq ho.1]
  split
  · tauto
  · rename_i hcond
    obtain ⟨hn, -⟩ : ¬m.Raised s.visited c ∧ m.IsOpen c := by simpa using hcond
    have hmem := RegionSearch.seed_mem_whole h.size ho hn
    exact ((RegionSearch.sound_whole h.size ho hn).raised_iff c ho.1).mpr (.inl hmem)

/-- A run of visits keeps what is known, and flags every open cell that it visits. -/
theorem Sound.foldl_visit (h : Sound m s) (cs : List Cell) (hcs : ∀ c ∈ cs, m.contains c = true) :
    Sound m (cs.foldl (Survey.visit m) s) ∧
      ∀ c, m.contains c = true → m.Raised s.visited c ∨ (m.IsOpen c ∧ c ∈ cs) →
        m.Raised (cs.foldl (Survey.visit m) s).visited c := by
  induction cs generalizing s with
  | nil => exact ⟨h, fun c _ hc => by simpa using hc⟩
  | cons a cs ih =>
    have ha := hcs a List.mem_cons_self
    obtain ⟨hs, hr⟩ := ih (h.visit ha) fun c hc => hcs c (List.mem_cons_of_mem _ hc)
    refine ⟨hs, fun c hc hor => hr c hc ?_⟩
    rcases hor with hor | ⟨ho, hmem⟩
    · exact .inl (raised_visit_of_raised h ha hc hor)
    · rcases List.mem_cons.mp hmem with rfl | hmem
      · exact .inl (raised_visit h ho)
      · exact .inr ⟨ho, hmem⟩

end Survey

namespace BorderMask

variable {m : BorderMask} {c : Cell}

/-- The regions of a mask: each is one, no two share a cell, and every open cell is in one. -/
theorem regions_spec (m : BorderMask) :
    (∀ r ∈ m.regions, m.IsRegion r) ∧ (m.regions.Pairwise fun r r' => r.cells.Disjoint r'.cells) ∧
      ∀ c, m.IsOpen c → ∃ r ∈ m.regions, c ∈ r.cells := by
  obtain ⟨h, hr⟩ := (Survey.Sound.start m).foldl_visit (Cell.all m.width m.height) fun c hc =>
    contains_iff.mpr (mem_all.mp hc)
  refine ⟨h.regions, h.apart, fun c ho => ?_⟩
  exact (h.raised_iff c ho.1).mp (hr c ho.1 (.inr ⟨ho, mem_all.mpr (contains_iff.mp ho.1)⟩))

theorem mem_enclosedCells : c ∈ m.enclosedCells ↔ m.Enclosed c := by
  obtain ⟨hregion, -, hcover⟩ := regions_spec m
  simp only [enclosedCells, List.mem_flatMap, List.mem_filter, Bool.not_eq_true']
  constructor
  · rintro ⟨r, ⟨hr, hedge⟩, hc⟩
    exact ((hregion r hr).enclosed_iff hc).mpr hedge
  · intro he
    obtain ⟨r, hr, hc⟩ := hcover c he.1
    exact ⟨r, ⟨hr, ((hregion r hr).enclosed_iff hc).mp he⟩, hc⟩

theorem nodup_enclosedCells (m : BorderMask) : m.enclosedCells.Nodup := by
  obtain ⟨hregion, hapart, -⟩ := regions_spec m
  refine List.nodup_flatMap.mpr ⟨fun r hr => (hregion r (List.mem_filter.mp hr).1).nodup, ?_⟩
  exact hapart.sublist List.filter_sublist

/-- A fill takes every cell from which no path leads to the edge of the surface, once, and no
other: no border cell, and no part of a region that has a cell at the edge. -/
theorem nodup_and_mem_enclosedCells_iff (m : BorderMask) :
    m.enclosedCells.Nodup ∧
      ∀ c, c ∈ m.enclosedCells ↔
        (m.contains c = true ∧ m.isBorder c = false) ∧ ¬∃ d, m.Joined c d ∧ m.OnEdge d := by
  refine ⟨nodup_enclosedCells m, fun c => ?_⟩
  rw [mem_enclosedCells, Enclosed, IsOpen]
  simp only [not_exists, not_and]

/-- A diamond that touches at its corners only encloses its middle. -/
example : (⟨3, 3, #[false, true, false, true, false, true, false, true, false]⟩ : BorderMask).enclosedCells = [⟨1, 1⟩] := by
  decide +kernel

end BorderMask

end VectorRaster
