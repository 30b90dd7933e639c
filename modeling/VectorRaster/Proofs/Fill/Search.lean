/-
  VectorRaster.Proofs.Fill.Search — the search of one region finds all of it, and nothing else.

  A search starts at a cell that is open and has not been visited. It takes the cells it has
  found in turn and takes notice of their neighbours. `old` are the flags of the cells that
  were visited before it started; whole regions only (`Settled`).

  Two facts are kept. What has been found is open, new, joined to the start and flagged
  (`Sound`, kept by every neighbour that is met). What has been taken has all its neighbours
  flagged, and the search has met the edge if one of these cells is there (`Scanned`, kept by
  every cell that is taken). A search has enough steps to take every cell it finds, because
  it finds none twice (`size_cells_le`); so in the end all of them have been taken, and
  what has been found is one region (`isRegion_run`).
-/

import Mathlib.Data.List.Nodup
import Mathlib.Data.List.Perm.Subperm
import VectorRaster.Proofs.Fill.Regions

namespace VectorRaster

namespace BorderMask

/-- The flag of a cell is up. -/
def Raised (m : BorderMask) (flags : Array Bool) (c : Cell) : Prop := flags.getD (m.index c) false = true

instance (m : BorderMask) (flags : Array Bool) (c : Cell) : Decidable (m.Raised flags c) :=
  inferInstanceAs (Decidable (_ = _))

theorem raised_set {m : BorderMask} {flags : Array Bool} {c d : Cell} (hsize : flags.size = m.width * m.height)
    (hc : m.contains c = true) (hd : m.contains d = true) :
    m.Raised (flags.setIfInBounds (m.index c) true) d ↔ d = c ∨ m.Raised flags d := flag_set hsize hc hd

/-- Where one cell of a region has been visited, all of it has. -/
def Settled (m : BorderMask) (flags : Array Bool) : Prop :=
  ∀ c d, m.Step c d → m.Raised flags c → m.Raised flags d

end BorderMask

namespace RegionSearch

open BorderMask

variable {m : BorderMask} {old : Array Bool} {seed c d : Cell} {s : RegionSearch}

/-! ## What has been found -/

structure Sound (m : BorderMask) (old : Array Bool) (seed : Cell) (s : RegionSearch) : Prop where
  size : s.visited.size = m.width * m.height
  raised_iff : ∀ c, m.contains c = true → (m.Raised s.visited c ↔ c ∈ s.cells ∨ m.Raised old c)
  nodup : s.cells.toList.Nodup
  new : ∀ c ∈ s.cells, ¬m.Raised old c
  isOpen : ∀ c ∈ s.cells, m.IsOpen c
  joined : ∀ c ∈ s.cells, m.Joined seed c

theorem Sound.start (hsize : old.size = m.width * m.height) (ho : m.IsOpen seed) (hn : ¬m.Raised old seed) :
    Sound m old seed (start m old seed) where
  size := by simpa [RegionSearch.start] using hsize
  raised_iff c hc := by simpa [RegionSearch.start] using raised_set hsize ho.1 hc
  nodup := by simp [RegionSearch.start]
  new c hc := by
    simp only [RegionSearch.start, List.mem_toArray, List.mem_singleton] at hc
    exact hc ▸ hn
  isOpen c hc := by
    simp only [RegionSearch.start, List.mem_toArray, List.mem_singleton] at hc
    exact hc ▸ ho
  joined c hc := by
    simp only [RegionSearch.start, List.mem_toArray, List.mem_singleton] at hc
    exact hc ▸ .refl

/-- A cell is added when it is open and not yet visited. -/
theorem meet_some (hd : m.contains d = true) :
    s.meet m (some d) =
      if m.Raised s.visited d ∨ ¬m.IsOpen d then s
      else { s with visited := s.visited.setIfInBounds (m.index d) true, cells := s.cells.push d } := by
  have : (s.visited.getD (m.index d) false || m.isBorder d) = true ↔ m.Raised s.visited d ∨ ¬m.IsOpen d := by
    simp [Raised, BorderMask.IsOpen, hd]
  simp only [meet, this]

theorem Sound.meet (h : Sound m old seed s) (hc : c ∈ s.cells) {o : Option Cell} (ho : o ∈ m.neighbours c) :
    Sound m old seed (s.meet m o) := by
  cases o with
  | none => exact ⟨h.size, h.raised_iff, h.nodup, h.new, h.isOpen, h.joined⟩
  | some d =>
    obtain ⟨hnext, hd⟩ := (mem_neighbours (h.isOpen c hc).1).mp ho
    rw [meet_some hd]
    split
    · exact h
    · rename_i hcond
      obtain ⟨hr, hopen⟩ : ¬m.Raised s.visited d ∧ m.IsOpen d := by simpa using hcond
      have hnew : d ∉ s.cells ∧ ¬m.Raised old d := not_or.mp fun hh => hr ((h.raised_iff d hd).mpr hh)
      refine ⟨by simpa using h.size, fun e he => ?_, ?_, fun e he => ?_, fun e he => ?_, fun e he => ?_⟩
      · have := h.raised_iff e he
        rw [raised_set h.size hd he, Array.mem_push]
        tauto
      · rw [Array.toList_push, List.nodup_append]
        exact ⟨h.nodup, by simp, fun a ha b hb e => hnew.1 (by simp_all)⟩
      · rcases Array.mem_push.mp he with he | rfl
        · exact h.new e he
        · exact hnew.2
      · rcases Array.mem_push.mp he with he | rfl
        · exact h.isOpen e he
        · exact hopen
      · rcases Array.mem_push.mp he with he | rfl
        · exact h.joined e he
        · exact (h.joined c hc).tail ⟨hnext, h.isOpen c hc, hopen⟩

theorem prefix_meet (s : RegionSearch) (o : Option Cell) : s.cells.toList <+: (s.meet m o).cells.toList := by
  cases o with
  | none => exact List.prefix_rfl
  | some d =>
    simp only [RegionSearch.meet]
    split
    · exact List.prefix_rfl
    · simp

theorem touchesEdge_meet (s : RegionSearch) (o : Option Cell) :
    (s.meet m o).touchesEdge = true ↔ s.touchesEdge = true ∨ o = none := by
  cases o with
  | none => simp [RegionSearch.meet]
  | some d =>
    simp only [RegionSearch.meet]
    split <;> simp

/-! ## Taking one cell -/

/-- Takes notice of the neighbours of a cell. -/
def take (m : BorderMask) (s : RegionSearch) (c : Cell) : RegionSearch := (m.neighbours c).foldl (meet m) s

theorem prefix_foldl_meet (os : List (Option Cell)) (s : RegionSearch) :
    s.cells.toList <+: (os.foldl (meet m) s).cells.toList := by
  induction os generalizing s with
  | nil => exact List.prefix_rfl
  | cons o os ih => exact (prefix_meet s o).trans (ih _)

theorem touchesEdge_foldl_meet (os : List (Option Cell)) (s : RegionSearch) :
    (os.foldl (meet m) s).touchesEdge = true ↔ s.touchesEdge = true ∨ none ∈ os := by
  induction os generalizing s with
  | nil => simp
  | cons o os ih =>
    rw [List.foldl_cons, ih, touchesEdge_meet, List.mem_cons, eq_comm (a := none)]
    tauto

/-- Meeting some neighbours of a cell that has been found keeps what is known, and flags them. -/
theorem Sound.foldl_meet (h : Sound m old seed s) (hc : c ∈ s.cells) {os : List (Option Cell)}
    (hos : os ⊆ m.neighbours c) :
    Sound m old seed (os.foldl (RegionSearch.meet m) s) ∧
      ∀ d, m.contains d = true → (m.Raised s.visited d ∨ (m.IsOpen d ∧ some d ∈ os)) →
        m.Raised (os.foldl (RegionSearch.meet m) s).visited d := by
  induction os generalizing s with
  | nil => exact ⟨h, fun d _ hd => by simpa using hd⟩
  | cons o os ih =>
    have h' := h.meet hc (hos List.mem_cons_self)
    have hsub : s.cells.toList ⊆ (s.meet m o).cells.toList := (prefix_meet s o).subset
    have hc' : c ∈ (s.meet m o).cells := by simpa using hsub (by simpa using hc)
    obtain ⟨hs, hr⟩ := ih h' hc' fun _ ho => hos (List.mem_cons_of_mem _ ho)
    refine ⟨hs, fun d hd hor => hr d hd ?_⟩
    rcases hor with hor | ⟨hopen, hmem⟩
    · left
      rw [h'.raised_iff d hd]
      rcases (h.raised_iff d hd).mp hor with hm | hm
      · exact .inl (by simpa using hsub (by simpa using hm))
      · exact .inr hm
    · rcases List.mem_cons.mp hmem with rfl | hmem
      · left
        rw [meet_some hd]
        split
        · tauto
        · exact (raised_set h.size hd hd).mpr (.inl rfl)
      · exact .inr ⟨hopen, hmem⟩

/-! ## What has been taken -/

/-- What is known of the first `next` cells, which have been taken. -/
structure Scanned (m : BorderMask) (next : Nat) (s : RegionSearch) : Prop where
  closed : ∀ c ∈ s.cells.toList.take next, ∀ d, m.Step c d → m.Raised s.visited d
  touchesEdge_iff : s.touchesEdge = true ↔ ∃ c ∈ s.cells.toList.take next, m.OnEdge c

theorem Scanned.start (m : BorderMask) (old : Array Bool) (seed : Cell) : Scanned m 0 (start m old seed) :=
  ⟨by simp, by simp [RegionSearch.start]⟩

theorem Scanned.take {next : Nat} (h : Scanned m next s) (hs : Sound m old seed s) (hc : s.cells[next]? = some c) :
    Scanned m (next + 1) (s.take m c) := by
  have hmem : c ∈ s.cells := Array.mem_of_getElem? hc
  have hcont := (hs.isOpen c hmem).1
  obtain ⟨-, hr⟩ := hs.foldl_meet hmem (List.Subset.refl _)
  have htake : (s.take m c).cells.toList.take (next + 1) = s.cells.toList.take next ++ [c] := by
    obtain ⟨hlt, rfl⟩ := Array.getElem?_eq_some_iff.mp hc
    obtain ⟨more, hmore⟩ := prefix_foldl_meet (m.neighbours s.cells[next]) s
    rw [RegionSearch.take, ← hmore, List.take_append_of_le_length (by simpa using Nat.succ_le_of_lt hlt)]
    exact (List.take_append_getElem (by simpa using hlt)).symm
  constructor
  · intro e he d hd
    have hdc := hd.2.2.1
    rw [htake, List.mem_append, List.mem_singleton] at he
    rcases he with he | rfl
    · exact hr d hdc (.inl (h.closed e he d hd))
    · exact hr d hdc (.inr ⟨hd.2.2, (mem_neighbours hcont).mpr ⟨hd.1, hdc⟩⟩)
  · rw [RegionSearch.take, touchesEdge_foldl_meet, h.touchesEdge_iff, none_mem_neighbours hcont]
    rw [← RegionSearch.take, htake]
    simp only [List.mem_append, List.mem_singleton]
    constructor
    · rintro (⟨e, he, hedge⟩ | hedge)
      · exact ⟨e, .inl he, hedge⟩
      · exact ⟨c, .inr rfl, hedge⟩
    · rintro ⟨e, he | rfl, hedge⟩
      · exact .inl ⟨e, he, hedge⟩
      · exact .inr hedge

/-! ## A whole search -/

/-- No cell is found twice, so there are no more than the surface has. -/
theorem Sound.size_cells_le (h : Sound m old seed s) : s.cells.size ≤ m.width * m.height := by
  have hnd : (s.cells.toList.map m.index).Nodup := by
    refine List.Nodup.map_on (fun a ha b hb he => ?_) h.nodup
    exact index_inj (h.isOpen a (by simpa using ha)).1 (h.isOpen b (by simpa using hb)).1 he
  have hsub : s.cells.toList.map m.index ⊆ List.range (m.width * m.height) := by
    intro i hi
    obtain ⟨c, hc, rfl⟩ := List.mem_map.mp hi
    exact List.mem_range.mpr (index_lt (h.isOpen c (by simpa using hc)).1)
  simpa using (hnd.subperm hsub).length_le

/-- Past the last cell, all of them have been taken. -/
theorem Scanned.all {next : Nat} (h : Scanned m next s) (hle : s.cells.size ≤ next) : Scanned m s.cells.size s := by
  have ht : s.cells.toList.take next = s.cells.toList.take s.cells.size := by
    rw [List.take_of_length_le (by simpa using hle), List.take_of_length_le (by simp)]
  exact ⟨ht ▸ h.closed, ht ▸ h.touchesEdge_iff⟩

/-- With a step left for every cell that may be found, a search takes all it finds. -/
theorem run_spec {steps next : Nat} (hs : Sound m old seed s) (hsc : Scanned m next s)
    (hsteps : m.width * m.height ≤ steps + next) :
    Sound m old seed (s.run m steps next) ∧ Scanned m (s.run m steps next).cells.size (s.run m steps next) ∧
      s.cells.toList <+: (s.run m steps next).cells.toList := by
  induction steps generalizing s next with
  | zero => exact ⟨hs, hsc.all (by have := hs.size_cells_le; omega), List.prefix_rfl⟩
  | succ steps ih =>
    cases hc : s.cells[next]? with
    | none =>
      simp only [run, hc]
      exact ⟨hs, hsc.all (by simpa using hc), List.prefix_rfl⟩
    | some c =>
      simp only [run, hc]
      have hs' : Sound m old seed (s.take m c) := (hs.foldl_meet (Array.mem_of_getElem? hc) (List.Subset.refl _)).1
      obtain ⟨h₁, h₂, h₃⟩ := ih hs' (hsc.take hs hc) (by omega)
      exact ⟨h₁, h₂, (prefix_foldl_meet _ s).trans h₃⟩

/-- The whole search of a region. -/
def whole (m : BorderMask) (old : Array Bool) (seed : Cell) : RegionSearch :=
  (start m old seed).run m (m.width * m.height) 0

theorem sound_whole (hsize : old.size = m.width * m.height) (ho : m.IsOpen seed) (hn : ¬m.Raised old seed) :
    Sound m old seed (whole m old seed) :=
  (run_spec (.start hsize ho hn) (.start m old seed) (Nat.le_refl (m.width * m.height + 0))).1

theorem seed_mem_whole (hsize : old.size = m.width * m.height) (ho : m.IsOpen seed) (hn : ¬m.Raised old seed) :
    seed ∈ (whole m old seed).cells := by
  have hsteps := Nat.le_refl (m.width * m.height + 0)
  have hseed : seed ∈ (start m old seed).cells.toList := by simp [start]
  simpa [whole] using (run_spec (.start hsize ho hn) (.start m old seed) hsteps).2.2.subset hseed

/-- A search finds exactly the region that it starts in. -/
theorem isRegion_whole (hsize : old.size = m.width * m.height) (hold : m.Settled old) (ho : m.IsOpen seed)
    (hn : ¬m.Raised old seed) :
    m.IsRegion ⟨(whole m old seed).cells.toList, (whole m old seed).touchesEdge⟩ := by
  obtain ⟨hs, hsc, -⟩ := run_spec (.start hsize ho hn) (.start m old seed) (Nat.le_refl (m.width * m.height + 0))
  rw [← whole] at hs hsc
  have htake : (whole m old seed).cells.toList.take (whole m old seed).cells.size = (whole m old seed).cells.toList :=
    List.take_of_length_le (by simp)
  have hstep : ∀ c ∈ (whole m old seed).cells, ∀ d, m.Step c d → d ∈ (whole m old seed).cells := by
    intro c hc d hd
    have hr := hsc.closed c (by rw [htake]; simpa using hc) d hd
    rcases (hs.raised_iff d hd.2.2.1).mp hr with hm | hm
    · exact hm
    · -- a step back would lead from a region that was visited before to a new cell
      exact absurd (hold d c hd.symm hm) (hs.new c hc)
  refine ⟨hs.nodup, fun c hc => hs.isOpen c (by simpa using hc), fun c hc d => ⟨fun hd => ?_, fun hj => ?_⟩, ?_⟩
  · exact (hs.joined c (by simpa using hc)).symm.trans (hs.joined d (by simpa using hd))
  · induction hj with
    | refl => exact hc
    | tail _ hd ih => simpa using hstep _ (by simpa using ih) _ hd
  · simpa [htake] using hsc.touchesEdge_iff

end RegionSearch

end VectorRaster
