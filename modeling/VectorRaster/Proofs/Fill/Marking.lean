/-
  VectorRaster.Proofs.Fill.Marking — what is marked after a run of calls, and how the marks are listed.

  A call marks a point, if it is on the mask, or the cell nearest to it. What a run leaves marked is
  what one of its calls marks (`isBorder_run`), so neither order nor repetition counts.

  A mask keeps its flags row by row, and lists its marks by going through them (`borderCells_eq`).
  From the list the mask can be made again, since masks of one size with the same marks are the same
  (`Sized.ext`).

  Points are in words with a sign, sizes and indices in words without one. The calls are also
  calculated in words (`markWord?`, `markClampedWord?`), with a look at each flag checked to be one
  that is there. The greatest column is cast to a word with a sign; it is the right one in every mask
  that can be kept, whose flags are at most as many as there are positive words with a sign.

  Main statement: `run_marks`.
-/

import VectorRaster.Proofs.Fill.Closure
import VectorRaster.Proofs.Fill.Order
import VectorRaster.Proofs.Raster.Overflow
import VectorRaster.Proofs.Raster.Rows

namespace VectorRaster

open Numeric

/-- `i` is the nearest to `x` of the numbers below `extent`. -/
def IsNearest (extent : Nat) (x : Int) (i : Nat) : Prop :=
  i < extent ∧ ∀ j < extent, (x - i).natAbs ≤ (x - j).natAbs

instance (extent : Nat) (x : Int) (i : Nat) : Decidable (IsNearest extent x i) := inferInstanceAs (Decidable (_ ∧ _))

theorem isNearest_iff {extent i : Nat} {x : Int} : IsNearest extent x i ↔ 0 < extent ∧ i = min x.toNat (extent - 1) := by
  constructor
  · intro h
    obtain ⟨hi, hnearest⟩ := h
    have hclamped := hnearest (min x.toNat (extent - 1)) (by omega)
    omega
  · intro h
    obtain ⟨hpos, rfl⟩ := h
    refine ⟨by omega, fun j hj => ?_⟩
    omega

/-- A call that marks a point of a mask. -/
inductive MarkCall where
  | mark (p : GridPoint)
  | markClamped (p : GridPoint)
  deriving DecidableEq, Repr

/-- A call is to mark the cell: it is the point, or the nearest to it by column and by row. -/
def MarkCall.Marks (width height : Nat) : MarkCall → Cell → Prop
  | mark p, c => p.x.toInt = c.x ∧ p.y.toInt = c.y
  | markClamped p, c => IsNearest width p.x.toInt c.x ∧ IsNearest height p.y.toInt c.y

instance (width height : Nat) (call : MarkCall) (c : Cell) : Decidable (call.Marks width height c) :=
  match call with
  | .mark _ => inferInstanceAs (Decidable (_ ∧ _))
  | .markClamped _ => inferInstanceAs (Decidable (_ ∧ _))

namespace BorderMask

variable {m m' : BorderMask} {width height : Nat} {c : Cell}

def serve (m : BorderMask) : MarkCall → BorderMask
  | .mark p => m.mark p.x.toInt p.y.toInt
  | .markClamped p => m.markClamped p.x.toInt p.y.toInt

def run (m : BorderMask) (calls : List MarkCall) : BorderMask := calls.foldl serve m

/-! ## Masks of one size -/

theorem Sized.blank (width height : Nat) : (BorderMask.blank width height).Sized width height :=
  ⟨by simp [BorderMask.blank], rfl, rfl⟩

theorem Sized.markCell (h : m.Sized width height) (c : Cell) : (m.markCell c).Sized width height :=
  ⟨by rw [size_markCell, h.cells], by rw [width_markCell, h.width], by rw [height_markCell, h.height]⟩

theorem Sized.mark (h : m.Sized width height) (x y : Int) : (m.mark x y).Sized width height := by
  unfold BorderMask.mark
  split
  · exact h.markCell _
  · exact h

theorem Sized.serve (h : m.Sized width height) (call : MarkCall) : (m.serve call).Sized width height := by
  cases call with
  | mark p => exact h.mark _ _
  | markClamped p =>
    show (m.markClamped p.x.toInt p.y.toInt).Sized width height
    unfold markClamped
    split
    · exact h
    · exact h.markCell _

theorem Sized.run (h : m.Sized width height) (calls : List MarkCall) : (m.run calls).Sized width height := by
  induction calls generalizing m with
  | nil => exact h
  | cons call calls ih => exact ih (h.serve call)

/-- A flag is kept at the index of its cell. -/
theorem Sized.getElem?_index (h : m.Sized width height) (hx : c.x < width) (hy : c.y < height) :
    m.cells[c.y * width + c.x]? = some (m.isBorder c) := by
  have hc : m.contains c = true := h.contains_iff.mpr ⟨hx, hy⟩
  have hlt : m.index c < m.cells.size := by
    rw [h.size_eq]
    exact index_lt hc
  have hindex : c.y * width + c.x = m.index c := by rw [index, h.width]
  rw [isBorder, hc, Bool.true_and, Array.getD_eq_getD_getElem?, hindex, Array.getElem?_eq_getElem hlt, Option.getD_some]

theorem Sized.toList_cells (h : m.Sized width height) : m.cells.toList = (Cell.all width height).map m.isBorder :=
  toList_eq_map_all h.cells _ fun _ hx hy => h.getElem?_index hx hy

theorem Sized.ext (h : m.Sized width height) (h' : m'.Sized width height)
    (hmarks : ∀ c, m.isBorder c = true ↔ m'.isBorder c = true) : m = m' := by
  have hcells : m.cells = m'.cells := by
    apply Array.toList_inj.mp
    rw [h.toList_cells, h'.toList_cells]
    exact List.map_congr_left fun c _ => Bool.eq_iff_iff.mpr (hmarks c)
  obtain ⟨w, k, cells⟩ := m
  obtain ⟨w', k', cells'⟩ := m'
  cases h.width.trans h'.width.symm
  cases h.height.trans h'.height.symm
  cases hcells
  rfl

/-! ## What a run marks -/

/-- A point is marked if it is a cell of the mask. -/
theorem mark_eq_cell? (m : BorderMask) (p : GridPoint) :
    m.mark p.x.toInt p.y.toInt = (p.cell? m.width m.height).elim m m.markCell := by
  cases hp : p.cell? m.width m.height with
  | some c =>
    obtain ⟨hx, hy, -⟩ := GridPoint.cell?_eq_some_iff.mp hp
    rw [hx, hy, mark_cell, Option.elim_some]
  | none =>
    -- were its coordinates on the mask, they would be a cell of the point
    have hoff : p.cell? m.width m.height ≠ some ⟨p.x.toInt.toNat, p.y.toInt.toNat⟩ := by simp [hp]
    rw [Ne, GridPoint.cell?_eq_some_iff] at hoff
    unfold mark
    split
    · rename_i hpos
      rw [Bool.and_eq_true, decide_eq_true_iff, decide_eq_true_iff] at hpos
      rw [markCell, if_neg, Option.elim_none]
      rw [contains_iff]
      dsimp only at hoff ⊢
      omega
    · rfl

theorem isBorder_mark (hsize : m.cells.size = m.width * m.height) (p : GridPoint) :
    (m.mark p.x.toInt p.y.toInt).isBorder c = true ↔ p.cell? m.width m.height = some c ∨ m.isBorder c = true := by
  rw [mark_eq_cell?]
  cases hp : p.cell? m.width m.height with
  | some d =>
    have hd : m.contains d = true := contains_iff.mpr (GridPoint.cell?_eq_some_iff.mp hp).2.2
    have hin : m.contains c = true ∧ c = d ↔ c = d := and_iff_right_of_imp fun heq => heq ▸ hd
    have hmarked := @isBorder_foldl_markCell m c hsize [d]
    rw [List.mem_singleton, hin] at hmarked
    rw [Option.some.injEq, @eq_comm _ d]
    exact hmarked
  | none => simp

theorem isBorder_serve (h : m.Sized width height) (call : MarkCall) :
    (m.serve call).isBorder c = true ↔
      (c.x < width ∧ c.y < height) ∧ call.Marks width height c ∨ m.isBorder c = true := by
  cases call with
  | mark p =>
    show (m.mark p.x.toInt p.y.toInt).isBorder c = true ↔
      (c.x < width ∧ c.y < height) ∧ (p.x.toInt = c.x ∧ p.y.toInt = c.y) ∨ m.isBorder c = true
    rw [isBorder_mark h.size_eq, GridPoint.cell?_eq_some_iff, h.width, h.height, ← and_assoc, and_comm]
  | markClamped p =>
    show (m.markClamped p.x.toInt p.y.toInt).isBorder c = true ↔
      (c.x < width ∧ c.y < height) ∧ (IsNearest width p.x.toInt c.x ∧ IsNearest height p.y.toInt c.y) ∨
        m.isBorder c = true
    have hcell : c.x < width ∧ c.y < height →
        (c = m.nearest p.x.toInt p.y.toInt ↔ IsNearest width p.x.toInt c.x ∧ IsNearest height p.y.toInt c.y) := by
      intro hin
      obtain ⟨x, y⟩ := c
      rw [isNearest_iff, isNearest_iff, nearest, h.width, h.height, Cell.mk.injEq]
      dsimp only at hin ⊢
      omega
    rw [isBorder_markClamped h.size_eq, h.contains_iff, and_congr_right hcell]

theorem isBorder_run (h : m.Sized width height) (calls : List MarkCall) :
    (m.run calls).isBorder c = true ↔
      (c.x < width ∧ c.y < height) ∧ (∃ call ∈ calls, call.Marks width height c) ∨ m.isBorder c = true := by
  induction calls generalizing m with
  | nil => simp [run]
  | cons call calls ih =>
    have hrest := ih (h.serve call)
    rw [isBorder_serve h call] at hrest
    rw [show m.run (call :: calls) = (m.serve call).run calls from rfl, hrest, List.exists_mem_cons_iff, and_or_left,
      or_assoc, or_left_comm]

/-- On a mask with nothing marked, a run marks what its calls mark. -/
theorem isBorder_run_blank (calls : List MarkCall) :
    ((blank width height).run calls).isBorder c = true ↔
      c.x < width ∧ c.y < height ∧ ∃ call ∈ calls, call.Marks width height c := by
  simp [isBorder_run (Sized.blank width height) calls, isBorder_blank, and_assoc]

/-! ## The list of marks -/

theorem Sized.borderCells_eq (h : m.Sized width height) :
    m.borderCells = (Cell.all width height).filter m.isBorder := by
  have hflags : m.cells.toList = (List.range (width * height)).map (m.isBorder ∘ Cell.ofIndex width) := by
    rw [h.toList_cells, Cell.all_eq_map_range, List.map_map]
  rw [borderCells, hflags, zipIdx_map_range, List.filter_map, List.map_map, Cell.all_eq_map_range, List.filter_map, h.width]
  rfl

theorem Sized.mem_borderCells (h : m.Sized width height) : c ∈ m.borderCells ↔ m.isBorder c = true := by
  rw [h.borderCells_eq, List.mem_filter, mem_all]
  refine and_iff_right_of_imp fun hb => ?_
  exact h.contains_iff.mp (isBorder_iff.mp hb).1

/-- The marks are listed row by row, and from left to right in a row. -/
theorem Sized.pairwise_borderCells (h : m.Sized width height) : m.borderCells.Pairwise Cell.Before := by
  rw [h.borderCells_eq]
  exact (pairwise_all width height).filter _

theorem nodup_of_pairwise_before {cells : List Cell} (h : cells.Pairwise Cell.Before) : cells.Nodup := by
  refine h.imp fun {c d} hbefore heq => ?_
  subst heq
  rcases hbefore with hlt | ⟨-, hlt⟩
  · exact Nat.lt_irrefl _ hlt
  · exact Nat.lt_irrefl _ hlt

theorem Sized.length_borderCells (h : m.Sized width height) : m.borderCells.length = m.count := by
  rw [h.borderCells_eq, count, ← Array.countP_toList, h.toList_cells, List.countP_map, List.countP_eq_length_filter]
  rfl

/-- The mask is made again by marking the cells that it lists. -/
theorem Sized.foldl_mark_borderCells (h : m.Sized width height) :
    m.borderCells.foldl (fun m c => m.mark c.x c.y) (BorderMask.blank width height) = m := by
  simp only [mark_cell]
  have hblank := Sized.blank width height
  have hsized : (m.borderCells.foldl BorderMask.markCell (BorderMask.blank width height)).Sized width height :=
    ⟨by rw [size_foldl_markCell, hblank.cells], by rw [width_foldl_markCell, hblank.width],
      by rw [height_foldl_markCell, hblank.height]⟩
  refine hsized.ext h fun c => ?_
  rw [isBorder_foldl_markCell hblank.size_eq, hblank.contains_iff, h.mem_borderCells, isBorder_blank]
  simp only [Bool.false_eq_true, or_false]
  refine and_iff_right_of_imp fun hb => ?_
  exact h.contains_iff.mp (isBorder_iff.mp hb).1

/-- The list of marks, or none if an index would be divided by zero. -/
def borderCells? (m : BorderMask) : Option (List Cell) :=
  (m.cells.toList.zipIdx.filter (·.1)).mapM fun (_, i) =>
    if m.width = 0 then none else some ⟨i % m.width, i / m.width⟩

theorem Sized.borderCells?_eq (h : m.Sized width height) : m.borderCells? = some m.borderCells := by
  by_cases hw : m.width = 0
  · have hnone : m.cells.toList = [] := by
      rw [Array.toList_eq_nil_iff, ← Array.size_eq_zero_iff, h.size_eq, hw, Nat.zero_mul]
    simp [borderCells?, borderCells, hnone]
  · simp only [borderCells?, if_neg hw]
    exact List.mapM_pure

/-! ## Calls in words -/

/-- The index of a cell's flag; none, if it leaves its word or there is no such flag. -/
def flagAt? (m : BorderMask) (c : Cell) : Option Nat :=
  if m.index c < Word.size ∧ m.index c < m.cells.size then some (m.index c) else none

def isBorder? (m : BorderMask) (c : Cell) : Option Bool :=
  if m.contains c then (m.flagAt? c).map fun i => m.cells.getD i false else some false

def markWord? (m : BorderMask) (p : GridPoint) : Option BorderMask :=
  match p.cell? m.width m.height with
  | some c => (m.flagAt? c).map fun i => { m with cells := m.cells.setIfInBounds i true }
  | none => some m

/-- A coordinate moved to the nearest one below `extent`. -/
def moveWord (x : Int64) (extent : Nat) : Int64 := min (max x 0) (Int64.ofNat extent - 1)

def markClampedWord? (m : BorderMask) (p : GridPoint) : Option BorderMask :=
  if m.width = 0 ∨ m.height = 0 then some m else m.markWord? ⟨moveWord p.x m.width, moveWord p.y m.height⟩

def serve? (m : BorderMask) : MarkCall → Option BorderMask
  | .mark p => m.markWord? p
  | .markClamped p => m.markClampedWord? p

def run? (m : BorderMask) (calls : List MarkCall) : Option BorderMask := calls.foldlM serve? m

theorem Sized.flagAt?_eq (h : m.Sized width height) (hsize : width * height < Word.size) (hc : m.contains c = true) :
    m.flagAt? c = some (m.index c) := by
  have hlt : m.index c < width * height := by
    rw [← h.width, ← h.height]
    exact index_lt hc
  rw [flagAt?, if_pos ⟨by omega, by rwa [h.cells]⟩]

theorem Sized.isBorder?_eq (h : m.Sized width height) (hsize : width * height < Word.size) (c : Cell) :
    m.isBorder? c = some (m.isBorder c) := by
  by_cases hc : m.contains c = true
  · rw [isBorder?, if_pos hc, h.flagAt?_eq hsize hc, Option.map_some, isBorder, hc, Bool.true_and]
  · rw [isBorder?, if_neg hc, isBorder, eq_false_of_ne_true hc, Bool.false_and]

theorem Sized.markWord?_eq (h : m.Sized width height) (hsize : width * height < Word.size) (p : GridPoint) :
    m.markWord? p = some (m.mark p.x.toInt p.y.toInt) := by
  rw [markWord?, mark_eq_cell?]
  cases hp : p.cell? m.width m.height with
  | some c =>
    have hc : m.contains c = true := BorderMask.contains_iff.mpr (GridPoint.cell?_eq_some_iff.mp hp).2.2
    simp only [h.flagAt?_eq hsize hc, Option.map_some, Option.elim_some, BorderMask.markCell, if_pos hc]
  | none => rfl

theorem toInt_max (x y : Int64) : (max x y).toInt = max x.toInt y.toInt := by
  show (if x ≤ y then y else x).toInt = max x.toInt y.toInt
  by_cases h : x.toInt ≤ y.toInt
  · rw [if_pos (Int64.le_iff_toInt_le.mpr h), Int.max_eq_right h]
  · rw [if_neg (mt Int64.le_iff_toInt_le.mp h), Int.max_eq_left (by omega)]

theorem toInt_min (x y : Int64) : (min x y).toInt = min x.toInt y.toInt := by
  show (if x ≤ y then x else y).toInt = min x.toInt y.toInt
  by_cases h : x.toInt ≤ y.toInt
  · rw [if_pos (Int64.le_iff_toInt_le.mpr h), Int.min_eq_left h]
  · rw [if_neg (mt Int64.le_iff_toInt_le.mp h), Int.min_eq_right (by omega)]

/-- The cast of an extent is right up to the last word with a sign. -/
theorem toInt_moveWord (x : Int64) {extent : Nat} (hpos : 0 < extent) (hlast : extent ≤ Word.lastSigned) :
    (moveWord x extent).toInt = (min x.toInt.toNat (extent - 1) : Nat) := by
  have hword : Int64.ofNat extent - 1 = .ofInt (extent - 1) := by
    rw [Int64.ofInt_sub, Int64.ofInt_eq_ofNat]
    rfl
  have hbound : (extent : Int) < 2 ^ 63 := by
    have hlt : extent < 2 ^ 63 := Nat.lt_of_le_of_lt hlast (by decide)
    omega
  rw [moveWord, toInt_min, toInt_max, hword, Int64.toInt_ofInt_of_le (by omega) (by omega), Int64.toInt_zero]
  omega

theorem Sized.markClampedWord?_eq (h : m.Sized width height) (hlast : width * height ≤ Word.lastSigned) (p : GridPoint) :
    m.markClampedWord? p = some (m.markClamped p.x.toInt p.y.toInt) := by
  by_cases hempty : m.width = 0 ∨ m.height = 0
  · rw [markClampedWord?, if_pos hempty, markClamped, if_pos (by simpa using hempty)]
  · have hsize : width * height < Word.size := Nat.lt_of_le_of_lt hlast (by decide)
    rw [not_or, h.width, h.height] at hempty
    have hwidth : width ≤ Word.lastSigned := (Nat.le_mul_of_pos_right _ (Nat.pos_of_ne_zero hempty.2)).trans hlast
    have hheight : height ≤ Word.lastSigned := (Nat.le_mul_of_pos_left _ (Nat.pos_of_ne_zero hempty.1)).trans hlast
    have hne : ¬(m.width = 0 ∨ m.height = 0) := by rwa [not_or, h.width, h.height]
    rw [markClampedWord?, if_neg hne, h.markWord?_eq hsize, markClamped, if_neg (by simpa using hne), h.width, h.height]
    dsimp only
    rw [toInt_moveWord _ (Nat.pos_of_ne_zero hempty.1) hwidth, toInt_moveWord _ (Nat.pos_of_ne_zero hempty.2) hheight,
      ← h.width, ← h.height]
    exact congrArg some (m.mark_cell (m.nearest p.x.toInt p.y.toInt))

theorem Sized.serve?_eq (h : m.Sized width height) (hlast : width * height ≤ Word.lastSigned) (call : MarkCall) :
    m.serve? call = some (m.serve call) := by
  cases call with
  | mark p => exact h.markWord?_eq (Nat.lt_of_le_of_lt hlast (by decide)) p
  | markClamped p => exact h.markClampedWord?_eq hlast p

/-- In words, a run is what it is in integers. -/
theorem Sized.run?_eq (h : m.Sized width height) (hlast : width * height ≤ Word.lastSigned) (calls : List MarkCall) :
    m.run? calls = some (m.run calls) := by
  induction calls generalizing m with
  | nil => rfl
  | cons call calls ih =>
    rw [run?, List.foldlM_cons, h.serve?_eq hlast call]
    exact ih (h.serve call)

theorem Sized.exists_serve? (h : m.Sized width height) (hsize : width * height < Word.size) (call : MarkCall) :
    ∃ m', m.serve? call = some m' ∧ m'.Sized width height := by
  cases call with
  | mark p => exact ⟨_, h.markWord?_eq hsize p, h.mark _ _⟩
  | markClamped p =>
    show ∃ m', m.markClampedWord? p = some m' ∧ m'.Sized width height
    unfold markClampedWord?
    split
    · exact ⟨m, rfl, h⟩
    · exact ⟨_, h.markWord?_eq hsize _, h.mark _ _⟩

/-- Whatever the words come to, no run looks for a flag that is not there. -/
theorem Sized.exists_run? (h : m.Sized width height) (hsize : width * height < Word.size) (calls : List MarkCall) :
    ∃ m', m.run? calls = some m' := by
  induction calls generalizing m with
  | nil => exact ⟨m, rfl⟩
  | cons call calls ih =>
    obtain ⟨m', hserve, h'⟩ := h.exists_serve? hsize call
    rw [run?, List.foldlM_cons, hserve]
    exact ih h'

/-! ## Runs -/

/-- After any run of calls on a mask with nothing marked:
- no look at a flag was at an index that is not there, in any mask whose number of cells is a word, and
  where that number is a word with a sign the calls in words are those in integers;
- the cells of the mask that one of the calls is to mark are marked, and no others, so the order of the
  calls and their repetition do not count;
- the list of marks has each marked cell once, in row order, as many as are counted; no index is divided by
  zero for it, and marking its cells makes the mask again. -/
theorem run_marks (hsize : width * height < Word.size) (calls : List MarkCall) :
    ∃ m, m = (blank width height).run calls ∧ m.Sized width height ∧
      (∃ m', (blank width height).run? calls = some m' ∧ (width * height ≤ Word.lastSigned → m' = m)) ∧
      (∀ c, m.isBorder? c = some (m.isBorder c)) ∧
      (∀ c, m.isBorder c = true ↔ c.x < width ∧ c.y < height ∧ ∃ call ∈ calls, call.Marks width height c) ∧
      (∀ calls', (∀ call, call ∈ calls' ↔ call ∈ calls) → (blank width height).run calls' = m) ∧
      (∀ c, c ∈ m.borderCells ↔ m.isBorder c = true) ∧ m.borderCells.Nodup ∧ m.borderCells.Pairwise Cell.Before ∧
      m.borderCells.length = m.count ∧ m.borderCells? = some m.borderCells ∧
      m.borderCells.foldl (fun m c => m.mark c.x c.y) (blank width height) = m := by
  have hblank := Sized.blank width height
  have hm : ((blank width height).run calls).Sized width height := hblank.run calls
  refine ⟨_, rfl, hm, ?_, hm.isBorder?_eq hsize, fun c => isBorder_run_blank calls, fun calls' hcalls => ?_,
    fun c => hm.mem_borderCells, nodup_of_pairwise_before hm.pairwise_borderCells, hm.pairwise_borderCells,
    hm.length_borderCells, hm.borderCells?_eq, hm.foldl_mark_borderCells⟩
  · obtain ⟨m', hrun⟩ := hblank.exists_run? hsize calls
    refine ⟨m', hrun, fun hlast => ?_⟩
    exact Option.some.inj (hrun.symm.trans (hblank.run?_eq hlast calls))
  · refine (hblank.run calls').ext hm fun c => ?_
    simp only [isBorder_run_blank, hcalls]

/-- Points on a mask, beside it and at the end of the words. -/
theorem run_marks_around :
    let calls : List MarkCall :=
      [.markClamped ⟨-5, 7⟩, .mark ⟨1, 0⟩, .mark ⟨3, 0⟩, .markClamped ⟨Int64.maxValue, 0⟩, .mark ⟨1, 0⟩]
    3 * 2 < Word.size ∧ ∃ m, m = (blank 3 2).run calls ∧ m.isBorder ⟨0, 1⟩ = true ∧ m.isBorder ⟨2, 0⟩ = true ∧
      ¬m.isBorder ⟨0, 0⟩ = true ∧ (blank 3 2).run calls.reverse = m ∧ m.borderCells.length = 3 := by
  intro calls
  obtain ⟨m, hm, -, -, -, hmarks, horder, -, -, -, hcount, -⟩ := @run_marks 3 2 (by decide) calls
  have hthree : m.count = 3 := by
    rw [hm]
    decide +kernel
  exact ⟨by decide, m, hm, (hmarks ⟨0, 1⟩).mpr (by decide +kernel), (hmarks ⟨2, 0⟩).mpr (by decide +kernel),
    mt (hmarks ⟨0, 0⟩).mp (by decide +kernel), horder _ fun _ => List.mem_reverse, hcount.trans hthree⟩

end BorderMask

end VectorRaster
