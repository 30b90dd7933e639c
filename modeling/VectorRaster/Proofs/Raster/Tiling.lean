/-
  VectorRaster.Proofs.Raster.Tiling — the blocks of a reduction, and the one write at each pixel.

  The block of a target pixel is the square of source cells that it is the mean of. The blocks of a
  target are disjoint and cover the corner of the source that the target needs, and nothing else
  (`exists_block_iff`, `block_unique`). A target pixel depends on its block alone (`blockMean_congr`).

  Putting the columns together writes each pixel of each column at one cell (`writes`). Where the
  corner lies in the source and all blocks average, that is once at each cell of the target, with what
  the task of the cell's column found there (`writtenOnce`). Where the corner does not lie in the
  source, the source is too small, and that is the only error (`reduce_by_blocks`). A block that does
  not average keeps the whole reduction from returning (`reduce_without_result`).
-/

import VectorRaster.Proofs.Raster.Blocks

namespace VectorRaster

open Numeric

/-! ## Blocks -/

namespace Downsampler

variable (d : Downsampler) {source : Frame} {target : FrameSize}

/-- The cell `c` of the source belongs to the block of the target pixel `t`. -/
structure InBlock (t c : Cell) : Prop where
  left : t.x * d.scale ≤ c.x
  right : c.x < (t.x + 1) * d.scale
  top : t.y * d.scale ≤ c.y
  bottom : c.y < (t.y + 1) * d.scale

variable {d}

theorem inBlock_iff {t c : Cell} : d.InBlock t c ↔ t = ⟨c.x / d.scale, c.y / d.scale⟩ := by
  have hside : ∀ a z, (a * d.scale ≤ z ∧ z < (a + 1) * d.scale) ↔ a = z / d.scale := by
    intro a z
    rw [← Nat.le_div_iff_mul_le d.scale_pos, ← Nat.div_lt_iff_lt_mul d.scale_pos]
    omega
  obtain ⟨x, y⟩ := t
  constructor
  · intro h
    rw [(hside x c.x).mp ⟨h.left, h.right⟩, (hside y c.y).mp ⟨h.top, h.bottom⟩]
  · intro h
    cases h
    obtain ⟨hleft, hright⟩ := (hside (c.x / d.scale) c.x).mpr rfl
    obtain ⟨htop, hbottom⟩ := (hside (c.y / d.scale) c.y).mpr rfl
    exact ⟨hleft, hright, htop, hbottom⟩

/-- No cell belongs to two blocks. -/
theorem block_unique {t t' c : Cell} (h : d.InBlock t c) (h' : d.InBlock t' c) : t = t' := by
  rw [inBlock_iff.mp h, inBlock_iff.mp h']

/-- The blocks of a target make up the corner of the source that is as many times as large. -/
theorem exists_block_iff {c : Cell} : (∃ t : Cell, t.x < target.width ∧ t.y < target.height ∧ d.InBlock t c) ↔
    c.x < target.width * d.scale ∧ c.y < target.height * d.scale := by
  rw [← Nat.div_lt_iff_lt_mul d.scale_pos, ← Nat.div_lt_iff_lt_mul d.scale_pos]
  constructor
  · intro h
    obtain ⟨t, hx, hy, hblock⟩ := h
    rw [inBlock_iff.mp hblock] at hx hy
    exact ⟨hx, hy⟩
  · intro h
    exact ⟨⟨c.x / d.scale, c.y / d.scale⟩, h.1, h.2, inBlock_iff.mpr rfl⟩

/-- Sources that agree on a block have the same mean there. -/
theorem blockMean_congr {source' : Frame} {t : Cell}
    (h : ∀ c, d.InBlock t c → source.get? c.x c.y = source'.get? c.x c.y) :
    source.blockMean d.scale t.x t.y = source'.blockMean d.scale t.x t.y := by
  have hsum : ∀ channel, source.blockSum d.scale channel t.x t.y = source'.blockSum d.scale channel t.x t.y := by
    intro channel
    refine Finset.sum_congr rfl fun j hj => Finset.sum_congr rfl fun i hi => ?_
    rw [Finset.mem_Ico] at hi hj
    rw [Frame.pixel, Frame.pixel, h ⟨i, j⟩ ⟨hi.1, hi.2, hj.1, hj.2⟩]
  simp only [Frame.blockMean, Frame.channelMean, hsum]

end Downsampler

/-! ## Writes -/

/-- The pixels of some columns and the cells they are written at, in the order of writing. -/
def Frame.writes (columns : List (List Pixel)) : List (Cell × Pixel) :=
  columns.zipIdx.flatMap fun (column, x) => column.zipIdx.map fun (p, y) => (⟨x, y⟩, p)

/-- A frame after one write. -/
def Frame.written (f : Frame) (write : Cell × Pixel) : Frame := f.set write.1.x write.1.y write.2

theorem Cell.nodup_columns (width height : Nat) : (Cell.columns width height).Nodup := by
  refine List.nodup_flatMap.mpr ⟨fun x _ => ?_, ?_⟩
  · refine List.nodup_range.map fun y y' h => ?_
    cases h
    rfl
  · refine List.nodup_range.imp fun {x x'} hne c hc hc' => ?_
    obtain ⟨y, -, rfl⟩ := List.mem_map.mp hc
    obtain ⟨y', -, h⟩ := List.mem_map.mp hc'
    cases h
    exact hne rfl

theorem Frame.writes_map_range (p : Nat → Nat → Pixel) (width height : Nat) :
    writes ((List.range width).map fun x => (List.range height).map (p x))
      = (Cell.columns width height).map fun c => (c, p c.x c.y) := by
  simp only [writes, Cell.columns, zipIdx_map_range, List.flatMap_map, List.map_flatMap, List.map_map,
    Function.comp_def]

namespace Downsampler

variable (d : Downsampler) {source : Frame} {target : FrameSize}

/-- Writes of a reduction that put each pixel in its place once. -/
structure WrittenOnce (source : Frame) (target : FrameSize) (writes : List (Cell × Pixel)) : Prop where
  /-- No cell is written twice. -/
  nodup : (writes.map Prod.fst).Nodup
  /-- Written are the cells of the target. -/
  cells : ∀ c, c ∈ writes.map Prod.fst ↔ c.x < target.width ∧ c.y < target.height
  /-- What is written at a cell is what the task of its column found for its row. -/
  task : ∀ c p, (c, p) ∈ writes →
    ∃ column, (d.column source target.height c.x).run = some (.ok column) ∧ column[c.y]? = some p

theorem writtenOnce {p : Nat → Nat → Pixel} (hcolumn : ∀ x < target.width,
      (d.column source target.height x).run = some (.ok ((List.range target.height).map (p x)))) :
    d.WrittenOnce source target
      (Frame.writes ((List.range target.width).map fun x => (List.range target.height).map (p x))) := by
  rw [Frame.writes_map_range]
  have hcells : ((Cell.columns target.width target.height).map fun c => (c, p c.x c.y)).map Prod.fst
      = Cell.columns target.width target.height := by simp [Function.comp_def]
  refine ⟨?_, fun c => ?_, fun c q hwrite => ?_⟩
  · rw [hcells]
    exact Cell.nodup_columns target.width target.height
  · rw [hcells]
    exact Cell.mem_columns
  · obtain ⟨c', hc, hwrite⟩ := List.mem_map.mp hwrite
    cases hwrite
    obtain ⟨hx, hy⟩ := Cell.mem_columns.mp hc
    exact ⟨_, hcolumn c.x hx, by simp [hy]⟩

theorem not_fits_iff :
    ¬d.Fits source target ↔ source.width < target.width * d.scale ∨ source.height < target.height * d.scale := by
  rw [Fits, not_and_or, Nat.not_le, Nat.not_le]

theorem reduce_of_not_fits (pool : WorkerPool) (hwidth : target.width * d.scale < Word.size)
    (hheight : target.height * d.scale < Word.size) (hfits : ¬d.Fits source target) :
    d.reduce pool source target = some (.error (.sourceTooSmall source.size target d.scale)) := by
  rw [reduce, FrameSize.scaled?_eq hwidth hheight]
  simp only [bind, Option.bind_some, Bool.or_eq_true, decide_eq_true_eq]
  rw [if_pos ((d.not_fits_iff).mp hfits)]
  rfl

section

variable (hsource : source.Sized source.width source.height) (hwidth : target.width * d.scale < Word.size)
  (hheight : target.height * d.scale < Word.size)
include hsource hwidth hheight

/-- A reduction of which all blocks average writes what its tasks found. -/
theorem reduce_eq_writes (pool : WorkerPool) (hfits : d.Fits source target) (h : d.Calculates source target) :
    ∃ columns, (pool.run target.width fun x => (d.column source target.height x).run) = columns.map (some <| .ok ·) ∧
      d.reduce pool source target
        = some (.ok ((Frame.writes columns).foldl Frame.written (.blank target.width target.height))) ∧
      d.WrittenOnce source target (Frame.writes columns) := by
  have hcolumn : ∀ x < target.width, (d.column source target.height x).run
      = some (.ok ((List.range target.height).map (source.blockMean d.scale x))) := by
    intro x hx
    rw [column_eq hsource hfits.2 ((Nat.mul_le_mul_right _ hx).trans hfits.1), columnMeans?_eq h hx]
    rfl
  refine ⟨(List.range target.width).map fun x => (List.range target.height).map (source.blockMean d.scale x), ?_, ?_,
    d.writtenOnce hcolumn⟩
  · rw [WorkerPool.run, List.map_map]
    exact List.map_congr_left fun x hx => hcolumn x (List.mem_range.mp hx)
  · rw [reduce_of_calculates hsource (accepts_of_fits hwidth hheight hfits) hfits pool h, Frame.writes_map_range, List.foldl_map]
    rfl

/-- Only a source that is too small cannot be reduced. -/
theorem reduce_eq_error_iff (pool : WorkerPool) {e : SupersampleError} :
    d.reduce pool source target = some (.error e) ↔
      ¬d.Fits source target ∧ e = .sourceTooSmall source.size target d.scale := by
  by_cases hfits : d.Fits source target
  · have haccepts := accepts_of_fits hwidth hheight hfits
    have hreturns : d.reduce pool source target ≠ some (.error e) := by
      by_cases h : d.Calculates source target
      · rw [reduce_of_calculates hsource haccepts hfits pool h]
        exact fun hsome => nomatch hsome
      · rw [reduce_of_not_calculates hsource haccepts hfits pool h]
        exact fun hsome => nomatch hsome
    exact iff_of_false hreturns fun h => h.1 hfits
  · rw [d.reduce_of_not_fits pool hwidth hheight hfits]
    simp [hfits, eq_comm]

/-- A reduction that gives a frame has a source that is large enough, and all its blocks average. -/
theorem calculates_of_reduce (pool : WorkerPool) {frame : Frame} (h : d.reduce pool source target = some (.ok frame)) :
    d.Fits source target ∧ d.Calculates source target := by
  by_cases hfits : d.Fits source target
  · refine ⟨hfits, ?_⟩
    by_contra hnot
    rw [reduce_of_not_calculates hsource (accepts_of_fits hwidth hheight hfits) hfits pool hnot] at h
    cases h
  · rw [d.reduce_of_not_fits pool hwidth hheight hfits] at h
    cases h

/-- Reductions agree at a pixel if their sources agree on its block. -/
theorem reduce_local (pool pool' : WorkerPool) {source' frame frame' : Frame}
    (hsource' : source'.Sized source'.width source'.height) (h : d.reduce pool source target = some (.ok frame))
    (h' : d.reduce pool' source' target = some (.ok frame')) {t : Cell} (hx : t.x < target.width)
    (hy : t.y < target.height) (hblock : ∀ c, d.InBlock t c → source.get? c.x c.y = source'.get? c.x c.y) :
    frame.get? t.x t.y = frame'.get? t.x t.y := by
  obtain ⟨hfits, hcalculates⟩ := d.calculates_of_reduce hsource hwidth hheight pool h
  obtain ⟨hfits', hcalculates'⟩ := d.calculates_of_reduce hsource' hwidth hheight pool' h'
  obtain ⟨f, hf, -, hpixel⟩ := reduce_blockMean hsource (accepts_of_fits hwidth hheight hfits) hfits pool hcalculates
  obtain ⟨f', hf', -, hpixel'⟩ := reduce_blockMean hsource' (accepts_of_fits hwidth hheight hfits') hfits' pool'
    hcalculates'
  cases hf.symm.trans h
  cases hf'.symm.trans h'
  rw [hpixel t.x hx t.y hy, hpixel' t.x hx t.y hy, blockMean_congr hblock]

end

/-- Reducing a source fails only if the corner that the target needs is larger than the source, and
then says so; no task fails. Otherwise it returns exactly if all blocks average, as they do up to a scale
of 4100, and the target is made by one write at each of its cells, of what the task of the cell's column
found there. The blocks of the target are disjoint and cover the corner, and each pixel depends on its
block alone: two sources that agree on the block have reductions that agree at the pixel. -/
theorem reduce_by_blocks (pool : WorkerPool) (hsource : source.Sized source.width source.height)
    (hwidth : target.width * d.scale < Word.size) (hheight : target.height * d.scale < Word.size) :
    (∀ e, d.reduce pool source target = some (.error e) ↔
      (source.width < target.width * d.scale ∨ source.height < target.height * d.scale) ∧
        e = .sourceTooSmall source.size target d.scale) ∧
    (d.Fits source target → (d.reduce pool source target = none ↔ ¬d.Calculates source target)) ∧
    (d.scale ≤ 4100 → d.Calculates source target) ∧
    (d.Fits source target → d.Calculates source target → ∃ frame columns,
      d.reduce pool source target = some (.ok frame) ∧ frame.Sized target.width target.height ∧
      (pool.run target.width fun x => (d.column source target.height x).run) = columns.map (some <| .ok ·) ∧
      frame = (Frame.writes columns).foldl Frame.written (.blank target.width target.height) ∧
      d.WrittenOnce source target (Frame.writes columns)) ∧
    (∀ c : Cell, (∃ t : Cell, t.x < target.width ∧ t.y < target.height ∧ d.InBlock t c) ↔
      c.x < target.width * d.scale ∧ c.y < target.height * d.scale) ∧
    (∀ t t' c, d.InBlock t c → d.InBlock t' c → t = t') ∧
    (∀ (pool' : WorkerPool) (source' frame frame' : Frame), source'.Sized source'.width source'.height →
      d.reduce pool source target = some (.ok frame) → d.reduce pool' source' target = some (.ok frame') →
      ∀ t : Cell, t.x < target.width → t.y < target.height →
        (∀ c, d.InBlock t c → source.get? c.x c.y = source'.get? c.x c.y) →
        frame.get? t.x t.y = frame'.get? t.x t.y) := by
  refine ⟨fun e => ?_, fun hfits => ?_, calculates_of_le, fun hfits h => ?_, fun c => exists_block_iff,
    fun t t' c => block_unique, ?_⟩
  · rw [← d.not_fits_iff]
    exact d.reduce_eq_error_iff hsource hwidth hheight pool
  · exact reduce_eq_none_iff hsource (accepts_of_fits hwidth hheight hfits) hfits pool
  · obtain ⟨columns, htasks, hok, honce⟩ := d.reduce_eq_writes hsource hwidth hheight pool hfits h
    obtain ⟨frame, hframe, hsized, -⟩ := reduce_blockMean hsource (accepts_of_fits hwidth hheight hfits) hfits pool h
    cases hframe.symm.trans hok
    exact ⟨_, columns, hok, hsized, htasks, rfl, honce⟩
  · intro pool' source' frame frame' hsource' hok hok' t hx hy
    exact d.reduce_local hsource hwidth hheight pool pool' hsource' hok hok' hx hy

/-- Two sources of different sizes that agree on the second of two blocks only. One of them is too
small for three blocks. -/
theorem reduce_by_blocks_two_sources :
    let d : Downsampler := ⟨2, by decide⟩
    let a : Pixel := ⟨9, 9, 9, 9⟩
    let b : Pixel := ⟨255, 0, 0, 255⟩
    let source : Frame := ⟨4, 3, #[a, a, b, a, a, a, a, a, b, b, b, b]⟩
    let source' : Frame := ⟨5, 2, #[b, a, b, a, b, b, a, a, a, b]⟩
    source.Sized 4 3 ∧ source'.Sized 5 2 ∧
      d.reduce ⟨1⟩ source ⟨3, 1⟩ = some (.error (.sourceTooSmall ⟨4, 3⟩ ⟨3, 1⟩ 2)) ∧
      ∃ frame frame', d.reduce ⟨1⟩ source ⟨2, 1⟩ = some (.ok frame) ∧ d.reduce ⟨4⟩ source' ⟨2, 1⟩ = some (.ok frame') ∧
        frame.get? 1 0 = frame'.get? 1 0 := by
  intro d a b source source'
  have hsource : source.Sized 4 3 := ⟨rfl, rfl, rfl⟩
  have hsource' : source'.Sized 5 2 := ⟨rfl, rfl, rfl⟩
  obtain ⟨hsmall, -⟩ := @reduce_by_blocks d source ⟨3, 1⟩ ⟨1⟩ hsource (by decide) (by decide)
  obtain ⟨-, -, hscale, hreduce, -, -, hlocal⟩ := @reduce_by_blocks d source ⟨2, 1⟩ ⟨1⟩ hsource (by decide) (by decide)
  obtain ⟨-, -, hscale', hreduce', -⟩ := @reduce_by_blocks d source' ⟨2, 1⟩ ⟨4⟩ hsource' (by decide) (by decide)
  obtain ⟨frame, -, hframe, -⟩ := hreduce ⟨by decide, by decide⟩ (hscale (by decide))
  obtain ⟨frame', -, hframe', -⟩ := hreduce' ⟨by decide, by decide⟩ (hscale' (by decide))
  have hblock : ∀ c, d.InBlock ⟨1, 0⟩ c → source.get? c.x c.y = source'.get? c.x c.y := by
    intro c hc
    have hx : c.x = 2 ∨ c.x = 3 := by
      have hleft : 1 * 2 ≤ c.x := hc.left
      have hright : c.x < 2 * 2 := hc.right
      omega
    have hy : c.y = 0 ∨ c.y = 1 := by
      have hbottom : c.y < 1 * 2 := hc.bottom
      omega
    rcases hx with hx | hx <;> rcases hy with hy | hy <;> rw [hx, hy] <;> decide
  exact ⟨hsource, hsource', (hsmall _).mpr ⟨.inl (by decide), rfl⟩, frame, frame', hframe, hframe',
    hlocal ⟨4⟩ source' frame frame' hsource' hframe hframe' ⟨1, 0⟩ (by decide) (by decide) hblock⟩

/-- Two sources that are just as large as the target needs, and have no reduction: the sums of a white block of 4101
by 4101 are too large, and the number of samples of a block of 65536 by 65536 is zero as a word, whatever
its pixels. -/
theorem reduce_without_result :
    let d : Downsampler := ⟨4101, by decide⟩
    let e : Downsampler := ⟨65536, by decide⟩
    d.Fits (.solid 4101 4101 .white) ⟨1, 1⟩ ∧ d.reduce ⟨1⟩ (.solid 4101 4101 .white) ⟨1, 1⟩ = none ∧
      e.Fits (.blank 65536 65536) ⟨1, 1⟩ ∧ e.reduce ⟨1⟩ (.blank 65536 65536) ⟨1, 1⟩ = none := by
  intro d e
  have hfits : e.Fits (.blank 65536 65536) ⟨1, 1⟩ := ⟨Nat.le_refl _, Nat.le_refl _⟩
  refine ⟨⟨Nat.le_refl _, Nat.le_refl _⟩, ?_, hfits, ?_⟩
  · exact @reduce_white d ⟨1⟩ (Nat.le_refl _) (by decide)
  · have haccepts := accepts_of_fits (by decide) (by decide) hfits
    refine reduce_of_not_calculates (Frame.Sized.blank 65536 65536) haccepts hfits ⟨1⟩ fun h => ?_
    have hzero : blockSamples 65536 = 0 := by decide
    exact absurd hzero (h.averages 0 Nat.one_pos 0 Nat.one_pos).1

end Downsampler

end VectorRaster
