/-
  VectorRaster.Proofs.Raster.Replay — a frame is a function of its coordinates.

  Calls that write pixels come one after another, each at a position. What is read at a position is
  what the calls at that very position leave there, replayed in order on the pixel that the frame began
  with (`get?_run`); a call beside the frame changes nothing (`serve_of_outside`).

  The pixels can also be read all at once, by rows, as bytes, or counted. All of these views show one
  grid of pixels, row by row (`Shows`), and any frame that has its pixels shows the grid that is read
  position by position (`Sized.shows`).

  Main statement: `run_shows_replay`.
-/

import VectorRaster.Proofs.Raster.Rows

namespace VectorRaster

open Numeric

/-- A call that writes a pixel at a position. -/
inductive PixelCall where
  | set (c : Cell) (p : Pixel)
  | blend (c : Cell) (p : Pixel)
  deriving DecidableEq, Repr

namespace PixelCall

def cell : PixelCall → Cell
  | set c _ => c
  | blend c _ => c

/-- What a call makes of the pixel at its position. -/
def onto : PixelCall → Pixel → Pixel
  | set _ p, _ => p
  | blend _ p, below => p.sourceOver below

/-- What some calls make of the pixel at a position: those that are made there, in order. -/
def replay (calls : List PixelCall) (c : Cell) (p : Pixel) : Pixel :=
  (calls.filter (·.cell = c)).foldl (fun p call => call.onto p) p

theorem replay_cons (call : PixelCall) (calls : List PixelCall) (c : Cell) (p : Pixel) :
    replay (call :: calls) c p = replay calls c (if c = call.cell then call.onto p else p) := by
  by_cases h : c = call.cell
  · simp [replay, h]
  · simp [replay, h, Ne.symm h]

end PixelCall

namespace Frame

open PixelCall

variable {f : Frame} {width height : Nat} {c : Cell}

def serve (f : Frame) : PixelCall → Frame
  | .set c p => f.set c.x c.y p
  | .blend c p => f.blend c.x c.y p

def run (f : Frame) (calls : List PixelCall) : Frame := calls.foldl serve f

/-! ## Calls -/

/-- A call is seen at its position and at no other. -/
theorem get?_serve (call : PixelCall) :
    (f.serve call).get? c.x c.y = (f.get? c.x c.y).map fun p => if c = call.cell then call.onto p else p := by
  cases call with
  | set d p =>
    show (f.set d.x d.y p).get? c.x c.y = (f.get? c.x c.y).map fun q => if c = d then p else q
    rw [get?_set]
    split
    · rfl
    · exact Option.map_id'.symm
  | blend d p =>
    show (f.blend d.x d.y p).get? c.x c.y = (f.get? c.x c.y).map fun q => if c = d then p.sourceOver q else q
    rw [get?_blend]
    split
    · rfl
    · exact Option.map_id'.symm

theorem Sized.serve (h : f.Sized width height) (call : PixelCall) : (f.serve call).Sized width height := by
  cases call with
  | set c p => exact h.set c.x c.y p
  | blend c p => exact h.blend c.x c.y p

/-- Nothing is written beside a frame. -/
theorem serve_of_outside {call : PixelCall} (h : ¬(call.cell.x < f.width ∧ call.cell.y < f.height)) :
    f.serve call = f := by
  cases call with
  | set c p =>
    have hc : ¬(c.x < f.width ∧ c.y < f.height) := h
    show f.set c.x c.y p = f
    simp [set, hc]
  | blend c p =>
    have hc : ¬(c.x < f.width ∧ c.y < f.height) := h
    show f.blend c.x c.y p = f
    rw [blend, get?_eq_none_of_outside hc]

theorem Sized.run (h : f.Sized width height) (calls : List PixelCall) : (f.run calls).Sized width height := by
  induction calls generalizing f with
  | nil => exact h
  | cons call calls ih => exact ih (h.serve call)

/-- What is read at a position after a run is what the calls there leave. -/
theorem get?_run (calls : List PixelCall) : (f.run calls).get? c.x c.y = (f.get? c.x c.y).map (replay calls c) := by
  induction calls generalizing f with
  | nil => exact Option.map_id'.symm
  | cons call calls ih =>
    have hreplay : replay (call :: calls) c = fun p => replay calls c (if c = call.cell then call.onto p else p) :=
      funext (replay_cons call calls c)
    rw [show f.run (call :: calls) = (f.serve call).run calls from rfl, ih, get?_serve, Option.map_map, hreplay]
    rfl

/-! ## Views -/

/-- Every view of the frame shows this grid of pixels, row by row. -/
structure Shows (f : Frame) (width height : Nat) (grid : Cell → Pixel) : Prop where
  get? : ∀ c : Cell, f.get? c.x c.y = if c.x < width ∧ c.y < height then some (grid c) else none
  pixels : f.pixels.toList = (Cell.all width height).map grid
  row? : ∀ y, f.row? y = if y < height then some ((List.range width).map fun x => grid ⟨x, y⟩) else none
  countPixels : ∀ condition, f.countPixels condition = ((Cell.all width height).filter fun c => condition (grid c)).length
  bytes : f.bytes = (Cell.all width height).flatMap fun c =>
    [(grid c).red, (grid c).green, (grid c).blue, (grid c).alpha]

theorem Sized.row?_eq (h : f.Sized width height) {y : Nat} (hy : y < height) :
    f.row? y = some ((List.range width).map fun x => f.pixel x y) := by
  have hend : (y + 1) * width ≤ f.pixels.size := by
    rw [h.pixels, Nat.mul_comm width]
    exact Nat.mul_le_mul_right width hy
  have hlength : (y + 1) * width - y * width = width := by rw [Nat.add_mul, Nat.one_mul, Nat.add_sub_cancel_left]
  rw [Frame.row?, if_pos (by rwa [h.height]), h.width]
  refine congrArg some (List.ext_getElem ?_ fun x hx _ => ?_)
  · rw [Array.length_toList, Array.size_extract, Nat.min_eq_left hend, hlength, List.length_map, List.length_range]
  · have hcolumn : x < width := by
      rwa [Array.length_toList, Array.size_extract, Nat.min_eq_left hend, hlength] at hx
    have hpixel := @Sized.getElem?_index width height f h ⟨x, y⟩ hcolumn hy
    simp only [List.getElem_map, List.getElem_range, Array.getElem_toList, Array.getElem_extract]
    exact (Array.getElem?_eq_some_iff.mp hpixel).2

theorem Sized.shows (h : f.Sized width height) {grid : Cell → Pixel}
    (hgrid : ∀ c : Cell, c.x < width → c.y < height → f.get? c.x c.y = some (grid c)) : f.Shows width height grid := by
  have hpixel : ∀ c : Cell, c.x < width → c.y < height → f.pixel c.x c.y = grid c := by
    intro c hx hy
    rw [pixel, hgrid c hx hy, Option.getD_some]
  have hpixels : f.pixels.toList = (Cell.all width height).map grid := by
    rw [h.toList_pixels]
    refine List.map_congr_left fun c hc => ?_
    obtain ⟨hx, hy⟩ := mem_all.mp hc
    exact hpixel c hx hy
  refine ⟨fun c => ?_, hpixels, fun y => ?_, fun condition => ?_, ?_⟩
  · by_cases hc : c.x < width ∧ c.y < height
    · rw [if_pos hc, hgrid c hc.1 hc.2]
    · rw [if_neg hc, get?_eq_none_of_outside (by rwa [h.width, h.height])]
  · by_cases hy : y < height
    · rw [if_pos hy, h.row?_eq hy]
      refine congrArg some (List.map_congr_left fun x hx => ?_)
      exact hpixel ⟨x, y⟩ (List.mem_range.mp hx) hy
    · rw [if_neg hy, Frame.row?, if_neg (by rwa [h.height])]
  · rw [Frame.countPixels, ← Array.countP_toList, hpixels, List.countP_map, List.countP_eq_length_filter]
    rfl
  · rw [Frame.bytes, hpixels, List.flatMap_map]
    rfl

/-! ## Runs -/

/-- How a frame of this size begins, and the pixel at each of its positions. -/
inductive Begins (width height : Nat) : Frame → (Cell → Pixel) → Prop where
  | blank : Begins width height (.blank width height) fun _ => .transparent
  | ofPixels {pixels : Array Pixel} {f : Frame} : ofPixels? width height pixels = some f →
    Begins width height f fun c => pixels.getD (c.y * width + c.x) .transparent

theorem Begins.spec {grid : Cell → Pixel} (h : Begins width height f grid) (hsize : width * height < Word.size) :
    f.Sized width height ∧ ∀ c : Cell, c.x < width → c.y < height → f.get? c.x c.y = some (grid c) := by
  cases h with
  | blank =>
    refine ⟨Sized.blank width height, fun c hx hy => ?_⟩
    have hindex : c.y * width + c.x < width * height := index_lt_area hx hy
    simp [get?, Frame.blank, hx, hy, hindex]
  | @ofPixels pixels f hf =>
    unfold ofPixels? at hf
    split at hf
    · rename_i hcount
      cases hf
      rw [Word.product, Nat.mod_eq_of_lt hsize] at hcount
      refine ⟨⟨hcount, rfl, rfl⟩, fun c hx hy => ?_⟩
      have hindex : c.y * width + c.x < pixels.size := by
        rw [hcount]
        exact index_lt_area hx hy
      simp [get?, hx, hy, hindex]
    · cases hf

/-- After any calls on a frame that begins transparent or with given pixels, its size and the number of its
pixels are as they were. At each position of the frame stands the pixel that the frame began with there, after the
calls at that position, in order; a call beside the frame changes nothing. The frame, read pixel by pixel, as a list,
by rows, counted or as bytes, is that grid. -/
theorem run_shows_replay {grid : Cell → Pixel} (hsize : width * height < Word.size) (hbegins : Begins width height f grid)
    (calls : List PixelCall) :
    (f.run calls).size = ⟨width, height⟩ ∧ (f.run calls).pixels.size = width * height ∧
      (f.run calls).Shows width height (fun c => replay calls c (grid c)) ∧
      ∀ call : PixelCall, ¬(call.cell.x < width ∧ call.cell.y < height) → (f.run calls).serve call = f.run calls := by
  obtain ⟨hsized, hgrid⟩ := hbegins.spec hsize
  have hrun := hsized.run calls
  refine ⟨?_, hrun.pixels, hrun.shows fun c hx hy => ?_, fun call houtside => ?_⟩
  · rw [size, hrun.width, hrun.height]
  · rw [get?_run, hgrid c hx hy, Option.map_some]
  · exact serve_of_outside (by rwa [hrun.width, hrun.height])

/-- A red pixel is blended over, one is set twice, and one is written past the end of its row. -/
theorem run_shows_replay_row :
    let pixels : Array Pixel := #[⟨255, 0, 0, 255⟩, ⟨0, 0, 0, 0⟩, ⟨1, 2, 3, 4⟩, ⟨5, 6, 7, 8⟩]
    let f : Frame := ⟨2, 2, pixels⟩
    let calls : List PixelCall :=
      [.set ⟨1, 0⟩ ⟨9, 9, 9, 9⟩, .blend ⟨0, 0⟩ ⟨0, 0, 255, 128⟩, .set ⟨2, 0⟩ ⟨7, 7, 7, 7⟩, .set ⟨1, 0⟩ ⟨8, 8, 8, 8⟩]
    2 * 2 < Word.size ∧ Begins 2 2 f (fun c => pixels.getD (c.y * 2 + c.x) .transparent) ∧
      (f.run calls).get? 1 0 = some ⟨8, 8, 8, 8⟩ ∧ (f.run calls).get? 2 0 = none ∧
      (f.run calls).row? 1 = some [⟨1, 2, 3, 4⟩, ⟨5, 6, 7, 8⟩] := by
  intro pixels f calls
  have hbegins : Begins 2 2 f fun c => pixels.getD (c.y * 2 + c.x) .transparent := .ofPixels (by decide)
  obtain ⟨-, -, hshows, -⟩ := run_shows_replay (by decide) hbegins calls
  refine ⟨by decide, hbegins, ?_, ?_, ?_⟩
  · exact (hshows.get? ⟨1, 0⟩).trans (by decide)
  · exact (hshows.get? ⟨2, 0⟩).trans (by decide)
  · exact (hshows.row? 1).trans (by decide)

end Frame

end VectorRaster
