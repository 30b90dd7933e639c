/-
  VectorRaster.Proofs.Raster.Blocks — the means of blocks, and where 32 bits are too few for them.

  The block of a target pixel is `scale` columns wide and `scale` rows high. A chain of sums returns
  exactly if the whole sum is a word, whichever sum is too large first (`ofSums?_bind`), so what
  becomes of a pixel is decided by the exact sums over its block and the number of samples alone
  (`Frame.Averages`, `pixel_eq`). Where the blocks lie in the source, no part of a reduction fails:
  it returns if all blocks average, and then each mean is written at its own pixel
  (`reduce_of_calculates`), and else it does not return (`reduce_eq_none_iff`).

  Proved: a reduction that returns has the exact means, rounded to the nearest, as long as the number
  of samples is a word, and up to a scale of 4100 it always returns (`reduce_means`). From 4101 on it
  need not: a white frame has no reduction (`reduce_white`).
-/

import Mathlib.Algebra.BigOperators.Intervals
import Mathlib.Algebra.Group.Action.Defs
import Mathlib.Algebra.Order.BigOperators.Group.Finset
import VectorRaster.Proofs.Raster.Rows
import VectorRaster.Raster.Downsample

namespace VectorRaster

open Numeric

/-! ## Sums -/

inductive Channel where
  | red
  | green
  | blue
  | alpha
  deriving DecidableEq, Repr

theorem Channel.forall_iff {p : Channel → Prop} : (∀ c, p c) ↔ p .red ∧ p .green ∧ p .blue ∧ p .alpha := by
  constructor
  · intro h
    exact ⟨h .red, h .green, h .blue, h .alpha⟩
  · intro h c
    obtain ⟨hred, hgreen, hblue, halpha⟩ := h
    cases c <;> assumption

instance {p : Channel → Prop} [DecidablePred p] : Decidable (∀ c, p c) := decidable_of_iff' _ Channel.forall_iff

def Pixel.channel (p : Pixel) : Channel → UInt8
  | .red => p.red
  | .green => p.green
  | .blue => p.blue
  | .alpha => p.alpha

def Totals.channel (t : Totals) : Channel → UInt32
  | .red => t.red
  | .green => t.green
  | .blue => t.blue
  | .alpha => t.alpha

namespace Frame

/-- The sum of a channel over the columns from `x` to before `x'` of row `y`. -/
def rowSum (f : Frame) (c : Channel) (x x' y : Nat) : Nat := ∑ i ∈ Finset.Ico x x', ((f.pixel i y).channel c).toNat

/-- The sum of a channel over the block of a target pixel. -/
def blockSum (f : Frame) (scale : Nat) (c : Channel) (x y : Nat) : Nat :=
  ∑ j ∈ Finset.Ico (y * scale) ((y + 1) * scale), f.rowSum c (x * scale) ((x + 1) * scale) j

/-- No sum of bytes is more than that of as many white ones. -/
theorem blockSum_le (f : Frame) (scale : Nat) (c : Channel) (x y : Nat) :
    f.blockSum scale c x y ≤ 255 * (scale * scale) := by
  have hside : ∀ z, ((z + 1) * scale) - z * scale = scale := fun z => by
    rw [Nat.add_mul, Nat.one_mul, Nat.add_sub_cancel_left]
  have hrow : ∀ j, f.rowSum c (x * scale) ((x + 1) * scale) j ≤ scale * 255 := fun j => by
    have h := Finset.sum_le_card_nsmul (Finset.Ico (x * scale) ((x + 1) * scale))
      (fun i => ((f.pixel i j).channel c).toNat) 255 fun i _ => Nat.le_of_lt_succ (UInt8.toNat_lt _)
    rwa [Nat.card_Ico, hside, smul_eq_mul] at h
  have h := Finset.sum_le_card_nsmul (Finset.Ico (y * scale) ((y + 1) * scale)) _ _ fun j _ => hrow j
  rw [Nat.card_Ico, hside, smul_eq_mul] at h
  calc f.blockSum scale c x y ≤ scale * (scale * 255) := h
    _ = 255 * (scale * scale) := by rw [← Nat.mul_assoc, Nat.mul_comm]

end Frame

/-! ## Steps that need not return -/

theorem mapM_of_pure {m : Type → Type} [Monad m] [LawfulMonad m] {α β : Type} {f : α → m β} {g : α → β} {xs : List α}
    (h : ∀ x ∈ xs, f x = pure (g x)) : xs.mapM f = pure (xs.map g) := by
  induction xs with
  | nil => rfl
  | cons x xs ih =>
    rw [List.mapM_cons, h x List.mem_cons_self, ih fun x hx => h x (List.mem_cons_of_mem _ hx), pure_bind, pure_bind,
      List.map_cons]

theorem mapM_eq_none {α β : Type} {f : α → Option β} {xs : List α} {x : α} (hx : x ∈ xs) (h : f x = none) :
    xs.mapM f = none := by
  induction xs with
  | nil => cases hx
  | cons y ys ih =>
    rw [List.mapM_cons]
    rcases List.mem_cons.mp hx with rfl | hx
    · rw [h]
      rfl
    · rw [ih hx]
      cases f y <;> rfl

theorem lift_bind {ε α β : Type} (x : Option α) (f : α → Option β) :
    (ExceptT.lift (x.bind f) : ExceptT ε Option β) = ExceptT.lift x >>= fun a => ExceptT.lift (f a) := by
  cases x <;> rfl

theorem mapM_lift {ε α β : Type} {f : α → ExceptT ε Option β} {g : α → Option β} {xs : List α}
    (h : ∀ x ∈ xs, f x = ExceptT.lift (g x)) : xs.mapM f = ExceptT.lift (xs.mapM g) := by
  induction xs with
  | nil => rfl
  | cons x xs ih =>
    rw [List.mapM_cons, List.mapM_cons, h x List.mem_cons_self, ih fun x hx => h x (List.mem_cons_of_mem _ hx)]
    cases g x with
    | none => rfl
    | some y => cases xs.mapM g <;> rfl

theorem mapM_map {α β γ : Type} {f : α → Option γ} {g : α → Option β} {k : β → γ} {xs : List α}
    (h : ∀ x ∈ xs, f x = (g x).map k) : xs.mapM f = (xs.mapM g).map (List.map k) := by
  induction xs with
  | nil => rfl
  | cons x xs ih =>
    rw [List.mapM_cons, List.mapM_cons, h x List.mem_cons_self, ih fun x hx => h x (List.mem_cons_of_mem _ hx)]
    cases g x with
    | none => rfl
    | some y => cases xs.mapM g <;> rfl

theorem mapM_id_ok {ε α : Type} (xs : List α) : (xs.map Except.ok).mapM id = (.ok xs : Except ε (List α)) := by
  rw [List.mapM_map]
  exact (mapM_of_pure fun _ _ => rfl).trans (by rw [List.map_id']; rfl)

/-- Four steps return together. -/
theorem bind_ite_four {α β : Type} {p q r s : Prop} [Decidable p] [Decidable q] [Decidable r] [Decidable s]
    {a b c d : α} {f : α → α → α → α → β} :
    ((if p then some a else none) >>= fun a => (if q then some b else none) >>= fun b =>
      (if r then some c else none) >>= fun c => (if s then some d else none) >>= fun d => pure (f a b c d))
      = if p ∧ q ∧ r ∧ s then some (f a b c d) else none := by
  by_cases hp : p <;> by_cases hq : q <;> by_cases hr : r <;> by_cases hs : s <;> simp [hp, hq, hr, hs]

namespace Totals

variable {f : Frame}

theorem ext_channel {t t' : Totals} (h : ∀ c, t.channel c = t'.channel c) : t = t' := by
  obtain ⟨r, g, b, a⟩ := t
  obtain ⟨r', g', b', a'⟩ := t'
  have hr : r = r' := h .red
  have hg : g = g' := h .green
  have hb : b = b' := h .blue
  have ha : a = a' := h .alpha
  rw [hr, hg, hb, ha]

/-- Totals with these sums, unless one of them is no word. -/
def ofSums? (sums : Channel → ℕ) : Option Totals :=
  if ∀ c, sums c < UInt32.size then
    some ⟨.ofNat (sums .red), .ofNat (sums .green), .ofNat (sums .blue), .ofNat (sums .alpha)⟩
  else none

theorem ofSums?_eq_some_iff {sums : Channel → ℕ} {t : Totals} :
    ofSums? sums = some t ↔ ∀ c, (t.channel c).toNat = sums c := by
  unfold ofSums?
  constructor
  · intro h
    split at h
    · rename_i hwords
      cases h
      intro c
      cases c <;> exact UInt32.toNat_ofNat_of_lt' (hwords _)
    · cases h
  · intro h
    have hwords : ∀ c, sums c < UInt32.size := fun c => h c ▸ UInt32.toNat_lt_size _
    rw [if_pos hwords, Option.some_inj]
    refine ext_channel fun c => UInt32.toNat_inj.mp ?_
    rw [h c]
    cases c <;> exact UInt32.toNat_ofNat_of_lt' (hwords _)

theorem ofSums?_eq_none_iff {sums : Channel → ℕ} : ofSums? sums = none ↔ ∃ c, UInt32.size ≤ sums c := by
  simp [ofSums?]

/-- Sums on top of sums are those of both, and it does not matter which are no words first. -/
theorem ofSums?_bind (sums more : Channel → ℕ) :
    ((ofSums? sums).bind fun t => ofSums? fun c => (t.channel c).toNat + more c) = ofSums? fun c => sums c + more c := by
  cases hsums : ofSums? sums with
  | none =>
    obtain ⟨c, hc⟩ := ofSums?_eq_none_iff.mp hsums
    exact (ofSums?_eq_none_iff.mpr ⟨c, hc.trans (Nat.le_add_right _ _)⟩).symm
  | some t =>
    have hchannels := ofSums?_eq_some_iff.mp hsums
    simp only [Option.bind_some, hchannels]

theorem add?_eq (t : Totals) (p : Pixel) :
    t.add? p = ofSums? fun c => (t.channel c).toNat + (p.channel c).toNat := by
  simp only [add?, sum?, UInt8.toNat_toUInt32, ofSums?, Channel.forall_iff, channel, Pixel.channel, bind_ite_four]
  refine if_congr Iff.rfl ?_ rfl
  simp only [UInt32.ofNat_add, UInt32.ofNat_toNat, UInt32.ofNat_uInt8ToNat]

/-- Adding a row that is in the source does not fail. -/
theorem addRow_eq {outside : SupersampleError} {y : ℕ} (count x : ℕ) (t : Totals)
    (h : ∀ i ∈ Finset.Ico x (x + count), f.get? i y = some (f.pixel i y)) :
    addRow f outside y x count t
      = ExceptT.lift (ofSums? fun c => (t.channel c).toNat + f.rowSum c x (x + count) y) := by
  induction count generalizing x t with
  | zero =>
    have hsums : (ofSums? fun c => (t.channel c).toNat + f.rowSum c x (x + 0) y) = some t :=
      ofSums?_eq_some_iff.mpr fun c => by simp [Frame.rowSum]
    rw [hsums]
    rfl
  | succ count ih =>
    have hend : x + 1 + count = x + (count + 1) := by omega
    have hrest : ∀ t : Totals, addRow f outside y (x + 1) count t
        = ExceptT.lift (ofSums? fun c => (t.channel c).toNat + f.rowSum c (x + 1) (x + (count + 1)) y) := by
      intro t
      rw [ih (x + 1) t fun i hi => h i (by rw [Finset.mem_Ico] at hi ⊢; omega), hend]
    have hsum : ∀ c, f.rowSum c x (x + (count + 1)) y
        = ((f.pixel x y).channel c).toNat + f.rowSum c (x + 1) (x + (count + 1)) y := fun c =>
      Finset.sum_eq_sum_Ico_succ_bot (by omega) _
    have hsums : (ofSums? fun c => (t.channel c).toNat + f.rowSum c x (x + (count + 1)) y)
        = (t.add? (f.pixel x y)).bind fun t =>
          ofSums? fun c => (t.channel c).toNat + f.rowSum c (x + 1) (x + (count + 1)) y := by
      simp only [add?_eq, ofSums?_bind, hsum, Nat.add_assoc]
    rw [hsums, lift_bind]
    simp only [addRow, h x (by rw [Finset.mem_Ico]; omega), hrest]
    rfl

/-- Nor does adding rows. -/
theorem addRows_eq {outside : SupersampleError} {x width : ℕ} (count y : ℕ) (t : Totals)
    (h : ∀ j ∈ Finset.Ico y (y + count), ∀ i ∈ Finset.Ico x (x + width), f.get? i j = some (f.pixel i j)) :
    addRows f outside x width y count t = ExceptT.lift (ofSums? fun c =>
      (t.channel c).toNat + ∑ j ∈ Finset.Ico y (y + count), f.rowSum c x (x + width) j) := by
  induction count generalizing y t with
  | zero =>
    have hsums : (ofSums? fun c => (t.channel c).toNat + ∑ j ∈ Finset.Ico y (y + 0), f.rowSum c x (x + width) j)
        = some t := ofSums?_eq_some_iff.mpr fun c => by simp
    rw [hsums]
    rfl
  | succ count ih =>
    have hend : y + 1 + count = y + (count + 1) := by omega
    have hrest : ∀ t : Totals, addRows f outside x width (y + 1) count t = ExceptT.lift (ofSums? fun c =>
        (t.channel c).toNat + ∑ j ∈ Finset.Ico (y + 1) (y + (count + 1)), f.rowSum c x (x + width) j) := by
      intro t
      rw [ih (y + 1) t fun j hj => h j (by rw [Finset.mem_Ico] at hj ⊢; omega), hend]
    have hsum : ∀ c, ∑ j ∈ Finset.Ico y (y + (count + 1)), f.rowSum c x (x + width) j
        = f.rowSum c x (x + width) y + ∑ j ∈ Finset.Ico (y + 1) (y + (count + 1)), f.rowSum c x (x + width) j :=
      fun c => Finset.sum_eq_sum_Ico_succ_bot (by omega) _
    have hsums : (ofSums? fun c =>
          (t.channel c).toNat + ∑ j ∈ Finset.Ico y (y + (count + 1)), f.rowSum c x (x + width) j)
        = (ofSums? fun c => (t.channel c).toNat + f.rowSum c x (x + width) y).bind fun t => ofSums? fun c =>
          (t.channel c).toNat + ∑ j ∈ Finset.Ico (y + 1) (y + (count + 1)), f.rowSum c x (x + width) j := by
      simp only [ofSums?_bind, hsum, Nat.add_assoc]
    rw [hsums, lift_bind]
    simp only [addRows, hrest, addRow_eq width x t (h y (by rw [Finset.mem_Ico]; omega))]

theorem mean?_eq (total count : UInt32) :
    mean? total count = if count ≠ 0 ∧ total.toNat + count.toNat / 2 < UInt32.size then
        some (.ofNat ((total.toNat + count.toNat / 2) / count.toNat))
      else none := by
  have hhalf : (count / 2).toNat = count.toNat / 2 := UInt32.toNat_div count 2
  by_cases hzero : count = 0
  · rw [mean?, if_pos hzero, if_neg (fun h => h.1 hzero)]
  · by_cases hword : total.toNat + count.toNat / 2 < UInt32.size
    · have hsum : (total + count / 2).toNat = total.toNat + count.toNat / 2 := by
        rw [UInt32.toNat_add, hhalf]
        exact Nat.mod_eq_of_lt hword
      rw [mean?, if_neg hzero, sum?, hhalf, if_pos hword, if_pos ⟨hzero, hword⟩]
      refine congrArg some (UInt8.toNat_inj.mp ?_)
      rw [UInt32.toNat_toUInt8, UInt32.toNat_div, hsum, UInt8.toNat_ofNat']
    · rw [mean?, if_neg hzero, sum?, hhalf, if_neg hword, if_neg (fun h => hword h.2)]
      rfl

theorem average?_eq (t : Totals) (count : UInt32) :
    t.average? count = if count ≠ 0 ∧ ∀ c, (t.channel c).toNat + count.toNat / 2 < UInt32.size then
        some ⟨.ofNat ((t.red.toNat + count.toNat / 2) / count.toNat), .ofNat ((t.green.toNat + count.toNat / 2) / count.toNat),
          .ofNat ((t.blue.toNat + count.toNat / 2) / count.toNat), .ofNat ((t.alpha.toNat + count.toNat / 2) / count.toNat)⟩
      else none := by
  simp only [average?, mean?_eq, bind_ite_four, Channel.forall_iff, channel]
  refine if_congr ?_ rfl rfl
  tauto

end Totals

/-! ## Blocks -/

/-- The cells of a surface, column by column. -/
def Cell.columns (width height : Nat) : List Cell :=
  (List.range width).flatMap fun x => (List.range height).map fun y => ⟨x, y⟩

theorem Cell.mem_columns {width height : Nat} {c : Cell} : c ∈ Cell.columns width height ↔ c.x < width ∧ c.y < height := by
  obtain ⟨x, y⟩ := c
  simp [columns]

/-- The number of samples of a block, cut off to a word. -/
def blockSamples (scale : ℕ) : ℕ := scale * scale % UInt32.size

theorem blockSamples_eq {scale : ℕ} (h : scale < 65536) : blockSamples scale = scale * scale := by
  have hword : scale * scale < 65536 * 65536 := Nat.mul_lt_mul'' h h
  exact Nat.mod_eq_of_lt hword

namespace Frame

/-- Averaging a block returns: there are samples, and no sum with half of their number is too large for a word. -/
def Averages (f : Frame) (scale x y : ℕ) : Prop :=
  blockSamples scale ≠ 0 ∧ ∀ c, f.blockSum scale c x y + blockSamples scale / 2 < UInt32.size

instance (f : Frame) (scale x y : ℕ) : Decidable (f.Averages scale x y) := inferInstanceAs (Decidable (_ ∧ _))

/-- A channel of a block, averaged to the nearest and cut off to a byte. -/
def channelMean (f : Frame) (scale x y : ℕ) (c : Channel) : UInt8 :=
  .ofNat ((f.blockSum scale c x y + blockSamples scale / 2) / blockSamples scale)

/-- The pixel that a block is averaged to. -/
def blockMean (f : Frame) (scale x y : ℕ) : Pixel :=
  ⟨f.channelMean scale x y .red, f.channelMean scale x y .green, f.channelMean scale x y .blue,
    f.channelMean scale x y .alpha⟩

def blockMean? (f : Frame) (scale x y : ℕ) : Option Pixel :=
  if f.Averages scale x y then some (f.blockMean scale x y) else none

theorem channel_blockMean (f : Frame) (scale x y : ℕ) (c : Channel) :
    (f.blockMean scale x y).channel c = f.channelMean scale x y c := by cases c <;> rfl

/-- As long as the number of samples is a word, the mean is the exact one, rounded to the nearest. -/
theorem toNat_channelMean (f : Frame) {scale : ℕ} (x y : ℕ) (c : Channel) (hpos : 0 < scale) (h : scale < 65536) :
    (f.channelMean scale x y c).toNat = (f.blockSum scale c x y + scale * scale / 2) / (scale * scale) := by
  have hle := f.blockSum_le scale c x y
  have hsquare : 0 < scale * scale := Nat.mul_pos hpos hpos
  have hbyte : (f.blockSum scale c x y + scale * scale / 2) / (scale * scale) < 256 := Nat.div_lt_of_lt_mul (by omega)
  rw [channelMean, blockSamples_eq h, UInt8.toNat_ofNat']
  exact Nat.mod_eq_of_lt hbyte

/-- Up to a scale of 4100, every block averages. -/
theorem averages_of_le (f : Frame) {scale : ℕ} (x y : ℕ) (hpos : 0 < scale) (h : scale ≤ 4100) :
    f.Averages scale x y := by
  have hsquare : 0 < scale * scale := Nat.mul_pos hpos hpos
  have hcount : scale * scale ≤ 4100 * 4100 := Nat.mul_le_mul h h
  have hsize : UInt32.size = 4294967296 := rfl
  rw [Averages, blockSamples_eq (by omega)]
  refine ⟨hsquare.ne', fun c => ?_⟩
  have hsum := f.blockSum_le scale c x y
  omega

end Frame

namespace Downsampler

variable {d : Downsampler} {source : Frame} {width height : ℕ} {target : FrameSize}

theorem samples?_eq (d : Downsampler) (h : d.scale * d.scale < Word.size) :
    d.samples? = some (.ofNat (d.scale * d.scale)) := if_pos h

theorem blockSums_average? (f : Frame) (scale x y : ℕ) :
    ((Totals.ofSums? fun c => f.blockSum scale c x y).bind fun t => t.average? (.ofNat (scale * scale)))
      = f.blockMean? scale x y := by
  have hcount : (UInt32.ofNat (scale * scale)).toNat = blockSamples scale := rfl
  have hnone : UInt32.ofNat (scale * scale) ≠ 0 ↔ blockSamples scale ≠ 0 := by
    rw [ne_eq, ← UInt32.toNat_inj, hcount]
    rfl
  cases hsums : Totals.ofSums? fun c => f.blockSum scale c x y with
  | none =>
    obtain ⟨c, hc⟩ := Totals.ofSums?_eq_none_iff.mp hsums
    have hword : ¬f.Averages scale x y := fun h => absurd (h.2 c) (by omega)
    rw [Frame.blockMean?, if_neg hword]
    rfl
  | some t =>
    have hchannels := Totals.ofSums?_eq_some_iff.mp hsums
    rw [Option.bind_some, Totals.average?_eq, Frame.blockMean?]
    simp only [hchannels, hcount, hnone]
    refine if_congr Iff.rfl ?_ rfl
    have hred := hchannels .red
    have hgreen := hchannels .green
    have hblue := hchannels .blue
    have halpha := hchannels .alpha
    simp only [Totals.channel] at hred hgreen hblue halpha
    simp only [Frame.blockMean, Frame.channelMean, hred, hgreen, hblue, halpha]

/-- The means of the blocks of a column. -/
def columnMeans? (d : Downsampler) (source : Frame) (rows x : ℕ) : Option (List Pixel) := do
  let _ ← d.samples?
  (List.range rows).mapM (source.blockMean? d.scale x)

/-- Where the block lies in the source, its pixel does not fail. -/
theorem pixel_eq (hsource : source.Sized width height) {x y : ℕ} (hx : (x + 1) * d.scale ≤ width)
    (hy : (y + 1) * d.scale ≤ height) :
    d.pixel source (.ofNat (d.scale * d.scale)) x y = ExceptT.lift (source.blockMean? d.scale x y) := by
  have hside : ∀ z, z * d.scale + d.scale = (z + 1) * d.scale := fun z => by rw [Nat.add_mul, Nat.one_mul]
  have hzero : ∀ c, (Totals.zero.channel c).toNat = 0 := fun c => by cases c <;> rfl
  have htotals := @Totals.addRows_eq source (.columnFailed x y) (x * d.scale) d.scale d.scale (y * d.scale) .zero
    fun j hj i hi => by
      rw [hside, Finset.mem_Ico] at hj hi
      exact hsource.get? (by omega) (by omega)
  have hsums : ∀ c, (Totals.zero.channel c).toNat + ∑ j ∈ Finset.Ico (y * d.scale) (y * d.scale + d.scale),
      source.rowSum c (x * d.scale) (x * d.scale + d.scale) j = source.blockSum d.scale c x y := fun c => by
    rw [hzero, Nat.zero_add, hside, hside, Frame.blockSum]
  simp only [hsums] at htotals
  rw [pixel, htotals]
  refine (lift_bind _ _).symm.trans (congrArg ExceptT.lift ?_)
  exact blockSums_average? source d.scale x y

theorem column_eq (hsource : source.Sized width height) {x rows : ℕ} (hrows : rows * d.scale ≤ height)
    (hx : (x + 1) * d.scale ≤ width) : d.column source rows x = ExceptT.lift (d.columnMeans? source rows x) := by
  have hpixels : ∀ y ∈ List.range rows, d.pixel source (.ofNat (d.scale * d.scale)) x y
      = ExceptT.lift (source.blockMean? d.scale x y) := fun y hy =>
    pixel_eq hsource hx ((Nat.mul_le_mul_right _ (List.mem_range.mp hy)).trans hrows)
  rw [column, columnMeans?, samples?]
  split
  · exact mapM_lift hpixels
  · rfl

/-- The source has all the cells that the target needs. -/
def Fits (d : Downsampler) (source : Frame) (target : FrameSize) : Prop :=
  target.width * d.scale ≤ source.width ∧ target.height * d.scale ≤ source.height

/-- The size of the source passes the check of a reduction. -/
def Accepts (d : Downsampler) (source : Frame) (target : FrameSize) : Prop :=
  ∃ required, target.scaled? d.scale = some required ∧ required.width ≤ source.width ∧ required.height ≤ source.height

theorem accepts_of_fits (hwidth : target.width * d.scale < Word.size) (hheight : target.height * d.scale < Word.size)
    (hfits : d.Fits source target) : d.Accepts source target :=
  ⟨_, FrameSize.scaled?_eq hwidth hheight, hfits.1, hfits.2⟩

/-- No operation of a reduction overflows or divides by zero. -/
structure Calculates (d : Downsampler) (source : Frame) (target : FrameSize) : Prop where
  /-- The number of samples is worked out for each column, in 64 bits. -/
  samples : 0 < target.width → d.scale * d.scale < Word.size
  averages : ∀ x < target.width, ∀ y < target.height, source.Averages d.scale x y

theorem columnMeans?_eq (h : d.Calculates source target) {x : ℕ} (hx : x < target.width) :
    d.columnMeans? source target.height x = some ((List.range target.height).map (source.blockMean d.scale x)) := by
  have hrows : (List.range target.height).mapM (source.blockMean? d.scale x)
      = some ((List.range target.height).map (source.blockMean d.scale x)) :=
    mapM_of_pure fun y hy => if_pos (h.averages x hx y (List.mem_range.mp hy))
  rw [columnMeans?, samples?_eq d (h.samples (by omega)), hrows]
  rfl

section

variable (hsource : source.Sized source.width source.height) (haccepts : d.Accepts source target)
  (hfits : d.Fits source target)
include hsource hfits

/-- The tasks of a reduction do not fail. -/
theorem run_column (pool : WorkerPool) : (pool.run target.width fun x => (d.column source target.height x).run)
    = (List.range target.width).map fun x => (d.columnMeans? source target.height x).map .ok := by
  refine List.map_congr_left fun x hx => ?_
  have hright : (x + 1) * d.scale ≤ source.width := (Nat.mul_le_mul_right _ (List.mem_range.mp hx)).trans hfits.1
  rw [column_eq hsource hfits.2 hright]
  cases d.columnMeans? source target.height x <;> rfl

include haccepts

/-- A reduction whose source is large enough comes to what its columns come to. -/
theorem reduce_eq (pool : WorkerPool) :
    d.reduce pool source target = ((List.range target.width).mapM (d.columnMeans? source target.height)).map fun columns =>
      .ok (columns.zipIdx.foldl (fun frame (column, x) =>
        column.zipIdx.foldl (fun frame (p, y) => frame.set x y p) frame) (.blank target.width target.height)) := by
  obtain ⟨required, hscaled, hw, hh⟩ := haccepts
  have hlarge : ¬(source.width < required.width ∨ source.height < required.height) := by omega
  have htasks : ((List.range target.width).map fun x => (d.columnMeans? source target.height x).map Except.ok).mapM id
      = ((List.range target.width).mapM (d.columnMeans? source target.height)).map
          (List.map (Except.ok : List Pixel → Except SupersampleError (List Pixel))) := by
    rw [List.mapM_map]
    exact mapM_map fun _ _ => rfl
  rw [reduce, hscaled, run_column hsource hfits, htasks]
  simp only [bind, Option.bind_some, Bool.or_eq_true, decide_eq_true_eq, if_neg hlarge]
  cases (List.range target.width).mapM (d.columnMeans? source target.height) with
  | none => rfl
  | some columns =>
    simp only [Option.map_some, Option.bind_some, mapM_id_ok]
    rfl

/-- A reduction of which all blocks average writes each mean at its own pixel. -/
theorem reduce_of_calculates (pool : WorkerPool) (h : d.Calculates source target) :
    d.reduce pool source target = some (.ok ((Cell.columns target.width target.height).foldl
      (fun frame c => frame.set c.x c.y (source.blockMean d.scale c.x c.y)) (.blank target.width target.height))) := by
  have hall : (List.range target.width).mapM (d.columnMeans? source target.height)
      = some ((List.range target.width).map fun x => (List.range target.height).map (source.blockMean d.scale x)) :=
    mapM_of_pure fun x hx => columnMeans?_eq h (List.mem_range.mp hx)
  rw [reduce_eq hsource haccepts hfits, hall]
  simp only [Option.map_some, zipIdx_map_range, List.foldl_map, Cell.columns, List.foldl_flatMap]

/-- A reduction of which a block does not average does not return. -/
theorem reduce_of_not_calculates (pool : WorkerPool) (h : ¬d.Calculates source target) :
    d.reduce pool source target = none := by
  have hcolumn : ∃ x < target.width, d.columnMeans? source target.height x = none := by
    by_contra hreturns
    refine h ⟨fun hpos => ?_, fun x hx y hy => ?_⟩
    · by_contra hsamples
      refine hreturns ⟨0, hpos, ?_⟩
      rw [columnMeans?, samples?, if_neg hsamples]
      rfl
    · by_contra haverages
      refine hreturns ⟨x, hx, ?_⟩
      have hrow : (List.range target.height).mapM (source.blockMean? d.scale x) = none :=
        mapM_eq_none (List.mem_range.mpr hy) (if_neg haverages)
      rw [columnMeans?, hrow]
      cases d.samples? <;> rfl
  obtain ⟨x, hx, hnone⟩ := hcolumn
  rw [reduce_eq hsource haccepts hfits, mapM_eq_none (List.mem_range.mpr hx) hnone]
  rfl

theorem reduce_eq_none_iff (pool : WorkerPool) : d.reduce pool source target = none ↔ ¬d.Calculates source target := by
  constructor
  · intro hnone h
    rw [reduce_of_calculates hsource haccepts hfits pool h] at hnone
    cases hnone
  · exact reduce_of_not_calculates hsource haccepts hfits pool

theorem reduce_blockMean (pool : WorkerPool) (h : d.Calculates source target) :
    ∃ frame, d.reduce pool source target = some (.ok frame) ∧ frame.Sized target.width target.height ∧
      ∀ x < target.width, ∀ y < target.height, frame.get? x y = some (source.blockMean d.scale x y) := by
  refine ⟨_, reduce_of_calculates hsource haccepts hfits pool h, (Frame.Sized.blank _ _).foldl_set _ _,
    fun x hx y hy => ?_⟩
  have hwritten := Frame.get?_foldl_set (fun c => source.blockMean d.scale c.x c.y) (Cell.columns target.width target.height)
    (.blank target.width target.height) ⟨x, y⟩
  rw [if_pos (Cell.mem_columns.mpr ⟨hx, hy⟩), (Frame.Sized.blank _ _).get? hx hy, Option.map_some] at hwritten
  exact hwritten

end

/-- Up to a scale of 4100, every reduction calculates. -/
theorem calculates_of_le (h : d.scale ≤ 4100) : d.Calculates source target where
  samples _ := by
    have hsamples : d.scale * d.scale ≤ 4100 * 4100 := Nat.mul_le_mul h h
    exact Nat.lt_of_le_of_lt hsamples (by decide)
  averages x _ y _ := source.averages_of_le x y d.scale_pos h

/-- Where the blocks of the target lie in the source, a reduction returns exactly if none of its operations overflows or
divides by zero. Each channel of each pixel is then the mean of its block, as the words have it; it is the exact one,
rounded to the nearest, as long as the number of samples is a word. Up to a scale of 4100 every reduction
returns. -/
theorem reduce_means {d : Downsampler} {source : Frame} {target : FrameSize} (pool : WorkerPool)
    (hsource : source.Sized source.width source.height) (hwidth : target.width * d.scale < Word.size)
    (hheight : target.height * d.scale < Word.size) (hfits : d.Fits source target) :
    (d.reduce pool source target = none ↔ ¬d.Calculates source target) ∧
    (d.Calculates source target → ∃ frame, d.reduce pool source target = some (.ok frame) ∧
      ∀ x < target.width, ∀ y < target.height, ∃ p, frame.get? x y = some p ∧ ∀ c,
        p.channel c = source.channelMean d.scale x y c ∧
        (d.scale < 65536 → (p.channel c).toNat
          = (source.blockSum d.scale c x y + d.scale * d.scale / 2) / (d.scale * d.scale))) ∧
    (d.scale ≤ 4100 → d.Calculates source target) := by
  have haccepts := accepts_of_fits hwidth hheight hfits
  refine ⟨reduce_eq_none_iff hsource haccepts hfits pool, fun h => ?_, calculates_of_le⟩
  obtain ⟨frame, hframe, -, hpixels⟩ := reduce_blockMean hsource haccepts hfits pool h
  refine ⟨frame, hframe, fun x hx y hy => ⟨_, hpixels x hx y hy, fun c => ?_⟩⟩
  rw [Frame.channel_blockMean]
  exact ⟨rfl, source.toNat_channelMean x y c d.scale_pos⟩

theorem reduce_means_half :
    let source : Frame := ⟨4, 2, #[⟨0, 0, 0, 0⟩, ⟨9, 9, 9, 9⟩, ⟨255, 0, 0, 255⟩, ⟨255, 0, 0, 255⟩,
      ⟨0, 0, 0, 0⟩, ⟨9, 9, 9, 9⟩, ⟨0, 0, 0, 0⟩, ⟨1, 0, 0, 255⟩]⟩
    let d : Downsampler := ⟨2, by decide⟩
    source.Sized 4 2 ∧ d.Fits source ⟨2, 1⟩ ∧ ∃ frame, d.reduce ⟨1⟩ source ⟨2, 1⟩ = some (.ok frame) ∧
      ∃ p, frame.get? 1 0 = some p ∧ (p.channel .red).toNat = 128 := by
  intro source d
  have hsource : source.Sized 4 2 := ⟨rfl, rfl, rfl⟩
  have hfits : d.Fits source ⟨2, 1⟩ := ⟨by decide, by decide⟩
  have hsum : source.blockSum 2 .red 1 0 = 511 := by decide
  obtain ⟨-, hmeans, hcalculates⟩ := @reduce_means d source ⟨2, 1⟩ ⟨1⟩ hsource (by decide) (by decide) hfits
  obtain ⟨frame, hframe, hpixels⟩ := hmeans (hcalculates (by decide))
  obtain ⟨p, hp, hchannels⟩ := hpixels 1 (by decide) 0 (by decide)
  refine ⟨hsource, hfits, frame, hframe, p, hp, ?_⟩
  rw [(hchannels .red).2 (by decide), hsum]
  show (511 + 2 * 2 / 2) / (2 * 2) = 128
  decide

end Downsampler

/-! ## White frames -/

namespace Frame

/-- A frame of one pixel all over. -/
def solid (width height : Nat) (p : Pixel) : Frame := ⟨width, height, Array.replicate (width * height) p⟩

theorem Sized.solid (width height : Nat) (p : Pixel) : (Frame.solid width height p).Sized width height :=
  ⟨by simp [Frame.solid], rfl, rfl⟩

theorem pixel_solid {width height x y : Nat} (p : Pixel) (hx : x < width) (hy : y < height) :
    (solid width height p).pixel x y = p := by
  have hindex : y * width + x < width * height := @index_lt_area width height ⟨x, y⟩ hx hy
  simp [pixel, get?, solid, hx, hy, hindex]

theorem blockSum_solid (scale : Nat) (p : Pixel) (c : Channel) :
    (solid scale scale p).blockSum scale c 0 0 = (p.channel c).toNat * (scale * scale) := by
  have hcard : (Finset.Ico (0 * scale) ((0 + 1) * scale)).card = scale := by simp
  have hrow : ∀ j ∈ Finset.Ico (0 * scale) ((0 + 1) * scale),
      (solid scale scale p).rowSum c (0 * scale) ((0 + 1) * scale) j = scale * (p.channel c).toNat := by
    intro j hj
    have hpixels : ∀ i ∈ Finset.Ico (0 * scale) ((0 + 1) * scale),
        (((solid scale scale p).pixel i j).channel c).toNat = (p.channel c).toNat := by
      intro i hi
      rw [Finset.mem_Ico] at hi hj
      rw [pixel_solid p (by omega) (by omega)]
    rw [rowSum, Finset.sum_const_nat hpixels, hcard]
  rw [blockSum, Finset.sum_const_nat hrow, hcard, ← Nat.mul_assoc, Nat.mul_comm]

end Frame

def Pixel.white : Pixel := ⟨255, 255, 255, 255⟩

theorem Pixel.channel_white (c : Channel) : (Pixel.white.channel c).toNat = 255 := by cases c <;> rfl

namespace Downsampler

variable {d : Downsampler}

/-- From a scale of 4101 on, a white block does not average. -/
theorem not_averages_white {scale : ℕ} (hlow : 4101 ≤ scale) : ¬(Frame.solid scale scale .white).Averages scale 0 0 := by
  intro h
  have hword := h.2 .red
  have hsamples : 4101 * 4101 ≤ scale * scale := Nat.mul_le_mul hlow hlow
  have hsize : UInt32.size = 4294967296 := rfl
  rw [Frame.blockSum_solid, Pixel.channel_white] at hword
  rcases Nat.lt_or_ge scale 65536 with hscale | hscale
  · rw [blockSamples_eq hscale] at hword
    omega
  · have hlarge : 65536 * 65536 ≤ scale * scale := Nat.mul_le_mul hscale hscale
    omega

/-- From a scale of 4101 on, a white frame has no reduction to a pixel. -/
theorem reduce_white (pool : WorkerPool) (hlow : 4101 ≤ d.scale) (hword : d.scale < Word.size) :
    d.reduce pool (.solid d.scale d.scale .white) ⟨1, 1⟩ = none := by
  have hone : 1 * d.scale < Word.size := by rwa [Nat.one_mul]
  have hfits : d.Fits (.solid d.scale d.scale .white) ⟨1, 1⟩ :=
    ⟨Nat.le_of_eq (Nat.one_mul _), Nat.le_of_eq (Nat.one_mul _)⟩
  refine reduce_of_not_calculates (Frame.Sized.solid d.scale d.scale .white) (accepts_of_fits hone hone hfits) hfits pool
    fun h => ?_
  exact not_averages_white hlow (h.averages 0 Nat.one_pos 0 Nat.one_pos)

/-- The smallest scale at which a white block has no mean. The rounded mean is 255, and the reduction does not
return. -/
theorem reduce_white_4101 :
    let source : Frame := .solid 4101 4101 .white
    let d : Downsampler := ⟨4101, by decide⟩
    source.Sized 4101 4101 ∧ d.Fits source ⟨1, 1⟩ ∧
      (∀ c, (source.blockSum 4101 c 0 0 + 4101 * 4101 / 2) / (4101 * 4101) = 255) ∧
      d.reduce ⟨1⟩ source ⟨1, 1⟩ = none := by
  intro source d
  refine ⟨Frame.Sized.solid 4101 4101 .white, ⟨Nat.le_refl _, Nat.le_refl _⟩, fun c => ?_, ?_⟩
  · rw [Frame.blockSum_solid, Pixel.channel_white]
  · exact @reduce_white d ⟨1⟩ (Nat.le_refl _) (by decide)

end Downsampler

end VectorRaster
