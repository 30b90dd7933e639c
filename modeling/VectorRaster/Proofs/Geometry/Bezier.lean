/-
  VectorRaster.Proofs.Geometry.Bezier — one coordinate of a Bézier curve, in exact arithmetic.

  `lerp` takes the numbers between neighbours; `blend` does it once for each of some positions,
  and the number that is left after as many positions as the curve has degrees is the blossom
  there. The curve itself has all positions equal (`bezier`).

  Proved: the curve stays between its greatest and its least control number, on a stretch also
  between those of the stretch's own (`within_of_stretch`); and it changes no faster than its
  degree times the greatest step between neighbours (`abs_bezier_sub_le`).
-/

import Mathlib.Algebra.Order.Field.Rat
import Mathlib.Tactic.Linarith
import Mathlib.Tactic.Positivity
import Mathlib.Tactic.Ring

namespace VectorRaster.Bezier

/-- The numbers between neighbours, at the position `t`. -/
def lerp (t : ℚ) (xs : List ℚ) : List ℚ := xs.zipWith (fun p q => p * (1 - t) + q * t) xs.tail

/-- One step of `lerp` for each position. -/
def blend (ts : List ℚ) (xs : List ℚ) : List ℚ := ts.foldl (fun xs t => lerp t xs) xs

/-- A coordinate of the curve at the position `t`. -/
def bezier (xs : List ℚ) (t : ℚ) : ℚ := (blend (List.replicate (xs.length - 1) t) xs).headD 0

/-- Whether all of some numbers are between two. -/
def Within (lo hi : ℚ) (xs : List ℚ) : Prop := ∀ x ∈ xs, lo ≤ x ∧ x ≤ hi

/-- Whether neighbours differ by no more than `d`. -/
def Steps (d : ℚ) (xs : List ℚ) : Prop := ∀ i (h : i + 1 < xs.length), |xs[i + 1] - xs[i]| ≤ d

/-- Whether two lists are as long, and no more than `δ` apart. -/
structure Apart (δ : ℚ) (xs ys : List ℚ) : Prop where
  length : xs.length = ys.length
  le : ∀ i (h : i < xs.length) (h' : i < ys.length), |xs[i] - ys[i]| ≤ δ

variable {t s lo hi d δ : ℚ} {xs ys : List ℚ}

@[simp] theorem length_lerp : (lerp t xs).length = xs.length - 1 := by
  simp [lerp]

theorem getElem_lerp {i : Nat} (h : i < (lerp t xs).length) :
    (lerp t xs)[i] = getElem xs i (by rw [length_lerp] at h; omega) * (1 - t)
      + getElem xs (i + 1) (by rw [length_lerp] at h; omega) * t := by
  simp [lerp]

theorem lerp_comm (s t : ℚ) (xs : List ℚ) : lerp s (lerp t xs) = lerp t (lerp s xs) := by
  refine List.ext_getElem (by simp) fun i h _ => ?_
  simp only [getElem_lerp]
  ring

@[simp] theorem blend_nil : blend [] xs = xs := rfl

@[simp] theorem blend_cons (ts : List ℚ) : blend (t :: ts) xs = blend ts (lerp t xs) := rfl

theorem blend_append (ts us : List ℚ) : blend (ts ++ us) xs = blend us (blend ts xs) :=
  List.foldl_append

/-- The order of the positions does not matter. -/
theorem blend_lerp (ts : List ℚ) : blend ts (lerp t xs) = lerp t (blend ts xs) := by
  induction ts generalizing xs with
  | nil => rfl
  | cons s ts ih => rw [blend_cons, lerp_comm, ih, blend_cons]

@[simp] theorem length_blend (ts : List ℚ) : (blend ts xs).length = xs.length - ts.length := by
  induction ts generalizing xs with
  | nil => rfl
  | cons s ts ih => rw [blend_cons, ih, length_lerp, List.length_cons, Nat.sub_sub, Nat.add_comm 1]

/-! ## Bounds -/

/-- A number between two that are within bounds is so too. -/
theorem lerp_bounds {p q : ℚ} (h0 : 0 ≤ t) (h1 : t ≤ 1) (hp : lo ≤ p ∧ p ≤ hi) (hq : lo ≤ q ∧ q ≤ hi) :
    lo ≤ p * (1 - t) + q * t ∧ p * (1 - t) + q * t ≤ hi := by
  have h1' : 0 ≤ 1 - t := by linarith
  have a := mul_le_mul_of_nonneg_right hp.1 h1'
  have b := mul_le_mul_of_nonneg_right hp.2 h1'
  have c := mul_le_mul_of_nonneg_right hq.1 h0
  have d := mul_le_mul_of_nonneg_right hq.2 h0
  constructor <;> linarith

theorem Within.lerp (h : Within lo hi xs) (h0 : 0 ≤ t) (h1 : t ≤ 1) : Within lo hi (lerp t xs) := by
  intro y hy
  obtain ⟨i, hi, rfl⟩ := List.mem_iff_getElem.mp hy
  rw [getElem_lerp]
  exact lerp_bounds h0 h1 (h _ (List.getElem_mem _)) (h _ (List.getElem_mem _))

theorem Within.blend {ts : List ℚ} (h : Within lo hi xs) (hts : ∀ t ∈ ts, 0 ≤ t ∧ t ≤ 1) :
    Within lo hi (blend ts xs) := by
  induction ts generalizing xs with
  | nil => exact h
  | cons t ts ih =>
    obtain ⟨h0, h1⟩ := hts t (List.mem_cons_self ..)
    exact ih (h.lerp h0 h1) fun s hs => hts s (List.mem_cons_of_mem _ hs)

theorem bezier_mem (hne : xs ≠ []) (t : ℚ) : bezier xs t ∈ blend (List.replicate (xs.length - 1) t) xs := by
  have hlen : (blend (List.replicate (xs.length - 1) t) xs).length = 1 := by
    have := List.length_pos_iff.mpr hne
    rw [length_blend, List.length_replicate]
    omega
  obtain ⟨y, hy⟩ := List.length_eq_one_iff.mp hlen
  rw [bezier, hy]
  exact List.mem_cons_self ..

/-- A curve is between its greatest and its least control number. -/
theorem bezier_bounds (hne : xs ≠ []) (h : Within lo hi xs) (h0 : 0 ≤ t) (h1 : t ≤ 1) :
    lo ≤ bezier xs t ∧ bezier xs t ≤ hi := by
  refine h.blend (fun s hs => ?_) _ (bezier_mem hne t)
  rw [List.eq_of_mem_replicate hs]
  exact ⟨h0, h1⟩

/-! ## Stretches -/

/-- The positions of the control number `i` of a stretch from `t₀` to `t₁`, of `n + 1`. -/
def stretchAt (t₀ t₁ : ℚ) (n i : Nat) : List ℚ := List.replicate (n - i) t₀ ++ List.replicate i t₁

/-- What is between the control numbers of a stretch holds a position of the stretch too. -/
theorem within_of_stretch {t₀ t₁ w : ℚ} (h0 : 0 ≤ w) (h1 : w ≤ 1) (ht : t = t₀ * (1 - w) + t₁ * w) (n : Nat)
    (h : ∀ i ≤ n, Within lo hi (blend (stretchAt t₀ t₁ n i) xs)) : Within lo hi (blend (List.replicate n t) xs) := by
  induction n generalizing xs with
  | zero => exact h 0 (Nat.le_refl 0)
  | succ n ih =>
    rw [List.replicate_succ, blend_cons]
    refine ih fun i hi => ?_
    -- one position more, at the start or at the end of the stretch
    have hstart : blend (stretchAt t₀ t₁ (n + 1) i) xs = lerp t₀ (blend (stretchAt t₀ t₁ n i) xs) := by
      have hrep : List.replicate (n + 1 - i) t₀ = t₀ :: List.replicate (n - i) t₀ := by
        rw [Nat.succ_sub hi, List.replicate_succ]
      rw [stretchAt, hrep, List.cons_append, blend_cons, blend_lerp, stretchAt]
    have hend : blend (stretchAt t₀ t₁ (n + 1) (i + 1)) xs = lerp t₁ (blend (stretchAt t₀ t₁ n i) xs) := by
      rw [stretchAt, Nat.add_sub_add_right, List.replicate_succ', ← List.append_assoc, blend_append, stretchAt]
      rfl
    have hs := h i (by omega)
    have he := h (i + 1) (by omega)
    rw [hstart] at hs
    rw [hend] at he
    rw [blend_lerp]
    generalize blend (stretchAt t₀ t₁ n i) xs = ys at hs he ⊢
    intro y hy
    obtain ⟨k, hk, rfl⟩ := List.mem_iff_getElem.mp hy
    have hk' : k < ys.length - 1 := by rwa [length_lerp] at hk
    have hsk := hs _ (List.getElem_mem (by rwa [length_lerp] : k < (lerp t₀ ys).length))
    have hek := he _ (List.getElem_mem (by rwa [length_lerp] : k < (lerp t₁ ys).length))
    have hmix := lerp_bounds h0 h1 hsk hek
    rw [getElem_lerp] at hmix ⊢
    rw [getElem_lerp] at hmix
    have heq : ys[k] * (1 - t) + ys[k + 1] * t
        = (ys[k] * (1 - t₀) + ys[k + 1] * t₀) * (1 - w) + (ys[k] * (1 - t₁) + ys[k + 1] * t₁) * w := by
      rw [ht]
      ring
    rwa [heq]

/-! ## Speed -/

theorem Steps.lerp (h : Steps d xs) (h0 : 0 ≤ t) (h1 : t ≤ 1) : Steps d (lerp t xs) := by
  intro i hi
  rw [length_lerp] at hi
  rw [getElem_lerp, getElem_lerp]
  have hp := abs_le.mp (h i (by omega))
  have hq := abs_le.mp (h (i + 1) (by omega))
  have heq : xs[i + 1] * (1 - t) + xs[i + 1 + 1] * t - (xs[i] * (1 - t) + xs[i + 1] * t)
      = (xs[i + 1] - xs[i]) * (1 - t) + (xs[i + 1 + 1] - xs[i + 1]) * t := by ring
  rw [heq]
  exact abs_le.mpr (lerp_bounds h0 h1 hp hq)

theorem Apart.refl (h : 0 ≤ δ) : Apart δ xs xs := ⟨rfl, fun i _ _ => by rwa [sub_self, abs_zero]⟩

theorem Apart.trans {zs : List ℚ} {ε : ℚ} (h : Apart δ xs ys) (h' : Apart ε ys zs) : Apart (δ + ε) xs zs where
  length := h.length.trans h'.length
  le i hi hi' := by
    have hy : i < ys.length := h.length ▸ hi
    exact (abs_sub_le _ ys[i] _).trans (add_le_add (h.le i hi hy) (h'.le i hy hi'))

theorem Apart.lerp (h : Apart δ xs ys) (h0 : 0 ≤ t) (h1 : t ≤ 1) : Apart δ (lerp t xs) (lerp t ys) where
  length := by rw [length_lerp, length_lerp, h.length]
  le i hi hi' := by
    rw [length_lerp] at hi hi'
    rw [getElem_lerp, getElem_lerp]
    have heq : xs[i] * (1 - t) + xs[i + 1] * t - (ys[i] * (1 - t) + ys[i + 1] * t)
        = (xs[i] - ys[i]) * (1 - t) + (xs[i + 1] - ys[i + 1]) * t := by ring
    rw [heq]
    exact abs_le.mpr (lerp_bounds h0 h1 (abs_le.mp (h.le i (by omega) (by omega)))
      (abs_le.mp (h.le (i + 1) (by omega) (by omega))))

theorem Apart.blend {ts : List ℚ} (h : Apart δ xs ys) (hts : ∀ t ∈ ts, 0 ≤ t ∧ t ≤ 1) :
    Apart δ (blend ts xs) (blend ts ys) := by
  induction ts generalizing xs ys with
  | nil => exact h
  | cons t ts ih =>
    obtain ⟨h0, h1⟩ := hts t (List.mem_cons_self ..)
    exact ih (h.lerp h0 h1) fun s hs => hts s (List.mem_cons_of_mem _ hs)

/-- Numbers between neighbours at two positions. -/
theorem Steps.apart (h : Steps d xs) (s t : ℚ) : Apart (|s - t| * d) (Bezier.lerp s xs) (Bezier.lerp t xs) where
  length := by rw [length_lerp, length_lerp]
  le i hi hi' := by
    rw [length_lerp] at hi hi'
    rw [getElem_lerp, getElem_lerp]
    have heq : xs[i] * (1 - s) + xs[i + 1] * s - (xs[i] * (1 - t) + xs[i + 1] * t)
        = (s - t) * (xs[i + 1] - xs[i]) := by ring
    rw [heq, abs_mul]
    exact mul_le_mul_of_nonneg_left (h i (by omega)) (abs_nonneg _)

theorem Steps.apart_blend (h : Steps d xs) (hs : 0 ≤ s ∧ s ≤ 1) (ht : 0 ≤ t ∧ t ≤ 1) (n : Nat) :
    Apart (n * (|s - t| * d)) (Bezier.blend (List.replicate n s) xs) (Bezier.blend (List.replicate n t) xs) := by
  induction n generalizing xs with
  | zero =>
    rw [Nat.cast_zero, zero_mul]
    exact .refl le_rfl
  | succ n ih =>
    have hlast : Apart (|s - t| * d) (Bezier.blend (List.replicate n t) (Bezier.lerp s xs))
        (Bezier.blend (List.replicate n t) (Bezier.lerp t xs)) :=
      (h.apart s t).blend fun r hr => by rwa [List.eq_of_mem_replicate hr]
    have := (ih (h.lerp hs.1 hs.2)).trans hlast
    rw [Nat.cast_succ, add_one_mul]
    exact this

/-- A curve changes no faster than its degree times the greatest step between neighbours. -/
theorem abs_bezier_sub_le (hne : xs ≠ []) (h : Steps d xs) (hs : 0 ≤ s ∧ s ≤ 1) (ht : 0 ≤ t ∧ t ≤ 1) :
    |bezier xs s - bezier xs t| ≤ (xs.length - 1 : ℕ) * (|s - t| * d) := by
  have happ := h.apart_blend hs ht (xs.length - 1)
  have hlen : ∀ r : ℚ, 0 < (blend (List.replicate (xs.length - 1) r) xs).length := fun r => by
    have := List.length_pos_iff.mpr hne
    rw [length_blend, List.length_replicate]
    omega
  have hhead : ∀ r : ℚ, bezier xs r = getElem (blend (List.replicate (xs.length - 1) r) xs) 0 (hlen r) := fun r => by
    rw [bezier, List.headD_eq_head?_getD, List.head?_eq_getElem?, List.getElem?_eq_getElem (hlen r), Option.getD_some]
  rw [hhead s, hhead t]
  exact happ.le 0 (hlen s) (hlen t)

/-! ## Curves of degree one to three -/

theorem bezier_line (a b t : ℚ) : bezier [a, b] t = a * (1 - t) + b * t := rfl

theorem bezier_quadratic (a b c t : ℚ) :
    bezier [a, b, c] t = a * (1 - t) ^ 2 + b * (2 * (1 - t) * t) + c * t ^ 2 := by
  show (a * (1 - t) + b * t) * (1 - t) + (b * (1 - t) + c * t) * t = _
  ring

theorem bezier_cubic (a b c d t : ℚ) :
    bezier [a, b, c, d] t
      = a * (1 - t) ^ 3 + b * (3 * (1 - t) ^ 2 * t) + c * (3 * (1 - t) * t ^ 2) + d * t ^ 3 := by
  show ((a * (1 - t) + b * t) * (1 - t) + (b * (1 - t) + c * t) * t) * (1 - t)
    + ((b * (1 - t) + c * t) * (1 - t) + (c * (1 - t) + d * t) * t) * t = _
  ring

end VectorRaster.Bezier
