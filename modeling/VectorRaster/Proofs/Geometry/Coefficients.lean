/-
  VectorRaster.Proofs.Geometry.Coefficients — coefficients past the end of a table.

  C(n, k) is calculated in as many steps as the smaller of k and n - k. After step j the value
  is C(n', j), for a degree n' that grows with j, and step j multiplies before it divides by j:
  its product is j times its result (`product_step`). So the products of a calculation are
  words exactly if the last one is, which is the coefficient times the number of steps
  (`Calculable`). No division leaves a remainder: a calculation that looks for remainders as
  well (`exactProduct?`) is the same one.

  Proved: `coefficient_agrees_iff`, that what a table answers is C(n, k), and that tables answer the
  same exactly if they hold it or it can be calculated so. `coefficient_overflows` is a
  coefficient that fits into a word and cannot: asking for it does not return.
-/

import VectorRaster.Proofs.Geometry.Pascal

namespace VectorRaster.BinomialTable

/-- How many steps a coefficient takes. -/
def steps (n : ℕ) (k : ℤ) : ℕ := min k.toNat (n - k.toNat)

/-- The products of all steps are words. -/
def Calculable (n : ℕ) (k : ℤ) : Prop := choose n k * steps n k < 2 ^ 64

instance (n : ℕ) (k : ℤ) : Decidable (Calculable n k) := inferInstanceAs (Decidable (_ < _))

/-- The calculation, unless a product on the way is no word or a division leaves a remainder. -/
def exactProduct? (n k : ℕ) : Option UInt64 :=
  (List.range k).foldlM
    (fun c i =>
      if c.toNat * (n - k + (i + 1)) < UInt64.size ∧ i + 1 ∣ c.toNat * (n - k + (i + 1)) then
        some (c * UInt64.ofNat (n - k + (i + 1)) / UInt64.ofNat (i + 1))
      else none)
    1

variable {m m₁ m₂ n base j : ℕ} {k : ℤ} {c : UInt64}

/-! ## Steps -/

theorem product?_succ (base j : ℕ) :
    product? (base + (j + 1)) (j + 1) = (product? (base + j) j).bind fun c =>
      if c.toNat * (base + (j + 1)) < UInt64.size then some (c * .ofNat (base + (j + 1)) / .ofNat (j + 1)) else none := by
  rw [product?, product?, Nat.add_sub_cancel, Nat.add_sub_cancel, List.range_succ, List.foldlM_append]
  simp only [List.foldlM_cons, List.foldlM_nil, bind_pure]
  rfl

theorem exactProduct?_succ (base j : ℕ) :
    exactProduct? (base + (j + 1)) (j + 1) = (exactProduct? (base + j) j).bind fun c =>
      if c.toNat * (base + (j + 1)) < UInt64.size ∧ j + 1 ∣ c.toNat * (base + (j + 1)) then
        some (c * .ofNat (base + (j + 1)) / .ofNat (j + 1))
      else none := by
  rw [exactProduct?, exactProduct?, Nat.add_sub_cancel, Nat.add_sub_cancel, List.range_succ, List.foldlM_append]
  simp only [List.foldlM_cons, List.foldlM_nil, bind_pure]
  rfl

/-- The product of a step is its result times its number. -/
theorem product_step (base j : ℕ) :
    (base + j).choose j * (base + (j + 1)) = (base + (j + 1)).choose (j + 1) * (j + 1) := by
  rw [Nat.mul_comm, ← Nat.add_assoc]
  exact Nat.add_one_mul_choose_eq (base + j) j

/-- A step whose product is a word is exact. -/
theorem toNat_step (hc : c.toNat = (base + j).choose j) (h : (base + j).choose j * (base + (j + 1)) < 2 ^ 64) :
    (c * .ofNat (base + (j + 1)) / .ofNat (j + 1)).toNat = (base + (j + 1)).choose (j + 1) := by
  have hpos : 0 < (base + j).choose j := Nat.choose_pos (Nat.le_add_left j base)
  have hfactor : base + (j + 1) < 2 ^ 64 := (Nat.le_mul_of_pos_left _ hpos).trans_lt h
  rw [UInt64.toNat_div, UInt64.toNat_mul, hc, UInt64.toNat_ofNat_of_lt' hfactor, Nat.mod_eq_of_lt h,
    UInt64.toNat_ofNat_of_lt' ((Nat.le_add_left _ base).trans_lt hfactor), product_step,
    Nat.mul_div_cancel _ (Nat.succ_pos j)]

/-- The calculation returns exactly if its last product is a word, and gives the binomial coefficient. -/
theorem product?_eq_some_iff (base j : ℕ) :
    product? (base + j) j = some c ↔ (base + j).choose j * j < 2 ^ 64 ∧ c.toNat = (base + j).choose j := by
  induction j generalizing c with
  | zero =>
    have hone : product? (base + 0) 0 = some 1 := rfl
    rw [hone, Option.some_inj, Nat.choose_zero_right, ← UInt64.toNat_inj, eq_comm]
    exact (and_iff_right (Nat.two_pow_pos 64)).symm
  | succ j ih =>
    rw [product?_succ, Option.bind_eq_some_iff, ← product_step]
    constructor
    · rintro ⟨d, hd, hstep⟩
      obtain ⟨-, hd⟩ := ih.mp hd
      split at hstep
      · rename_i hword
        rw [hd] at hword
        obtain rfl := Option.some.inj hstep
        exact ⟨hword, toNat_step hd hword⟩
      · cases hstep
    · rintro ⟨hword, hc⟩
      have hchoose : (base + j).choose j < 2 ^ 64 := (Nat.le_mul_of_pos_right _ (by omega)).trans_lt hword
      have hd : (UInt64.ofNat ((base + j).choose j)).toNat = (base + j).choose j := UInt64.toNat_ofNat_of_lt' hchoose
      have hlast : (base + j).choose j * j < 2 ^ 64 := (Nat.mul_le_mul_left _ (by omega)).trans_lt hword
      refine ⟨_, ih.mpr ⟨hlast, hd⟩, ?_⟩
      have hsize : (base + j).choose j * (base + (j + 1)) < UInt64.size := hword
      rw [hd, if_pos hsize]
      exact congrArg some (UInt64.toNat_inj.mp ((toNat_step hd hword).trans hc.symm))

/-- No division leaves a remainder. -/
theorem exactProduct?_eq (base j : ℕ) : exactProduct? (base + j) j = product? (base + j) j := by
  induction j with
  | zero => rfl
  | succ j ih =>
    rw [exactProduct?_succ, product?_succ, ih]
    refine Option.bind_congr fun c hc => ?_
    have hdvd : j + 1 ∣ c.toNat * (base + (j + 1)) := by
      rw [((product?_eq_some_iff base j).mp hc).2, product_step]
      exact Nat.dvd_mul_left _ _
    simp only [hdvd, and_true]

/-! ## Coefficients -/

theorem choose_steps (hk : 0 ≤ k) (hn : k ≤ n) : choose n k = n.choose (steps n k) := by
  obtain ⟨i, rfl⟩ := Int.eq_ofNat_of_zero_le hk
  have hi : i ≤ n := by omega
  rw [choose_natCast, steps, Int.toNat_natCast]
  rcases le_total i (n - i) with hle | hle
  · rw [Nat.min_eq_left hle]
  · rw [Nat.min_eq_right hle, Nat.choose_symm hi]

theorem sub_steps_add (n : ℕ) (k : ℤ) : n - steps n k + steps n k = n := by
  unfold steps
  omega

theorem product?_steps_eq_some_iff (hk : 0 ≤ k ∧ k ≤ n) :
    product? n (steps n k) = some c ↔ Calculable n k ∧ c.toNat = choose n k := by
  have hproduct := product?_eq_some_iff (c := c) (n - steps n k) (steps n k)
  rwa [sub_steps_add, ← choose_steps hk.1 hk.2] at hproduct

theorem choose_lt_of_calculable (h : Calculable n k) : choose n k < 2 ^ 64 := by
  by_cases hk : 0 ≤ k ∧ k ≤ n
  · rcases Nat.eq_zero_or_pos (steps n k) with hzero | hpos
    · rw [choose_steps hk.1 hk.2, hzero, Nat.choose_zero_right]
      exact Nat.one_lt_two_pow (by decide)
    · exact (Nat.le_mul_of_pos_right _ hpos).trans_lt h
  · rw [choose_of_outside hk]
    exact Nat.two_pow_pos 64

theorem coefficient?_of_lt (hn : m < n) (hk : 0 ≤ k ∧ k ≤ n) :
    (upTo m).coefficient? n k = product? n (steps n k) := by
  rw [coefficient?_of_inside _ hk, row?_upTo_of_lt hn, steps]

theorem choose_lt_of_le (hn : n ≤ m) (hm : Fits m) : choose n k < 2 ^ 64 := by
  rw [← toNat_coefficient_of_le hn (hm.of_le hn)]
  exact UInt64.toNat_lt _

/-- A table answers with the binomial coefficient, exactly if it holds it or it can be calculated. -/
theorem coefficient?_eq_some_iff (hm : Fits m) :
    (upTo m).coefficient? n k = some c ↔ (n ≤ m ∨ Calculable n k) ∧ c.toNat = choose n k := by
  rcases Nat.lt_or_ge m n with hn | hn
  · rw [or_iff_right hn.not_ge]
    by_cases hk : 0 ≤ k ∧ k ≤ n
    · rw [coefficient?_of_lt hn hk, product?_steps_eq_some_iff hk]
    · have hcalculable : Calculable n k := by
        rw [Calculable, choose_of_outside hk, Nat.zero_mul]
        exact Nat.two_pow_pos 64
      rw [coefficient?_of_outside _ hk, choose_of_outside hk, and_iff_right hcalculable, Option.some_inj,
        ← UInt64.toNat_inj]
      exact eq_comm
  · have hword : choose n k < UInt64.size := choose_lt_of_le hn hm
    rw [coefficient?_of_le hn, and_iff_right (.inl hn), Option.some_inj, ← UInt64.toNat_inj,
      UInt64.toNat_ofNat_of_lt' hword]
    exact eq_comm

/-- What a table answers is C(n, k), and two tables answer the same exactly if both hold it or it can be
calculated; else asking one of them does not return. A calculation that also looks for remainders is no other. -/
theorem coefficient_agrees_iff (h₁ : Fits m₁) (h₂ : Fits m₂) (n : ℕ) (k : ℤ) :
    ((∃ c, (upTo m₁).coefficient? n k = some c ∧ (upTo m₂).coefficient? n k = some c)
        ↔ (n ≤ m₁ ∧ n ≤ m₂) ∨ Calculable n k) ∧
      (∀ c, (upTo m₁).coefficient? n k = some c → c.toNat = choose n k) ∧
      exactProduct? n (steps n k) = product? n (steps n k) := by
  refine ⟨?_, fun c hc => ((coefficient?_eq_some_iff h₁).mp hc).2, ?_⟩
  · constructor
    · rintro ⟨c, hc₁, hc₂⟩
      rw [and_or_right]
      exact ⟨((coefficient?_eq_some_iff h₁).mp hc₁).1, ((coefficient?_eq_some_iff h₂).mp hc₂).1⟩
    · intro h
      rw [and_or_right] at h
      have hword : choose n k < 2 ^ 64 := h.1.elim (choose_lt_of_le · h₁) choose_lt_of_calculable
      have hc : (UInt64.ofNat (choose n k)).toNat = choose n k := UInt64.toNat_ofNat_of_lt' hword
      exact ⟨_, (coefficient?_eq_some_iff h₁).mpr ⟨h.1, hc⟩, (coefficient?_eq_some_iff h₂).mpr ⟨h.2, hc⟩⟩
  · have hexact := exactProduct?_eq (n - steps n k) (steps n k)
    rwa [sub_steps_add] at hexact

theorem coefficient_agrees_62 : Fits 2 ∧ Fits 67 ∧ Calculable 62 31 ∧
    ∃ c, (upTo 2).coefficient? 62 31 = some c ∧ (upTo 67).coefficient? 62 31 = some c := by
  have hsmall : Fits 2 := by decide +kernel
  have hlarge : Fits 67 := by decide +kernel
  have hcalculable : Calculable 62 31 := by
    have hle : 62 ≤ 67 := by decide
    rw [Calculable, ← toNat_coefficient_of_le hle (hlarge.of_le hle) 31]
    decide +kernel
  exact ⟨hsmall, hlarge, hcalculable, (coefficient_agrees_iff hsmall hlarge 62 31).1.mpr (.inr hcalculable)⟩

/-- A coefficient that is a word. A large table holds it, and from a small one it does not return. -/
theorem coefficient_overflows : Fits 2 ∧ Fits 63 ∧ choose 63 31 < 2 ^ 64 ∧
    (upTo 63).coefficient? 63 31 = some (.ofNat (choose 63 31)) ∧ (upTo 2).coefficient? 63 31 = none := by
  have hfits : Fits 63 := by decide +kernel
  exact ⟨by decide +kernel, hfits, hfits 31, coefficient?_of_le le_rfl 31, by decide +kernel⟩

end VectorRaster.BinomialTable
