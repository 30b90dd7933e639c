/-
  VectorRaster.Proofs.Geometry.Pascal — a table of binomial coefficients is Pascal's triangle.

  A row of words that is made from the row above is the next row of Pascal's triangle, taken
  as words (`nextRow_pascalRow`): words wrap, so this holds of every row. As long as a row
  `Fits`, its words are the numbers themselves, and so are those of all rows above it.

  `upTo?` builds a table and looks at every sum. It gives a table exactly if the last row fits
  (`isSome_upTo?_iff`), which decides whether a row fits.

  Proved: `upTo_holds_pascal`, that a table whose last row fits holds C(n, k) and nothing else.
-/

import Mathlib.Algebra.Order.Ring.Int
import Mathlib.Data.Nat.Choose.Basic
import VectorRaster.Geometry.Binomial

namespace VectorRaster.BinomialTable

/-- C(n, k) for any integer `k`. -/
def choose (n : ℕ) (k : ℤ) : ℕ := if k < 0 then 0 else n.choose k.toNat

/-- Every number of row `n` of Pascal's triangle is a word. -/
def Fits (n : ℕ) : Prop := ∀ k, n.choose k < 2 ^ 64

/-- Row `n` of Pascal's triangle in words. -/
def pascalRow (n : ℕ) : List UInt64 := (List.range (n + 1)).map fun k => .ofNat (n.choose k)

variable {m n : ℕ} {k : ℤ}

theorem Fits.of_le (h : Fits m) (hle : n ≤ m) : Fits n := fun k => (Nat.choose_le_choose k hle).trans_lt (h k)

theorem choose_of_neg (hk : k < 0) : choose n k = 0 := if_pos hk

@[simp] theorem choose_natCast (n k : ℕ) : choose n k = n.choose k := by
  rw [choose, if_neg (Int.not_lt.mpr (Int.natCast_nonneg k)), Int.toNat_natCast]

theorem choose_of_lt (hk : (n : ℤ) < k) : choose n k = 0 := by
  rw [choose, if_neg (by omega), Nat.choose_eq_zero_of_lt (by omega)]

theorem choose_of_outside (hk : ¬(0 ≤ k ∧ k ≤ n)) : choose n k = 0 := by
  rcases lt_or_ge k 0 with h | h
  · exact choose_of_neg h
  · exact choose_of_lt (by omega)

theorem choose_succ (n : ℕ) (k : ℤ) : choose (n + 1) k = choose n (k - 1) + choose n k := by
  rcases lt_trichotomy k 0 with hk | rfl | hk
  · rw [choose_of_neg hk, choose_of_neg hk, choose_of_neg (by omega)]
  · simp [choose]
  · obtain ⟨j, rfl⟩ : ∃ j : ℕ, k = (j + 1 : ℕ) := ⟨k.toNat - 1, by omega⟩
    have hpred : ((j + 1 : ℕ) : ℤ) - 1 = (j : ℕ) := by omega
    rw [hpred, choose_natCast, choose_natCast, choose_natCast, Nat.choose_succ_succ']

theorem choose_sub (n : ℕ) (k : ℤ) : choose n (n - k) = choose n k := by
  rcases lt_or_ge k 0 with hk | hk
  · rw [choose_of_neg hk, choose_of_lt (by omega)]
  rcases lt_or_ge (n : ℤ) k with hn | hn
  · rw [choose_of_lt hn, choose_of_neg (by omega)]
  · obtain ⟨j, rfl⟩ := Int.eq_ofNat_of_zero_le hk
    have hj : j ≤ n := by omega
    have hsub : (n : ℤ) - j = (n - j : ℕ) := by omega
    rw [hsub, choose_natCast, choose_natCast, Nat.choose_symm hj]

/-! ## Rows -/

@[simp] theorem length_pascalRow (n : ℕ) : (pascalRow n).length = n + 1 := by
  simp [pascalRow]

theorem getElem_pascalRow {i : ℕ} (h : i < (pascalRow n).length) : (pascalRow n)[i] = .ofNat (n.choose i) := by
  simp [pascalRow]

theorem nextRow_pascalRow (n : ℕ) : nextRow (pascalRow n) = pascalRow (n + 1) := by
  have hlength : (nextRow (pascalRow n)).length = (pascalRow (n + 1)).length := by
    simp [nextRow]
  refine List.ext_getElem hlength fun i h h' => ?_
  rw [getElem_pascalRow]
  rw [length_pascalRow] at h'
  have hsums : ((pascalRow n).zipWith (· + ·) (pascalRow n).tail).length = n := by
    simp
  cases i with
  | zero => rfl
  | succ i =>
    rcases lt_or_ge i n with hi | hi
    · -- a sum of two neighbours
      rw [Nat.choose_succ_succ', UInt64.ofNat_add]
      simp [nextRow, getElem_pascalRow, hi]
    · obtain rfl : i = n := by omega
      rw [Nat.choose_self]
      simp [nextRow]

theorem rowsFrom_pascalRow (n count : ℕ) :
    rowsFrom (pascalRow n) count = (List.range' n (count + 1)).map pascalRow := by
  induction count generalizing n with
  | zero => rfl
  | succ count ih =>
    rw [rowsFrom, nextRow_pascalRow, ih, List.range'_succ (n := count + 1), List.map_cons]

theorem rows_upTo (m : ℕ) : (upTo m).rows = (List.range (m + 1)).map pascalRow := by
  rw [List.range_eq_range']
  exact rowsFrom_pascalRow 0 m

theorem maxDegree_upTo (m : ℕ) : (upTo m).maxDegree = m := by
  rw [maxDegree, rows_upTo, List.length_map, List.length_range, Nat.add_sub_cancel]

theorem row?_upTo_of_le (hn : n ≤ m) : (upTo m).row? n = some (pascalRow n) := by
  rw [row?, rows_upTo, List.getElem?_map, List.getElem?_range (Nat.lt_succ_of_le hn), Option.map_some]

theorem row?_upTo_of_lt (hn : m < n) : (upTo m).row? n = none := by
  refine List.getElem?_eq_none ?_
  rw [rows_upTo, List.length_map, List.length_range]
  exact hn

theorem map_toNat_pascalRow (h : Fits n) : (pascalRow n).map UInt64.toNat = (List.range (n + 1)).map n.choose := by
  rw [pascalRow, List.map_map]
  exact List.map_congr_left fun k _ => UInt64.toNat_ofNat_of_lt' (h k)

theorem coefficient?_of_outside (table : BinomialTable) (hk : ¬(0 ≤ k ∧ k ≤ n)) : table.coefficient? n k = some 0 := by
  refine if_pos (Bool.or_eq_true_iff.mpr ?_)
  rw [decide_eq_true_iff, decide_eq_true_iff]
  omega

theorem coefficient?_of_inside (table : BinomialTable) (hk : 0 ≤ k ∧ k ≤ n) :
    table.coefficient? n k = match table.row? n with
      | some row => some (row.getD k.toNat 0)
      | none => product? n (min k.toNat (n - k.toNat)) := by
  refine if_neg ?_
  rw [Bool.or_eq_true_iff, decide_eq_true_iff, decide_eq_true_iff]
  omega

/-- A coefficient that is stored is the binomial coefficient, as a word. -/
theorem coefficient?_of_le (hn : n ≤ m) (k : ℤ) : (upTo m).coefficient? n k = some (.ofNat (choose n k)) := by
  by_cases hk : 0 ≤ k ∧ k ≤ n
  · obtain ⟨i, rfl⟩ := Int.eq_ofNat_of_zero_le hk.1
    have hi : i < (pascalRow n).length := by
      rw [length_pascalRow]
      omega
    rw [coefficient?_of_inside _ hk, row?_upTo_of_le hn, choose_natCast, Int.toNat_natCast]
    simp only [List.getD_eq_getElem?_getD, List.getElem?_eq_getElem hi, Option.getD_some, getElem_pascalRow]
  · rw [coefficient?_of_outside _ hk, choose_of_outside hk]
    rfl

theorem coefficient_of_le (hn : n ≤ m) (k : ℤ) : (upTo m).coefficient n k = .ofNat (choose n k) := by
  rw [coefficient, coefficient?_of_le hn, Option.getD_some]

theorem toNat_coefficient_of_le (hn : n ≤ m) (h : Fits n) (k : ℤ) :
    ((upTo m).coefficient n k).toNat = choose n k := by
  rw [coefficient_of_le hn]
  refine UInt64.toNat_ofNat_of_lt' ?_
  rw [choose]
  split
  · exact Nat.two_pow_pos 64
  · exact h _

/-! ## Sums that are looked at -/

theorem sums_fit_iff (h : Fits n) :
    (((pascalRow n).zip (pascalRow n).tail).all fun pair => pair.1.toNat + pair.2.toNat < UInt64.size) = true
      ↔ Fits (n + 1) := by
  have hpair : ∀ i < n, ((UInt64.ofNat (n.choose i)).toNat + (UInt64.ofNat (n.choose (i + 1))).toNat)
      = (n + 1).choose (i + 1) := fun i _ => by
    rw [UInt64.toNat_ofNat_of_lt' (h i), UInt64.toNat_ofNat_of_lt' (h (i + 1)), Nat.choose_succ_succ']
  rw [List.all_eq_true]
  constructor
  · intro hall j
    rcases Nat.eq_zero_or_pos j with rfl | hj
    · simp
    obtain ⟨i, rfl⟩ : ∃ i, j = i + 1 := ⟨j - 1, by omega⟩
    rcases lt_or_ge i n with hi | hi
    · have hmem : (UInt64.ofNat (n.choose i), UInt64.ofNat (n.choose (i + 1)))
          ∈ (pascalRow n).zip (pascalRow n).tail := by
        refine List.mem_iff_getElem.mpr ⟨i, by simpa using hi, ?_⟩
        simp [getElem_pascalRow]
      have hsum := of_decide_eq_true (hall _ hmem)
      rwa [hpair i hi] at hsum
    · have hle : (n + 1).choose (i + 1) ≤ 1 := by
        rcases eq_or_lt_of_le hi with rfl | hlt
        · rw [Nat.choose_self]
        · rw [Nat.choose_eq_zero_of_lt (by omega)]
          exact Nat.zero_le 1
      exact hle.trans_lt (Nat.one_lt_two_pow (by decide))
  · intro hnext pair hmem
    obtain ⟨i, hi, rfl⟩ := List.mem_iff_getElem.mp hmem
    have hi' : i < n := by simpa using hi
    refine decide_eq_true ?_
    simp only [List.getElem_zip, List.getElem_tail, getElem_pascalRow]
    rw [hpair i hi']
    exact hnext (i + 1)

theorem nextRow?_pascalRow (h : Fits (n + 1)) : nextRow? (pascalRow n) = some (pascalRow (n + 1)) := by
  rw [nextRow?, if_pos ((sums_fit_iff (h.of_le (Nat.le_succ n))).mpr h), nextRow_pascalRow]

theorem rowsFrom?_pascalRow {count : ℕ} (h : Fits (n + count)) :
    rowsFrom? (pascalRow n) count = some (rowsFrom (pascalRow n) count) := by
  induction count generalizing n with
  | zero => rfl
  | succ count ih =>
    have h' : Fits (n + 1 + count) := by rwa [Nat.add_assoc, Nat.add_comm 1]
    rw [rowsFrom?, nextRow?_pascalRow (h.of_le (by omega)), Option.bind_eq_bind, Option.bind_some, ih h',
      Option.bind_eq_bind, Option.bind_some, rowsFrom, nextRow_pascalRow]
    rfl

theorem fits_of_rowsFrom? {count : ℕ} {rows : List (List UInt64)} (hn : Fits n)
    (h : rowsFrom? (pascalRow n) count = some rows) : Fits (n + count) := by
  induction count generalizing n rows with
  | zero => exact hn
  | succ count ih =>
    rw [rowsFrom?, nextRow?] at h
    split at h
    · rename_i hsums
      rw [nextRow_pascalRow] at h
      obtain ⟨next, hnext, hrows⟩ := Option.bind_eq_some_iff.mp h
      obtain ⟨rest, hrest, -⟩ := Option.bind_eq_some_iff.mp hrows
      obtain rfl := Option.some.inj hnext
      have := ih ((sums_fit_iff hn).mp hsums) hrest
      rwa [Nat.add_assoc, Nat.add_comm 1] at this
    · cases h

theorem fits_zero : Fits 0 := by
  intro k
  cases k with
  | zero => exact Nat.one_lt_two_pow (by decide)
  | succ k => exact Nat.two_pow_pos 64

theorem upTo?_of_fits (h : Fits m) : upTo? m = some (upTo m) := by
  have hrows : rowsFrom? (pascalRow 0) m = some (rowsFrom (pascalRow 0) m) :=
    rowsFrom?_pascalRow (by rwa [Nat.zero_add])
  exact congrArg (Option.map BinomialTable.mk) hrows

/-- Sums stay words exactly as long as the numbers of the last row are words. -/
theorem isSome_upTo?_iff (m : ℕ) : (upTo? m).isSome = true ↔ Fits m := by
  constructor
  · intro h
    rw [upTo?, Option.isSome_map, Option.isSome_iff_exists] at h
    obtain ⟨rows, hrows⟩ := h
    have := fits_of_rowsFrom? (n := 0) fits_zero hrows
    rwa [Nat.zero_add] at this
  · intro h
    rw [upTo?_of_fits h]
    rfl

instance (m : ℕ) : Decidable (Fits m) := decidable_of_iff _ (isSome_upTo?_iff m)

/-- The last row that fits. -/
example : Fits 67 ∧ ¬Fits 68 := by decide +kernel

/-! ## Whole tables -/

/-- A table whose last row fits holds the rows of Pascal's triangle up to that one, its
coefficients are the binomial coefficients, and no sum overflows when it is built. -/
theorem upTo_holds_pascal (hm : Fits m) :
    (upTo m).maxDegree = m ∧
      (∀ n ≤ m, ∃ row, (upTo m).row? n = some row ∧ row.map UInt64.toNat = (List.range (n + 1)).map n.choose) ∧
      (∀ n, m < n → (upTo m).row? n = none) ∧
      (∀ n ≤ m, ∀ k : ℤ, ((upTo m).coefficient n k).toNat = choose n k) ∧
      (∀ n < m, ∀ k : ℤ, ((upTo m).coefficient (n + 1) k).toNat
        = ((upTo m).coefficient n (k - 1)).toNat + ((upTo m).coefficient n k).toNat) ∧
      (∀ n ≤ m, ∀ k : ℤ, (upTo m).coefficient n (n - k) = (upTo m).coefficient n k) ∧
      upTo? m = some (upTo m) := by
  have hcoefficient : ∀ n ≤ m, ∀ k : ℤ, ((upTo m).coefficient n k).toNat = choose n k := fun n hn =>
    toNat_coefficient_of_le hn (hm.of_le hn)
  refine ⟨maxDegree_upTo m, fun n hn => ?_, fun n hn => row?_upTo_of_lt hn, hcoefficient, fun n hn k => ?_,
    fun n hn k => ?_, upTo?_of_fits hm⟩
  · exact ⟨pascalRow n, row?_upTo_of_le hn, map_toNat_pascalRow (hm.of_le hn)⟩
  · rw [hcoefficient _ hn, hcoefficient n hn.le, hcoefficient n hn.le, choose_succ]
  · rw [coefficient_of_le hn, coefficient_of_le hn, choose_sub]

theorem upTo_holds_pascal_last : Fits 67 ∧ (upTo 67).maxDegree = 67 ∧
    ((upTo 67).coefficient 67 33).toNat = choose 67 33 ∧ (upTo 67).row? 68 = none ∧ upTo? 67 = some (upTo 67) := by
  have hfits : Fits 67 := by decide +kernel
  obtain ⟨hmax, -, hpast, hcoefficient, -, -, hbuilt⟩ := upTo_holds_pascal hfits
  exact ⟨hfits, hmax, hcoefficient 67 le_rfl 33, hpast 68 (by decide), hbuilt⟩

end VectorRaster.BinomialTable
