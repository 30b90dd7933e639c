/-
  VectorRaster.Proofs.Numeric.Numerals — which characters a finite number is written with.

  Infinite values and those that are no numbers have names, so a text that is read as a finite number
  has decimal digits, a point, an exponent mark and signs, and nothing else (`isDecimalText_of_finiteFloat?`).
-/

import Mathlib.Data.List.TakeWhile
import VectorRaster.Proofs.Document.Viewports

namespace VectorRaster.Numeric

/-- A character of a decimal number. -/
def IsDecimalChar (c : Char) : Prop := c.isDigit = true ∨ c ∈ ['.', 'e', 'E', '+', '-']

instance (c : Char) : Decidable (IsDecimalChar c) := inferInstanceAs (Decidable (_ ∨ _))

/-- Text that a decimal number can be written as. -/
def IsDecimalText (cs : List Char) : Prop := ∀ c ∈ cs, IsDecimalChar c

theorem IsDecimalText.cons {c : Char} {cs : List Char} (hc : IsDecimalChar c) (h : IsDecimalText cs) :
    IsDecimalText (c :: cs) := List.forall_mem_cons.mpr ⟨hc, h⟩

theorem IsDecimalText.append {cs ds : List Char} (hc : IsDecimalText cs) (hd : IsDecimalText ds) :
    IsDecimalText (cs ++ ds) := List.forall_mem_append.mpr ⟨hc, hd⟩

theorem isDecimalText_takeWhile (cs : List Char) : IsDecimalText (cs.takeWhile Char.isDigit) :=
  fun _ hc => .inl (List.mem_takeWhile_imp hc)

namespace Numeral

variable {cs : List Char} {negative : Bool} {n : Numeral} {e : Int}

theorem isDecimalText_of_digits (h : ¬(cs.isEmpty || !cs.all Char.isDigit) = true) : IsDecimalText cs := by
  simp only [Bool.or_eq_true, Bool.not_eq_true', not_or, Bool.not_eq_false] at h
  exact fun c hc => .inl (List.all_eq_true.mp h.2 c hc)

theorem isDecimalText_of_exponent? (h : exponent? cs = some e) : IsDecimalText cs := by
  cases cs with
  | nil => exact nofun
  | cons mark cs =>
    simp only [exponent?] at h
    split at h
    · rename_i hmark
      have hfirst : IsDecimalChar mark := by
        simp only [Bool.or_eq_true, beq_iff_eq] at hmark
        rcases hmark with rfl | rfl
        · exact .inr (by decide)
        · exact .inr (by decide)
      refine .cons hfirst ?_
      -- a sign or none, and digits
      split at h
      · split at h
        · cases h
        · rename_i hdigits
          exact .cons (.inr (by decide)) (isDecimalText_of_digits hdigits)
      · split at h
        · cases h
        · rename_i hdigits
          exact .cons (.inr (by decide)) (isDecimalText_of_digits hdigits)
      · split at h
        · cases h
        · rename_i hdigits
          exact isDecimalText_of_digits hdigits
    · cases h

theorem isDecimalText_of_unsigned? (h : unsigned? negative cs = some n) :
    n = .infinity negative ∨ n = .nan ∨ cs ≠ [] ∧ IsDecimalText cs := by
  simp only [unsigned?] at h
  split at h
  · cases h
    exact .inl rfl
  · split at h
    · cases h
      exact .inr (.inl rfl)
    · refine .inr (.inr ⟨?_, ?_⟩)
      · rintro rfl
        cases h
      · rw [← @List.takeWhile_append_dropWhile _ Char.isDigit cs]
        refine (isDecimalText_takeWhile cs).append ?_
        -- a point and more digits, or none
        split at h
        · rename_i rest hpoint
          split at h
          · cases h
          · obtain ⟨e, he, -⟩ := Option.map_eq_some_iff.mp h
            rw [hpoint, ← @List.takeWhile_append_dropWhile _ Char.isDigit rest]
            exact .cons (.inr (by decide)) ((isDecimalText_takeWhile rest).append (isDecimalText_of_exponent? he))
        · split at h
          · cases h
          · obtain ⟨e, he, -⟩ := Option.map_eq_some_iff.mp h
            exact isDecimalText_of_exponent? he

theorem isDecimalText_of_ofChars? (h : ofChars? cs = some n) :
    (∃ negative, n = .infinity negative) ∨ n = .nan ∨ cs ≠ [] ∧ IsDecimalText cs := by
  unfold ofChars? at h
  split at h
  · refine (isDecimalText_of_unsigned? h).imp (fun hn => ⟨_, hn⟩) (.imp_right fun hcs => ?_)
    exact ⟨List.cons_ne_nil _ _, .cons (.inr (by decide)) hcs.2⟩
  · refine (isDecimalText_of_unsigned? h).imp (fun hn => ⟨_, hn⟩) (.imp_right fun hcs => ?_)
    exact ⟨List.cons_ne_nil _ _, .cons (.inr (by decide)) hcs.2⟩
  · exact (isDecimalText_of_unsigned? h).imp_left fun hn => ⟨_, hn⟩

end Numeral

/-- Only a decimal number is finite. -/
theorem isDecimalText_of_finiteFloat? {cs : List Char} {x : Float} (h : finiteFloat? cs = some x) :
    cs ≠ [] ∧ IsDecimalText cs := by
  obtain ⟨hx, hfinite⟩ := finiteFloat?_eq_some_iff.mp h
  obtain ⟨n, hn, rfl⟩ := Option.map_eq_some_iff.mp hx
  rcases Numeral.isDecimalText_of_ofChars? hn with ⟨negative, rfl⟩ | rfl | hcs
  · cases negative <;> cases hfinite
  · cases hfinite
  · exact hcs

end VectorRaster.Numeric
