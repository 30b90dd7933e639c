/-
  VectorRaster.Proofs.Text.Trimming — what is cut off a text, and what is left.

  Trimming takes a run of blanks off each end (`exists_blanks_trim`), and what is left has none
  there (`isTrimmed_trim`). Both together say which text that is: whatever blanks are put around a
  text without blanks at its ends, it is what trimming leaves (`trim_of_blanks`).
-/

import Mathlib.Data.List.DropRight
import VectorRaster.Text.Blank

namespace VectorRaster.Text

variable {cs front ending lead trail : List Char}

/-- A run of blanks, maybe empty. -/
def AllBlank (cs : List Char) : Prop := ∀ c ∈ cs, isBlank c = true

/-- There are no blanks at the ends. -/
structure IsTrimmed (cs : List Char) : Prop where
  first : ∀ c ∈ cs.head?, isBlank c = false
  last : ∀ c ∈ cs.getLast?, isBlank c = false

theorem trim_eq_rdropWhile (cs : List Char) : trim cs = (cs.dropWhile isBlank).rdropWhile isBlank := rfl

theorem dropWhile_of_blanks (hlead : AllBlank lead) (hfirst : ∀ c ∈ cs.head?, isBlank c = false) :
    (lead ++ cs).dropWhile isBlank = cs := by
  rw [List.dropWhile_append_of_pos hlead]
  cases cs with
  | nil => rfl
  | cons c cs => exact List.dropWhile_cons_of_neg (by simp [hfirst c rfl])

theorem trim_of_blanks (hlead : AllBlank lead) (htrail : AllBlank trail) (h : IsTrimmed cs) :
    trim (lead ++ cs ++ trail) = cs := by
  cases cs with
  | nil =>
    have hall : AllBlank (lead ++ trail) := fun c hc => (List.mem_append.mp hc).elim (hlead c) (htrail c)
    rw [List.append_nil, trim_eq_rdropWhile, List.dropWhile_eq_nil_iff.mpr hall, List.rdropWhile_nil]
  | cons c cs =>
    have hback : AllBlank trail.reverse := fun d hd => htrail d (List.mem_reverse.mp hd)
    have hlast : ∀ d ∈ (c :: cs).reverse.head?, isBlank d = false := by
      rw [List.head?_reverse]
      exact h.last
    rw [trim, List.append_assoc, dropWhile_of_blanks hlead (by simpa using h.first), List.reverse_append,
      dropWhile_of_blanks hback hlast, List.reverse_reverse]

theorem IsTrimmed.trim_eq (h : IsTrimmed cs) : trim cs = cs := by
  have htrim := @trim_of_blanks cs [] [] nofun nofun h
  rwa [List.nil_append, List.append_nil] at htrim

theorem isTrimmed_trim (cs : List Char) : IsTrimmed (trim cs) := by
  constructor
  · -- it begins where the text without its leading blanks does
    intro c hc
    obtain ⟨rest, hrest⟩ : trim cs <+: cs.dropWhile isBlank := List.rdropWhile_prefix _ _
    have hhead : (cs.dropWhile isBlank).head? = some c := by
      rw [← hrest, List.head?_append, Option.mem_def.mp hc, Option.some_or]
    have hnot := List.head?_dropWhile_not isBlank cs
    rw [hhead] at hnot
    simpa using hnot
  · intro c hc
    obtain ⟨hne, rfl⟩ := List.mem_getLast?_eq_getLast hc
    exact Bool.eq_false_iff.mpr (List.rdropWhile_last_not isBlank (cs.dropWhile isBlank) hne)

theorem exists_blanks_trim (cs : List Char) :
    ∃ lead trail, AllBlank lead ∧ AllBlank trail ∧ cs = lead ++ trim cs ++ trail := by
  refine ⟨cs.takeWhile isBlank, (cs.dropWhile isBlank).rtakeWhile isBlank, ?_, ?_, ?_⟩
  · exact fun c hc => List.mem_takeWhile_imp hc
  · exact fun c hc => List.mem_rtakeWhile_imp hc
  · rw [trim_eq_rdropWhile, List.append_assoc, List.rdropWhile_append_rtakeWhile, List.takeWhile_append_dropWhile]

theorem before?_eq_some_iff : before? ending cs = some front ↔ cs = front ++ ending := by
  unfold before?
  split
  · rename_i hsuffix
    obtain ⟨start, rfl⟩ := List.isSuffixOf_iff_suffix.mp hsuffix
    simp [eq_comm]
  · rename_i hsuffix
    refine ⟨nofun, fun h => absurd ?_ hsuffix⟩
    exact List.isSuffixOf_iff_suffix.mpr ⟨front, h.symm⟩

end VectorRaster.Text
