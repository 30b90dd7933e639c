/-
  VectorRaster.Proofs.Path.Lexing — where path data can be cut, and how numbers are written.

  A run of separators says nothing, a letter is a token wherever it is not part of a number, and a
  number goes on up to the next separator or letter that is no exponent. So path data can be cut
  before a separator, or before a letter other than an `e`, and each part be read on its own
  (`ofChars_append`). A text that has the shape of a number is one token (`ofChars_numberText`).
-/

import Mathlib.Data.List.Chain
import VectorRaster.Path.Token

namespace VectorRaster.Path

open Text

/-- A run of separators, maybe empty. -/
def IsGap (gap : List Char) : Prop := ∀ c ∈ gap, isSeparator c = true

-- not inferred: that may go through all characters
instance (gap : List Char) : Decidable (IsGap gap) := List.decidableBAll (fun c => isSeparator c = true) gap

/-- Text that goes on no number: it begins with a separator, or with a letter that marks no exponent. -/
def Breaks (cs : List Char) : Prop :=
  ∀ c ∈ cs.head?, isSeparator c = true ∨ c.isAlpha = true ∧ c ≠ 'e' ∧ c ≠ 'E'

theorem breaks_gap {gap rest : List Char} (hgap : IsGap gap) (h : gap = [] → Breaks rest) : Breaks (gap ++ rest) := by
  cases gap with
  | nil => exact h rfl
  | cons c gap =>
    intro d hd
    cases hd
    exact .inl (hgap c List.mem_cons_self)

theorem isSeparator_of_isAlpha {c : Char} (h : c.isAlpha = true) : isSeparator c = false := by
  have hval : 'A'.val ≤ c.val ∧ c.val ≤ 'Z'.val ∨ 'a'.val ≤ c.val ∧ c.val ≤ 'z'.val := by
    rcases Bool.or_eq_true_iff.mp h with hupper | hlower
    · exact .inl (of_decide_eq_true hupper)
    · obtain ⟨hl, hr⟩ := Bool.and_eq_true_iff.mp hlower
      exact .inr ⟨of_decide_eq_true hl, of_decide_eq_true hr⟩
  have hn : 65 ≤ c.toNat ∧ c.toNat ≤ 90 ∨ 97 ≤ c.toNat ∧ c.toNat ≤ 122 := hval
  have hcomma : c ≠ ',' := by
    intro hc
    subst hc
    exact absurd h (by decide)
  simp only [isSeparator, isBlank, Bool.or_eq_false_iff, Bool.and_eq_false_iff, beq_eq_false_iff_ne,
    decide_eq_false_iff_not]
  refine ⟨hcomma, ?_⟩
  omega

namespace Token

/-! ## Numbers -/

/-- The shape of numbers, whatever they say. -/
structure IsNumberText (cs : List Char) : Prop where
  ne_nil : cs ≠ []
  first : ∀ c ∈ cs.head?, c.isAlpha = false
  separators : ∀ c ∈ cs, isSeparator c = false
  /-- A letter marks an exponent, and stands right after a digit or a point. -/
  letters : ∀ before last c after, cs = before ++ last :: c :: after → c.isAlpha = true →
    (c = 'e' ∨ c = 'E') ∧ (last.isDigit = true ∨ last = '.')

theorem continues_iff {last c : Char} : continues last c = true ↔
    isSeparator c = false ∧ (c.isAlpha = true → (c = 'e' ∨ c = 'E') ∧ (last.isDigit = true ∨ last = '.')) := by
  cases hs : isSeparator c <;> cases ha : c.isAlpha <;> simp [continues, hs, ha]

theorem continues_of_breaks {last c : Char} {cs : List Char} (h : Breaks (c :: cs)) : continues last c = false := by
  rw [Bool.eq_false_iff]
  intro hc
  obtain ⟨hs, ha⟩ := continues_iff.mp hc
  rcases h c rfl with hsep | ⟨halpha, he, hE⟩
  · rw [hs] at hsep
    cases hsep
  · rcases (ha halpha).1 with rfl | rfl
    · exact he rfl
    · exact hE rfl

theorem numberTail_append {ys : List Char} (h : Breaks ys) (last : Char) (xs : List Char) :
    numberTail last (xs ++ ys) = numberTail last xs := by
  induction xs generalizing last with
  | nil =>
    cases ys with
    | nil => rfl
    | cons y ys => simp [numberTail, continues_of_breaks h]
  | cons x xs ih => simp only [List.cons_append, numberTail, ih]

theorem afterNumber_append {ys : List Char} (h : Breaks ys) (last : Char) (xs : List Char) :
    afterNumber last (xs ++ ys) = afterNumber last xs ++ ys := by
  induction xs generalizing last with
  | nil =>
    cases ys with
    | nil => rfl
    | cons y ys => simp [afterNumber, continues_of_breaks h]
  | cons x xs ih =>
    simp only [List.cons_append, afterNumber, ih]
    split <;> rfl

theorem numberTail_eq_self_iff {last : Char} {cs : List Char} :
    numberTail last cs = cs ↔ (last :: cs).IsChain fun a b => continues a b = true := by
  induction cs generalizing last with
  | nil => simp [numberTail]
  | cons c cs ih =>
    rw [List.isChain_cons_cons, ← ih, numberTail]
    by_cases hc : continues last c = true
    · simp [hc]
    · simp [hc]

/-- A text has the shape of a number if a number goes on from its first character to its end. -/
theorem isNumberText_iff {c : Char} {cs : List Char} :
    IsNumberText (c :: cs) ↔ isSeparator c = false ∧ c.isAlpha = false ∧ numberTail c cs = cs := by
  rw [numberTail_eq_self_iff, List.isChain_iff_forall_rel_of_append_cons_cons]
  constructor
  · intro h
    refine ⟨h.separators c List.mem_cons_self, h.first c rfl, fun a b before after hsplit => ?_⟩
    exact continues_iff.mpr ⟨h.separators b (by simp [hsplit]), h.letters before a b after hsplit⟩
  · intro h
    obtain ⟨hs, ha, hchain⟩ := h
    have hpair : ∀ before last c' after, c :: cs = before ++ last :: c' :: after → _ :=
      fun before last c' after hsplit => continues_iff.mp (hchain hsplit)
    refine ⟨List.cons_ne_nil c cs, fun d hd => ?_, fun d hd => ?_, fun before last d after hsplit => ?_⟩
    · cases hd
      exact ha
    · rcases List.mem_cons.mp hd with rfl | hd
      · exact hs
      · -- a later character goes on from the one before it
        obtain ⟨before, after, rfl⟩ := List.append_of_mem hd
        obtain ⟨init, last, hlast⟩ := (List.eq_nil_or_concat (c :: before)).resolve_left (List.cons_ne_nil c before)
        exact (hpair init last d after (by rw [← List.cons_append, hlast, List.concat_append])).1
    · exact (hpair before last d after hsplit).2

/-! ## Cuts -/

theorem ofChars_separator {c : Char} (h : isSeparator c = true) (cs : List Char) : ofChars (c :: cs) = ofChars cs := by
  rw [ofChars, if_pos h]

theorem ofChars_letter {c : Char} (h : c.isAlpha = true) (cs : List Char) :
    ofChars (c :: cs) = command c :: ofChars cs := by
  rw [ofChars, if_neg (by simp [isSeparator_of_isAlpha h]), if_pos h]

theorem ofChars_number {c : Char} (hs : isSeparator c = false) (ha : c.isAlpha = false) (cs : List Char) :
    ofChars (c :: cs) = number (String.ofList (c :: numberTail c cs)) :: ofChars (afterNumber c cs) := by
  rw [ofChars, if_neg (by simp [hs]), if_neg (by simp [ha])]

theorem ofChars_gap {gap : List Char} (h : IsGap gap) (cs : List Char) : ofChars (gap ++ cs) = ofChars cs := by
  induction gap with
  | nil => rfl
  | cons c gap ih =>
    rw [List.cons_append, ofChars_separator (h c List.mem_cons_self)]
    exact ih fun c hc => h c (List.mem_cons_of_mem _ hc)

theorem ofChars_of_gap {gap : List Char} (h : IsGap gap) : ofChars gap = [] := by
  have hnil := ofChars_gap h []
  rwa [List.append_nil, ofChars] at hnil

/-- Where no number goes on, path data can be cut in two. -/
theorem ofChars_append {ys : List Char} (h : Breaks ys) (xs : List Char) :
    ofChars (xs ++ ys) = ofChars xs ++ ofChars ys := by
  fun_induction ofChars xs with
  | case1 => rfl
  | case2 c cs hs ih => rw [List.cons_append, ofChars_separator hs, ih]
  | case3 c cs hs ha ih => rw [List.cons_append, ofChars_letter ha, ih, List.cons_append]
  | case4 c cs hs ha ih =>
    rw [List.cons_append, ofChars_number (by simpa using hs) (by simpa using ha), numberTail_append h,
      afterNumber_append h, ih, List.cons_append]

theorem ofChars_numberText {text : List Char} (h : IsNumberText text) :
    ofChars text = [number (String.ofList text)] := by
  cases text with
  | nil => exact absurd rfl h.ne_nil
  | cons c cs =>
    obtain ⟨hs, ha, htail⟩ := isNumberText_iff.mp h
    have hafter : afterNumber c cs = [] := by
      have happend := numberTail_append_afterNumber c cs
      rw [htail] at happend
      simpa using happend
    rw [ofChars_number hs ha, htail, hafter, ofChars]

end Token

end VectorRaster.Path
