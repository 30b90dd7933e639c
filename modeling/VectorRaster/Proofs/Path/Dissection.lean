/-
  VectorRaster.Proofs.Path.Dissection — path data taken apart into separators and tokens.

  A dissection of a text is a run of separators and then tokens, each with the separators after it.
  Every token has its shape where it stands (`Token.Stands`): a command is a letter; a number has the
  shape of one and ends only where no more of the text can belong to it.

  Proved: each text has one dissection and no other, its tokens are those that reading gives, and
  what is not a separator stands in the tokens, all of it and once (`ofString_dissects`). A scanner by byte
  positions gives the same tokens. Where a token stands, reading takes just that token
  (`ofChars_of_stands`); so two dissections agree from their first token on.
-/

import VectorRaster.Proofs.Path.Scanning

namespace VectorRaster.Path

open Text

namespace Token

/-- The characters that a token is written with. -/
def chars : Token → List Char
  | command letter => [letter]
  | number text => text.toList

/-- No number with the characters `run` goes on with `rest`: there the text ends, or goes on with a
separator, or with a letter that is not the exponent of `run`. -/
def Ends (run rest : List Char) : Prop :=
  ∀ last ∈ run.getLast?, ∀ c ∈ rest.head?, isSeparator c = true ∨
    c.isAlpha = true ∧ ¬((c = 'e' ∨ c = 'E') ∧ (last.isDigit = true ∨ last = '.'))

/-- A token that can stand before `rest`. -/
def Stands (rest : List Char) : Token → Prop
  | command letter => letter.isAlpha = true
  | number text => IsNumberText text.toList ∧ Ends text.toList rest

variable {run rest cs : List Char} {last c : Char} {t : Token}

/-! ## Where numbers end -/

theorem ends_nil (run : List Char) : Ends run [] := fun _ _ _ hc => nomatch hc

theorem ends_singleton_iff : Ends [last] (c :: cs) ↔ continues last c = false := by
  rw [← Bool.not_eq_true, continues_iff]
  cases hs : isSeparator c <;> cases ha : c.isAlpha <;> simp [Ends, hs, ha]

theorem ends_cons_cons {a b : Char} : Ends (a :: b :: run) rest ↔ Ends (b :: run) rest := by
  rw [Ends, List.getLast?_cons_cons]
  exact Iff.rfl

theorem ends_numberTail (last : Char) (cs : List Char) : Ends (last :: numberTail last cs) (afterNumber last cs) := by
  induction cs generalizing last with
  | nil => exact ends_nil _
  | cons c cs ih =>
    rw [numberTail, afterNumber]
    by_cases hc : continues last c = true
    · rw [if_pos hc, if_pos hc, ends_cons_cons]
      exact ih c
    · rw [if_neg hc, if_neg hc, ends_singleton_iff]
      simpa using hc

theorem numberTail_numberTail (last : Char) (cs : List Char) : numberTail last (numberTail last cs) = numberTail last cs := by
  induction cs generalizing last with
  | nil => rfl
  | cons c cs ih =>
    rw [numberTail]
    by_cases hc : continues last c = true
    · rw [if_pos hc, numberTail, if_pos hc, ih]
    · rw [if_neg hc, numberTail]

theorem numberTail_append_of_ends (h : numberTail last cs = cs) (hends : Ends (last :: cs) rest) :
    numberTail last (cs ++ rest) = cs := by
  induction cs generalizing last with
  | nil =>
    cases rest with
    | nil => rfl
    | cons c rest => rw [List.nil_append, numberTail, ends_singleton_iff.mp hends, if_neg Bool.false_ne_true]
  | cons c cs ih =>
    rw [numberTail] at h
    by_cases hc : continues last c = true
    · rw [if_pos hc] at h
      rw [List.cons_append, numberTail, if_pos hc, ih (List.cons.inj h).2 (ends_cons_cons.mp hends)]
    · rw [if_neg hc] at h
      cases h

/-! ## Single tokens -/

/-- Where a token stands, reading takes that token and goes on after it. -/
theorem ofChars_of_stands (h : t.Stands rest) : ofChars (t.chars ++ rest) = t :: ofChars rest := by
  cases t with
  | command letter => exact ofChars_letter h rest
  | number text =>
    obtain ⟨hshape, hends⟩ := h
    rw [chars]
    cases htext : text.toList with
    | nil => exact absurd htext hshape.ne_nil
    | cons c cs =>
      rw [htext] at hshape hends
      obtain ⟨hs, ha, htail⟩ := isNumberText_iff.mp hshape
      have hcut : numberTail c (cs ++ rest) = cs := numberTail_append_of_ends htail hends
      have hafter : afterNumber c (cs ++ rest) = rest := by
        have happend := numberTail_append_afterNumber c (cs ++ rest)
        rw [hcut] at happend
        exact List.append_cancel_left happend
      rw [List.cons_append, ofChars_number hs ha, hcut, hafter, ← htext, String.ofList_toList]

/-- A token has characters, and none of them is a separator. -/
theorem Stands.chars_spec (h : t.Stands rest) : t.chars ≠ [] ∧ ∀ c ∈ t.chars, isSeparator c = false := by
  cases t with
  | command letter =>
    refine ⟨List.cons_ne_nil letter [], fun c hc => ?_⟩
    rw [List.mem_singleton.mp hc]
    exact isSeparator_of_isAlpha h
  | number text => exact ⟨h.1.ne_nil, h.1.separators⟩

end Token

/-- Separators, and tokens with the separators after each of them. -/
structure Dissection where
  gap : List Char
  items : List (Token × List Char)

namespace Dissection

def tokens (d : Dissection) : List Token := d.items.map (·.1)

/-- The text that is taken apart. -/
def text (d : Dissection) : List Char := d.gap ++ d.items.flatMap fun (t, gap) => t.chars ++ gap

structure IsOf (d : Dissection) (cs : List Char) : Prop where
  text_eq : d.text = cs
  isGap : IsGap d.gap
  isGap_after : ∀ item ∈ d.items, IsGap item.2
  stands : ∀ before t gap after, d.items = before ++ (t, gap) :: after → t.Stands (text ⟨gap, after⟩)

variable {gap gap' cs : List Char} {t : Token} {items : List (Token × List Char)}

theorem text_cons : text ⟨gap, (t, gap') :: items⟩ = gap ++ (t.chars ++ text ⟨gap', items⟩) := by
  simp [text]

/-- A dissection with a token is a gap, the token, and the dissection of what comes after it. -/
theorem isOf_cons_iff : IsOf ⟨gap, (t, gap') :: items⟩ cs ↔
    IsGap gap ∧ t.Stands (text ⟨gap', items⟩) ∧ cs = gap ++ (t.chars ++ text ⟨gap', items⟩) ∧
      IsOf ⟨gap', items⟩ (text ⟨gap', items⟩) := by
  constructor
  · intro h
    refine ⟨h.isGap, h.stands [] t gap' items rfl, by rw [← h.text_eq, text_cons],
      ⟨rfl, h.isGap_after _ List.mem_cons_self, ?_, ?_⟩⟩
    · exact fun item hi => h.isGap_after item (List.mem_cons_of_mem _ hi)
    · intro before t' gap after hsplit
      have hitems : items = before ++ (t', gap) :: after := hsplit
      exact h.stands ((t, gap') :: before) t' gap after (by rw [hitems, List.cons_append])
  · rintro ⟨hgap, hstands, htext, hrest⟩
    refine ⟨by rw [text_cons, htext], hgap, ?_, ?_⟩
    · intro item hi
      rcases List.mem_cons.mp hi with rfl | hi
      · exact hrest.isGap
      · exact hrest.isGap_after item hi
    · intro before t' gap after hsplit
      cases before with
      | nil =>
        cases hsplit
        exact hstands
      | cons item before =>
        cases hsplit
        exact hrest.stands before t' gap after rfl

theorem isOf_nil_iff : IsOf ⟨gap, []⟩ cs ↔ IsGap gap ∧ cs = gap := by
  constructor
  · intro h
    refine ⟨h.isGap, ?_⟩
    rw [← h.text_eq]
    exact List.append_nil gap
  · rintro ⟨hgap, rfl⟩
    refine ⟨List.append_nil cs, hgap, (fun _ hi => nomatch hi), fun before t gap after hsplit => ?_⟩
    cases before <;> cases hsplit

end Dissection

/-! ## All of a text -/

namespace Dissection

variable {d d' : Dissection} {gap cs rest : List Char} {t : Token} {items : List (Token × List Char)}

theorem IsOf.gap_eq (h : IsOf d cs) : d.gap = cs.takeWhile isSeparator := by
  obtain ⟨gap, items⟩ := d
  cases items with
  | nil =>
    obtain ⟨hgap, rfl⟩ := isOf_nil_iff.mp h
    rw [← List.append_nil cs, List.takeWhile_append_of_pos hgap, List.takeWhile_nil]
  | cons item items =>
    obtain ⟨hgap, hstands, rfl, -⟩ := isOf_cons_iff.mp h
    obtain ⟨hne, hchars⟩ := hstands.chars_spec
    obtain ⟨c, cs, hcs⟩ := List.exists_cons_of_ne_nil hne
    have hc : isSeparator c = false := hchars c (by simp [hcs])
    rw [List.takeWhile_append_of_pos hgap, hcs, List.cons_append, List.takeWhile_cons_of_neg (by simp [hc]),
      List.append_nil]

/-- The tokens of a dissection are those that reading gives. -/
theorem IsOf.tokens_eq (h : IsOf d cs) : d.tokens = Token.ofChars cs := by
  obtain ⟨gap, items⟩ := d
  induction items generalizing gap cs with
  | nil =>
    obtain ⟨hgap, rfl⟩ := isOf_nil_iff.mp h
    exact (Token.ofChars_of_gap hgap).symm
  | cons item items ih =>
    obtain ⟨hgap, hstands, rfl, hrest⟩ := isOf_cons_iff.mp h
    rw [Token.ofChars_gap hgap, Token.ofChars_of_stands hstands, ← ih _ hrest]
    rfl

/-- What is not a separator stands in the tokens, all of it and once. -/
theorem IsOf.filter_eq (h : IsOf d cs) : cs.filter (!isSeparator ·) = d.tokens.flatMap Token.chars := by
  have hgaps : ∀ {gap : List Char}, IsGap gap → gap.filter (!isSeparator ·) = [] := fun hgap =>
    List.filter_eq_nil_iff.mpr fun c hc => by simp [hgap c hc]
  obtain ⟨gap, items⟩ := d
  induction items generalizing gap cs with
  | nil =>
    obtain ⟨hgap, rfl⟩ := isOf_nil_iff.mp h
    exact hgaps hgap
  | cons item items ih =>
    obtain ⟨hgap, hstands, rfl, hrest⟩ := isOf_cons_iff.mp h
    have hchars : item.1.chars.filter (!isSeparator ·) = item.1.chars :=
      List.filter_eq_self.mpr fun c hc => by simp [hstands.chars_spec.2 c hc]
    rw [List.filter_append, List.filter_append, hgaps hgap, hchars, ih _ hrest]
    rfl

theorem IsOf.items_unique {items' : List (Token × List Char)} (h : IsOf ⟨gap, items⟩ cs) (h' : IsOf ⟨gap, items'⟩ cs) :
    items' = items := by
  have htokens : items'.map (·.1) = items.map (·.1) := h'.tokens_eq.trans h.tokens_eq.symm
  induction items generalizing gap items' cs with
  | nil => exact List.map_eq_nil_iff.mp htokens
  | cons item items ih =>
    cases items' with
    | nil => cases htokens
    | cons item' items' =>
      obtain ⟨-, -, htext, hrest⟩ := isOf_cons_iff.mp h
      obtain ⟨-, -, htext', hrest'⟩ := isOf_cons_iff.mp h'
      obtain ⟨hfirst, htail⟩ : item'.1 = item.1 ∧ items'.map (·.1) = items.map (·.1) := List.cons.inj htokens
      have hsame : text ⟨item'.2, items'⟩ = text ⟨item.2, items⟩ := by
        have happend := List.append_cancel_left (htext'.symm.trans htext)
        rw [hfirst] at happend
        exact List.append_cancel_left happend
      rw [hsame] at hrest'
      have hgap : item'.2 = item.2 := hrest'.gap_eq.trans hrest.gap_eq.symm
      rw [hgap] at hrest'
      rw [ih hrest hrest' htail, Prod.ext hfirst hgap]

/-- A text has no second dissection. -/
theorem IsOf.unique (h : IsOf d cs) (h' : IsOf d' cs) : d' = d := by
  obtain ⟨gap, items⟩ := d
  obtain ⟨gap', items'⟩ := d'
  obtain rfl : gap' = gap := h'.gap_eq.trans h.gap_eq.symm
  rw [h.items_unique h']

/-! ## Taking apart -/

theorem IsOf.cons_gap {c : Char} (h : IsOf ⟨gap, items⟩ cs) (hc : isSeparator c = true) : IsOf ⟨c :: gap, items⟩ (c :: cs) := by
  refine ⟨by rw [← h.text_eq, text, text, List.cons_append], ?_, h.isGap_after, h.stands⟩
  intro d hd
  rcases List.mem_cons.mp hd with rfl | hd
  · exact hc
  · exact h.isGap d hd

theorem IsOf.cons_token (h : IsOf ⟨gap, items⟩ rest) (hstands : t.Stands rest) :
    IsOf ⟨[], (t, gap) :: items⟩ (t.chars ++ rest) := by
  obtain rfl := h.text_eq
  exact isOf_cons_iff.mpr ⟨isGap_nil, hstands, rfl, h⟩

theorem exists_isOf (cs : List Char) : ∃ d, IsOf d cs := by
  fun_induction Token.ofChars cs with
  | case1 => exact ⟨⟨[], []⟩, isOf_nil_iff.mpr ⟨isGap_nil, rfl⟩⟩
  | case2 c cs hs ih =>
    obtain ⟨d, hd⟩ := ih
    exact ⟨_, hd.cons_gap hs⟩
  | case3 c cs hs ha ih =>
    obtain ⟨d, hd⟩ := ih
    exact ⟨_, hd.cons_token (t := .command c) ha⟩
  | case4 c cs hs ha ih =>
    obtain ⟨d, hd⟩ := ih
    have hchars : (String.ofList (c :: Token.numberTail c cs)).toList = c :: Token.numberTail c cs := String.toList_ofList
    have hstands : (Token.number (String.ofList (c :: Token.numberTail c cs))).Stands (Token.afterNumber c cs) := by
      rw [Token.Stands, hchars, Token.isNumberText_iff]
      exact ⟨⟨by simpa using hs, by simpa using ha, Token.numberTail_numberTail c cs⟩, Token.ends_numberTail c cs⟩
    have hdissect := hd.cons_token hstands
    rw [Token.chars, hchars, List.cons_append, Token.numberTail_append_afterNumber] at hdissect
    exact ⟨_, hdissect⟩

end Dissection

/-- A scanner takes the tokens of a text without cutting a character. They are those of the text's one
dissection into separators and tokens that stand, and hold each character that is not a separator once. -/
theorem ofString_dissects (source : String) :
    Scanner.Yields ⟨source, 0⟩ (Token.ofString source) ∧
      (∃ d : Dissection, d.IsOf source.toList ∧ d.tokens = Token.ofString source ∧
        ∀ d' : Dissection, d'.IsOf source.toList → d' = d) ∧
      source.toList.filter (!isSeparator ·) = (Token.ofString source).flatMap Token.chars := by
  obtain ⟨d, hd⟩ := Dissection.exists_isOf source.toList
  refine ⟨Scanner.yields_tokens source, ⟨d, hd, hd.tokens_eq, fun d' hd' => hd.unique hd'⟩, ?_⟩
  rw [hd.filter_eq, hd.tokens_eq]
  rfl

/-- Letters that are not ASCII belong to numbers. -/
example : Token.ofString "M1é2,e" = [.command 'M', .number "1é2", .command 'e'] := by decide +kernel

end VectorRaster.Path
