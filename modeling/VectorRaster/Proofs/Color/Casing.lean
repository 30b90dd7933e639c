/-
  VectorRaster.Proofs.Color.Casing — what the case of letters says in a colour.

  A value is a keyword, a colour in `#` notation or a name. Digits and names are read in lower case, so these two
  ways do not tell letters from capitals (`ofHex?_lower`, `named?_lower`); nor does cutting blanks off. The
  keywords `none` and `transparent` are compared as they are written. A capital in one makes it a name, and no
  colour has that name.

  Main statement: `read_ignoring_case`. Values that differ in the case of letters only are read alike, unless just
  one of them is a keyword; that one is the colour `none` and the other one is an error.
-/

import Mathlib.Data.String.Basic
import VectorRaster.Document.Attribute

namespace VectorRaster

/-! ## Characters -/

/-- The code of a letter in lower case; only the capitals of ASCII have another one. -/
theorem toNat_toLower (c : Char) :
    c.toLower.toNat = if 65 ≤ c.toNat ∧ c.toNat ≤ 90 then c.toNat + 32 else c.toNat := by
  have hcapital : (c.val ≥ 'A'.val ∧ c.val ≤ 'Z'.val) ↔ 65 ≤ c.toNat ∧ c.toNat ≤ 90 := Iff.rfl
  unfold Char.toLower
  split
  · rename_i h
    have hcode := hcapital.mp h
    have hsum : (c.val + ('a'.val - 'A'.val)).toNat = (c.toNat + 32) % 4294967296 := UInt32.toNat_add _ _
    rw [if_pos hcode, Char.toNat, hsum]
    omega
  · rename_i h
    rw [if_neg (mt hcapital.mpr h)]

theorem toLower_toLower (c : Char) : c.toLower.toLower = c.toLower := by
  rw [← Char.toNat_inj, toNat_toLower c.toLower, toNat_toLower c]
  by_cases h : 65 ≤ c.toNat ∧ c.toNat ≤ 90
  · rw [if_pos h, if_neg (by omega)]
  · rw [if_neg h, if_neg h]

namespace Text

theorem isBlank_toLower (c : Char) : isBlank c.toLower = isBlank c := by
  rw [Bool.eq_iff_iff]
  simp only [isBlank, toNat_toLower, Bool.or_eq_true, Bool.and_eq_true, decide_eq_true_eq, beq_iff_eq]
  split <;> omega

theorem trim_lower (cs : List Char) : trim (cs.map Char.toLower) = (trim cs).map Char.toLower := by
  have hblank : isBlank ∘ Char.toLower = isBlank := funext isBlank_toLower
  simp only [trim, List.dropWhile_map, hblank, ← List.map_reverse]

end Text

namespace Color

variable {a b value : String}

/-! ## Digits and names -/

/-- A digit by its code. -/
theorem hexDigit?_eq (c : Char) : hexDigit? c =
    if 48 ≤ c.toNat ∧ c.toNat ≤ 57 then some (c.toNat - 48).toUInt8
    else if 97 ≤ c.toNat ∧ c.toNat ≤ 102 then some (c.toNat - 97 + 10).toUInt8
    else if 65 ≤ c.toNat ∧ c.toNat ≤ 70 then some (c.toNat - 65 + 10).toUInt8
    else Option.none := by
  simp [hexDigit?, Char.isDigit, Char.le_def, UInt32.le_iff_toNat_le]

theorem hexDigit?_toLower (c : Char) : hexDigit? c.toLower = hexDigit? c := by
  rw [hexDigit?_eq, hexDigit?_eq, toNat_toLower]
  by_cases h : 65 ≤ c.toNat ∧ c.toNat ≤ 90
  · rw [if_pos h, if_neg (by omega), if_neg (by omega : ¬ (48 ≤ c.toNat ∧ c.toNat ≤ 57)),
      if_neg (by omega : ¬ (97 ≤ c.toNat ∧ c.toNat ≤ 102)), if_neg (by omega : ¬ (65 ≤ c.toNat + 32 ∧ c.toNat + 32 ≤ 70))]
    by_cases hf : c.toNat ≤ 70
    · rw [if_pos (by omega), if_pos (by omega), show c.toNat + 32 - 97 = c.toNat - 65 by omega]
    · rw [if_neg (by omega), if_neg (by omega)]
  · rw [if_neg h]

theorem toLower_eq_hash_iff (c : Char) : c.toLower = '#' ↔ c = '#' := by
  simp only [← Char.toNat_inj, toNat_toLower]
  have hhash : '#'.toNat = 35 := rfl
  split <;> omega

theorem mapM_hexDigit?_lower (cs : List Char) : (cs.map Char.toLower).mapM hexDigit? = cs.mapM hexDigit? := by
  induction cs with
  | nil => rfl
  | cons c cs ih => rw [List.map_cons, List.mapM_cons, List.mapM_cons, ih, hexDigit?_toLower]

/-- The case of digits does not count. -/
theorem ofHex?_lower (cs : List Char) : ofHex? (cs.map Char.toLower) = ofHex? cs := by
  cases cs with
  | nil => rfl
  | cons c digits =>
    by_cases hc : c = '#'
    · subst hc
      exact congrArg (· >>= ofDigits?) (mapM_hexDigit?_lower digits)
    · have hlower : c.toLower ≠ '#' := mt (toLower_eq_hash_iff c).mp hc
      simp [ofHex?, hc, hlower]

/-- The case of letters in a name does not count. -/
theorem named?_lower (cs : List Char) : named? (.ofList (cs.map Char.toLower)) = named? (.ofList cs) := by
  have htwice : Char.toLower ∘ Char.toLower = Char.toLower := funext toLower_toLower
  simp only [named?, String.toList_ofList, List.map_map, htwice]

/-! ## Values -/

/-- A value without the blanks around it. -/
def word (value : String) : List Char := Text.trim value.toList

/-- The value is a keyword, in lower case as it must be. -/
def IsKeyword (value : String) : Prop := word value = "none".toList ∨ word value = "transparent".toList

instance (value : String) : Decidable (IsKeyword value) := inferInstanceAs (Decidable (_ ∨ _))

/-- The colour of a text in lower case, read as digits or as a name. -/
def ofLower? (cs : List Char) : Option Color := if cs.head? = some '#' then ofHex? cs else named? (.ofList cs)

/-- Apart from the keywords, a value is read in lower case. -/
theorem parse?_eq (value : String) :
    parse? value = if IsKeyword value then some none else ofLower? ((word value).map Char.toLower) := by
  have hkeyword : (String.ofList (word value) == "none" || String.ofList (word value) == "transparent") = true
      ↔ IsKeyword value := by
    simp only [Bool.or_eq_true, beq_iff_eq, IsKeyword, String.ofList_eq]
  have hhead : ((word value).map Char.toLower).head? = some '#' ↔ (word value).head? = some '#' := by
    cases word value <;> simp [toLower_eq_hash_iff]
  simp only [parse?, ofLower?, hhead, ofHex?_lower, named?_lower, beq_iff_eq]
  exact if_congr hkeyword rfl rfl

/-- No colour has the name of a keyword. -/
theorem ofLower?_keyword : ofLower? "none".toList = Option.none ∧ ofLower? "transparent".toList = Option.none := by
  decide +kernel

theorem ofLower?_of_isKeyword (h : IsKeyword value) : ofLower? ((word value).map Char.toLower) = Option.none := by
  rcases h with h | h <;> rw [h]
  · exact ofLower?_keyword.1
  · exact ofLower?_keyword.2

/-- Values that differ in case only are the same in lower case. -/
theorem lower_word_eq (h : Text.sameIgnoringCase a b = true) :
    (word a).map Char.toLower = (word b).map Char.toLower := by
  rw [Text.sameIgnoringCase, beq_iff_eq] at h
  rw [word, word, ← Text.trim_lower, ← Text.trim_lower, h]

/-! ## Values alike -/

/-- Both values are the same colour, or neither is a colour. -/
def ReadAlike (a b : String) : Prop := ∀ c, Attribute.color a = .ok c ↔ Attribute.color b = .ok c

theorem color_of_parse? {c : Color} (h : parse? value = some c) : Attribute.color value = .ok c := by
  simp only [Attribute.color, h]

theorem color_of_parse?_eq_none (h : parse? value = Option.none) :
    Attribute.color value = .error (.unknownColor (.ofList (word value))) := by
  simp only [Attribute.color, h, word]

theorem color_eq_ok_iff {c : Color} : Attribute.color value = .ok c ↔ parse? value = some c := by
  cases h : parse? value with
  | none => simp [color_of_parse?_eq_none h]
  | some c' => simp [color_of_parse? h]

theorem readAlike_iff : ReadAlike a b ↔ parse? a = parse? b := by
  simp only [ReadAlike, color_eq_ok_iff]
  exact Option.ext_iff.symm

/-- The case of letters does not count in names and digits. It counts in the keywords: values that differ in case
only are read alike exactly if both are keywords as they are written, or neither is. A keyword is the colour `none`,
and what differs from it in case is an error. -/
theorem read_ignoring_case (h : Text.sameIgnoringCase a b = true) :
    named? a = named? b ∧ ofHex? a.toList = ofHex? b.toList ∧ (ReadAlike a b ↔ (IsKeyword a ↔ IsKeyword b)) ∧
    (IsKeyword a → ¬IsKeyword b → Attribute.color a = .ok none ∧
      Attribute.color b = .error (.unknownColor (.ofList (word b)))) := by
  have hlower : a.toList.map Char.toLower = b.toList.map Char.toLower := beq_iff_eq.mp h
  have hword := lower_word_eq h
  refine ⟨?_, ?_, ?_, ?_⟩
  · rw [← String.ofList_toList (s := a), ← named?_lower, hlower, named?_lower, String.ofList_toList]
  · rw [← ofHex?_lower, hlower, ofHex?_lower]
  · rw [readAlike_iff, parse?_eq a, parse?_eq b]
    by_cases ha : IsKeyword a
    · by_cases hb : IsKeyword b
      · simp [ha, hb]
      · simp [ha, hb, ← hword, ofLower?_of_isKeyword ha]
    · by_cases hb : IsKeyword b
      · simp [ha, hb, hword, ofLower?_of_isKeyword hb]
      · simp [ha, hb, hword]
  · intro ha hb
    refine ⟨color_of_parse? ?_, color_of_parse?_eq_none ?_⟩
    · rw [parse?_eq, if_pos ha]
    · rw [parse?_eq, if_neg hb, ← hword, ofLower?_of_isKeyword ha]

theorem read_ignoring_case_cornflower : Text.sameIgnoringCase "CornflowerBlue " "cornflowerBLUE " = true ∧
    ReadAlike "CornflowerBlue " "cornflowerBLUE " ∧ Attribute.color "cornflowerBLUE " = .ok (ofBytes 100 149 237) := by
  have hcase : Text.sameIgnoringCase "CornflowerBlue " "cornflowerBLUE " = true := by decide +kernel
  have hkeyword : IsKeyword "CornflowerBlue " ↔ IsKeyword "cornflowerBLUE " := by decide +kernel
  have halike := (read_ignoring_case hcase).2.2.1.mpr hkeyword
  have hcolor : parse? "CornflowerBlue " = some (ofBytes 100 149 237) := by decide +kernel
  exact ⟨hcase, halike, (halike _).mp (color_of_parse? hcolor)⟩

/-- In capitals, `none` is not read. -/
theorem keyword_in_capitals : Text.sameIgnoringCase "none" "NONE" = true ∧ Attribute.color "none" = .ok none ∧
    Attribute.color "NONE" = .error (.unknownColor "NONE") ∧ ¬ReadAlike "none" "NONE" := by
  have hlower : Attribute.color "none" = .ok none := color_of_parse? (by decide +kernel)
  have hcapitals : Attribute.color "NONE" = .error (.unknownColor "NONE") :=
    color_of_parse?_eq_none (by decide +kernel)
  refine ⟨by decide +kernel, hlower, hcapitals, ?_⟩
  intro halike
  cases hcapitals.symm.trans ((halike none).mp hlower)

end Color

end VectorRaster
