/-
  VectorRaster.Proofs.Path.Scanning — tokens taken one at a time from a text, by byte positions.

  A scanner holds the text and the byte it has come to. For each token it skips separators, and takes
  a letter or looks for the byte that a number ends before; whether a letter is the exponent of a
  number it tells by a slice of what it has seen of the number. All its slices are named by bytes, so
  each of them could fall inside a character.

  None does, in any text: its positions are counted off in whole characters (`At`). It gives the
  tokens of the text, in order, and then ends (`yields_tokens`).
-/

import VectorRaster.Proofs.Path.Lexing
import VectorRaster.Proofs.Text.Slices

namespace VectorRaster.Path

open Text
open String (utf8Len)

theorem isGap_nil : IsGap [] := fun _ hc => nomatch hc

structure Scanner where
  source : String
  /-- In bytes. -/
  position : Nat

namespace Scanner

/-! ## Taking tokens -/

/-- Whether `c`, which begins at byte `index`, is the exponent of the number that begins at byte `start`. -/
def isExponent? (s : Scanner) (start index : Nat) (c : Char) : Option Bool :=
  if (c != 'e' && c != 'E') || index == start then some false
  else do
    let seen ← slice? s.source start index
    return seen.toList.getLast?.any fun last => last.isDigit || last == '.'

/-- The byte that the number from byte `start` on ends before. After its first, it could go on with `chars`. -/
def numberEnd? (s : Scanner) (start : Nat) : (chars : List (Nat × Char)) → Option Nat
  | [] => some s.source.utf8ByteSize
  | (offset, c) :: chars =>
    if isSeparator c then some (start + offset)
    else if c.isAlpha then do
      if ← s.isExponent? start (start + offset) c then s.numberEnd? start chars else return start + offset
    else s.numberEnd? start chars

/-- The token that begins at byte `start`, and the scanner after it. -/
def tokenAt? (s : Scanner) (start : Nat) : Option (Option (Token × Scanner)) := do
  let rest ← slice? s.source start s.source.utf8ByteSize
  match indexed 0 rest.toList with
  | [] => return none
  | (_, first) :: chars =>
    if first.isAlpha then return some (.command first, ⟨s.source, start + first.utf8Size⟩)
    else
      let stop ← s.numberEnd? start chars
      return some (.number (← slice? s.source start stop), ⟨s.source, stop⟩)

/-- The next token and the scanner after it, or nothing at the end. None, if a slice falls inside a character. -/
def next? (s : Scanner) : Option (Option (Token × Scanner)) := do
  let remaining ← slice? s.source s.position s.source.utf8ByteSize
  match firstByte? (!isSeparator ·) remaining with
  | none => return none
  | some skipped => s.tokenAt? (s.position + skipped)

/-- The scanner gives these tokens and then ends, and no slice on the way falls inside a character. -/
inductive Yields : Scanner → List Token → Prop
  | finish {s : Scanner} : s.next? = some none → Yields s []
  | token {s after : Scanner} {t : Token} {ts : List Token} : s.next? = some (some (t, after)) → Yields after ts →
      Yields s (t :: ts)

/-! ## Positions between characters -/

/-- The scanner has come to between these characters of its source. -/
structure At (s : Scanner) (before rest : List Char) : Prop where
  source : s.source.toList = before ++ rest
  position : s.position = utf8Len before

variable {s : Scanner} {before gap rest cs : List Char} {c last : Char}

theorem isExponent?_eq {run : List Char} (h : s.source.toList = before ++ (run ++ [last] ++ rest)) (c : Char) :
    s.isExponent? (utf8Len before) (utf8Len before + utf8Len (run ++ [last])) c
      = some ((c == 'e' || c == 'E') && (last.isDigit || last == '.')) := by
  have hpos : 0 < utf8Len (run ++ [last]) := by
    rw [String.utf8Len_append, String.utf8Len_cons]
    have := last.utf8Size_pos
    omega
  have hne : (utf8Len before + utf8Len (run ++ [last]) == utf8Len before) = false := by
    rw [beq_eq_false_iff_ne]
    omega
  unfold isExponent?
  rw [hne, Bool.or_false, slice?_of_toList_eq h]
  by_cases hc : c = 'e' ∨ c = 'E'
  · rcases hc with rfl | rfl <;> simp
  · have he : c ≠ 'e' := fun e => hc (.inl e)
    have hE : c ≠ 'E' := fun e => hc (.inr e)
    simp [he, hE]

/-- A number ends where no character goes it on. The induction is on what is left of the source; what was
seen of the number grows. -/
theorem numberEnd?_eq {run : List Char} (h : s.source.toList = before ++ (run ++ [last] ++ cs)) :
    s.numberEnd? (utf8Len before) (indexed (utf8Len (run ++ [last])) cs)
      = some (utf8Len before + utf8Len (run ++ [last] ++ Token.numberTail last cs)) := by
  induction cs generalizing run last with
  | nil =>
    rw [indexed, numberEnd?, ← String.utf8Len_toList, h, String.utf8Len_append, Token.numberTail]
  | cons c cs ih =>
    have hnext : s.numberEnd? (utf8Len before) (indexed (utf8Len (run ++ [last]) + c.utf8Size) cs)
        = some (utf8Len before + utf8Len (run ++ [last] ++ c :: Token.numberTail c cs)) := by
      have hgrown : s.source.toList = before ++ (run ++ [last] ++ [c] ++ cs) := by
        rw [h, List.append_assoc _ [c], List.singleton_append]
      have hseen := ih hgrown
      have hlen : utf8Len (run ++ [last]) + c.utf8Size = utf8Len (run ++ [last] ++ [c]) := by
        rw [String.utf8Len_append _ [c], String.utf8Len_cons c [], String.utf8Len_nil, Nat.zero_add]
      rw [hlen, hseen, List.append_assoc _ [c], List.singleton_append]
    rw [indexed, numberEnd?, isExponent?_eq h]
    by_cases hs : isSeparator c = true
    · have hstop : Token.continues last c = false := by simp [Token.continues, hs]
      rw [if_pos hs, Token.numberTail, hstop, if_neg Bool.false_ne_true, List.append_nil]
    · rw [if_neg hs]
      by_cases ha : c.isAlpha = true
      · rw [if_pos ha, Option.bind_eq_bind, Option.bind_some]
        by_cases he : ((c == 'e' || c == 'E') && (last.isDigit || last == '.')) = true
        · have hgo : Token.continues last c = true := by simp [Token.continues, hs, he]
          rw [if_pos he, hnext, Token.numberTail, if_pos hgo]
        · have hstop : Token.continues last c = false := by simp [Token.continues, ha, he]
          rw [if_neg he, Token.numberTail, hstop, if_neg Bool.false_ne_true, List.append_nil]
          rfl
      · have hgo : Token.continues last c = true := by simp [Token.continues, hs, ha]
        rw [if_neg ha, hnext, Token.numberTail, if_pos hgo]

/-! ## Steps -/

theorem isSeparator_of_isGap (h : IsGap gap) : ∀ c ∈ gap, (!isSeparator c) = false := by
  intro c hc
  rw [h c hc]
  rfl

theorem next?_of_gap (hat : s.At before gap) (h : IsGap gap) : s.next? = some none := by
  unfold next?
  rw [hat.position, slice?_to_end hat.source, Option.bind_eq_bind, Option.bind_some,
    firstByte?_eq_none (isSeparator_of_isGap h)]
  rfl

theorem next?_of_not_isSeparator (hat : s.At before (gap ++ c :: cs)) (h : IsGap gap) (hs : isSeparator c = false) :
    s.next? = s.tokenAt? (utf8Len (before ++ gap)) := by
  have hskip : firstByte? (!isSeparator ·) (String.ofList (gap ++ c :: cs)) = some (utf8Len gap) :=
    firstByte?_eq_some (isSeparator_of_isGap h) (by rw [hs]; rfl)
  unfold next?
  rw [hat.position, slice?_to_end hat.source, Option.bind_eq_bind, Option.bind_some, hskip, String.utf8Len_append]

theorem next?_letter (hat : s.At before (gap ++ c :: rest)) (h : IsGap gap) (ha : c.isAlpha = true) :
    ∃ after, s.next? = some (some (.command c, after)) ∧ after.At (before ++ gap ++ [c]) rest := by
  have hsource : s.source.toList = before ++ gap ++ (c :: rest) := by rw [hat.source, List.append_assoc]
  refine ⟨⟨s.source, utf8Len (before ++ gap) + c.utf8Size⟩, ?_, ?_, ?_⟩
  · rw [next?_of_not_isSeparator hat h (isSeparator_of_isAlpha ha), tokenAt?, slice?_to_end hsource, Option.bind_eq_bind,
      Option.bind_some, String.toList_ofList, indexed]
    simp only [ha, if_true]
    rfl
  · rw [hsource, List.append_assoc _ [c], List.singleton_append]
  · rw [String.utf8Len_append _ [c], String.utf8Len_cons c [], String.utf8Len_nil, Nat.zero_add]

theorem next?_number (hat : s.At before (gap ++ c :: cs)) (h : IsGap gap) (hs : isSeparator c = false)
    (ha : c.isAlpha = false) :
    ∃ after, s.next? = some (some (.number (String.ofList (c :: Token.numberTail c cs)), after)) ∧
      after.At (before ++ gap ++ c :: Token.numberTail c cs) (Token.afterNumber c cs) := by
  have hsource : s.source.toList = before ++ gap ++ (c :: cs) := by rw [hat.source, List.append_assoc]
  have hcut : s.source.toList = before ++ gap ++ (c :: Token.numberTail c cs ++ Token.afterNumber c cs) := by
    rw [hsource, List.cons_append, Token.numberTail_append_afterNumber]
  have hfirst : s.source.toList = before ++ gap ++ ([] ++ [c] ++ cs) := hsource
  have hend : s.numberEnd? (utf8Len (before ++ gap)) (indexed (0 + c.utf8Size) cs)
      = some (utf8Len (before ++ gap) + utf8Len (c :: Token.numberTail c cs)) := numberEnd?_eq hfirst
  refine ⟨⟨s.source, utf8Len (before ++ gap) + utf8Len (c :: Token.numberTail c cs)⟩, ?_, ?_, ?_⟩
  · rw [next?_of_not_isSeparator hat h hs, tokenAt?, slice?_to_end hsource, Option.bind_eq_bind, Option.bind_some,
      String.toList_ofList, indexed]
    simp only [ha, Bool.false_eq_true, if_false]
    rw [hend, Option.bind_eq_bind, Option.bind_some, slice?_of_toList_eq hcut]
    rfl
  · rw [hcut, List.append_assoc _ (c :: _)]
  · rw [String.utf8Len_append _ (c :: _)]

/-! ## Runs -/

/-- From between any two characters, a scanner gives the tokens of what is left. The induction is on
the reader of characters; the separators that it drops are kept, since a scanner skips them at once. -/
theorem yields_of_at (hat : s.At before (gap ++ rest)) (h : IsGap gap) : s.Yields (Token.ofChars rest) := by
  fun_induction Token.ofChars rest generalizing s before gap with
  | case1 =>
    rw [List.append_nil] at hat
    exact .finish (next?_of_gap hat h)
  | case2 c cs hs ih =>
    have hat' : s.At before (gap ++ [c] ++ cs) := by rwa [List.append_assoc, List.singleton_append]
    refine ih hat' fun d hd => ?_
    rcases List.mem_append.mp hd with hd | hd
    · exact h d hd
    · rwa [List.mem_singleton.mp hd]
  | case3 c cs hs ha ih =>
    obtain ⟨after, hnext, hafter⟩ := next?_letter hat h ha
    exact .token hnext (ih (show after.At _ ([] ++ cs) from hafter) isGap_nil)
  | case4 c cs hs ha ih =>
    obtain ⟨after, hnext, hafter⟩ := next?_number hat h (by simpa using hs) (by simpa using ha)
    exact .token hnext (ih (show after.At _ ([] ++ Token.afterNumber c cs) from hafter) isGap_nil)

theorem yields_tokens (source : String) : Yields ⟨source, 0⟩ (Token.ofString source) :=
  yields_of_at (show At ⟨source, 0⟩ [] ([] ++ source.toList) from ⟨rfl, rfl⟩) isGap_nil

end Scanner

end VectorRaster.Path
