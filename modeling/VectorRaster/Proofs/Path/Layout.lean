/-
  VectorRaster.Proofs.Path.Layout — the ways to write commands, all of which are read back.

  A command is written as its letter and its parameters. Each parameter can be any text with its
  value. Between two numbers there is a gap; elsewhere a gap may be left out. A command that repeats
  the kind and mode of the one before it can do without its letter (`Written`). Whatever the
  layout, reading gives back the commands (`parse_written`).

  The proof follows the layout: numbers become the tokens of parameters (`ofChars_writtenNumbers`),
  and what is written after a command is what the grammar lets follow it (`restAfter_written`).
-/

import VectorRaster.Proofs.Path.Checked
import VectorRaster.Proofs.Path.Grammar
import VectorRaster.Proofs.Path.Lexing

namespace VectorRaster.Path

open Numeric Text

/-! ## Layouts -/

/-- A text that says a number. -/
structure NumberText (x : Float) (text : List Char) : Prop extends Token.IsNumberText text where
  value_eq : float? text = some x

/-- The ways to write numbers one after another. Only the first of them can do without a gap, and
only if it need not be kept `apart` from what stands before. -/
inductive WrittenNumbers : (apart : Bool) → List Float → List Char → Prop
  | nil {apart : Bool} : WrittenNumbers apart [] []
  | cons {apart : Bool} {x : Float} {xs : List Float} {gap text rest : List Char} : IsGap gap →
      (apart = true → gap ≠ []) → NumberText x text → WrittenNumbers true xs rest →
      WrittenNumbers apart (x :: xs) (gap ++ (text ++ rest))

/-- The ways to write commands after one with the header `last`, or at the start. -/
inductive Written : (last : Option Header) → List Command → List Char → Prop
  | nil {last : Option Header} {gap : List Char} : IsGap gap → Written last [] gap
  | lettered {last : Option Header} {c : Command} {cs : List Command} {gap numbers rest : List Char} : IsGap gap →
      WrittenNumbers false c.parameters numbers → Written (some c.toHeader) cs rest →
      Written last (c :: cs) (gap ++ c.letter :: (numbers ++ rest))
  /-- Without its letter, a command repeats the one before. -/
  | repeated {c : Command} {cs : List Command} {numbers rest : List Char} : c.kind.arity ≠ 0 →
      WrittenNumbers true c.parameters numbers → Written (some c.toHeader) cs rest →
      Written (some c.toHeader) (c :: cs) (numbers ++ rest)

/-! ## Cuts -/

theorem Header.isAlpha_letter (h : Header) : h.letter.isAlpha = true ∧ h.letter ≠ 'e' ∧ h.letter ≠ 'E' := by
  obtain ⟨kind, mode⟩ := h
  cases kind <;> cases mode <;> decide

theorem breaks_numbers {xs : List Float} {numbers rest : List Char} (h : WrittenNumbers true xs numbers)
    (hrest : Breaks rest) : Breaks (numbers ++ rest) := by
  cases h with
  | nil => exact hrest
  | cons hgap hapart htext hnumbers =>
    rw [List.append_assoc]
    exact breaks_gap hgap fun hnil => absurd hnil (hapart rfl)

/-- What is written after a command goes on none of its numbers. -/
theorem Written.breaks {last : Option Header} {cs : List Command} {text : List Char} (h : Written last cs text) :
    Breaks text := by
  induction h with
  | nil hgap =>
    have hend : Breaks [] := fun c hc => by cases hc
    have hbreaks := breaks_gap hgap fun _ => hend
    rwa [List.append_nil] at hbreaks
  | @lettered last c cs gap numbers rest hgap hnumbers hrest ih =>
    refine breaks_gap hgap fun _ d hd => ?_
    cases hd
    exact .inr c.isAlpha_letter
  | repeated hpos hnumbers hrest ih => exact breaks_numbers hnumbers ih

/-! ## Reading -/

/-- Written numbers are read as parameters with their values. -/
theorem ofChars_writtenNumbers {apart : Bool} {xs : List Float} {numbers rest : List Char}
    (h : WrittenNumbers apart xs numbers) (hfinite : ∀ x ∈ xs, x.isFinite = true) (hrest : Breaks rest) :
    ∃ parameters : List Parameter, parameters.map Parameter.value = xs ∧
      Token.ofChars (numbers ++ rest) = parameters.map Parameter.token ++ Token.ofChars rest := by
  induction h with
  | nil => exact ⟨[], rfl, rfl⟩
  | @cons apart x xs gap text numbers hgap hapart htext hnumbers ih =>
    obtain ⟨parameters, hvalues, htokens⟩ := ih fun x hx => hfinite x (List.mem_cons_of_mem _ hx)
    have hvalue : finiteFloat? (String.ofList text).toList = some x := by
      rw [String.toList_ofList, finiteFloat?, htext.value_eq]
      simp [Option.filter, hfinite x List.mem_cons_self]
    refine ⟨⟨String.ofList text, x, hvalue⟩ :: parameters, by rw [List.map_cons, hvalues], ?_⟩
    rw [List.append_assoc, Token.ofChars_gap hgap, List.append_assoc,
      Token.ofChars_append (breaks_numbers hnumbers hrest), Token.ofChars_numberText htext.toIsNumberText, htokens]
    rfl

namespace Progress

theorem restWithin_written {c : Command} {cs : List Command} {apart : Bool} {numbers rest : List Char}
    (hc : c.check = .ok ()) (hfinite : ∀ x ∈ c.parameters, x.isFinite = true)
    (h : WrittenNumbers apart c.parameters numbers) (hrest : Breaks rest)
    (hcs : RestAfter c.toHeader (Token.ofChars rest) cs) :
    RestWithin c.toHeader [] (Token.ofChars (numbers ++ rest)) (c :: cs) := by
  obtain ⟨parameters, hvalues, htokens⟩ := ofChars_writtenNumbers h hfinite hrest
  have hlength := Command.check_eq_ok_iff.mp hc
  refine ⟨parameters, _, cs, ?_, hcs, htokens, ?_⟩
  · rw [← hvalues, List.length_map] at hlength
    simpa using hlength
  · rw [hvalues]
    rfl

/-- What is written after a command is what may follow it. -/
theorem restAfter_written {header : Header} {cs : List Command} {text : List Char}
    (h : Written (some header) cs text) (hc : ∀ c ∈ cs, c.check = .ok ())
    (hfinite : ∀ c ∈ cs, ∀ x ∈ c.parameters, x.isFinite = true) : RestAfter header (Token.ofChars text) cs := by
  generalize hlast : some header = last at h
  induction h generalizing header with
  | nil hgap =>
    rw [Token.ofChars_of_gap hgap]
    exact (rest_nil (p := complete header) trivial).mpr ⟨rfl, rfl⟩
  | @lettered last c cs gap numbers rest hgap hnumbers hrest ih =>
    have hafter := ih (fun c hm => hc c (List.mem_cons_of_mem _ hm)) (fun c hm => hfinite c (List.mem_cons_of_mem _ hm)) rfl
    rw [Token.ofChars_gap hgap, Token.ofChars_letter c.isAlpha_letter.1]
    exact restAfter_command.mpr ⟨c.toHeader, Header.ofLetter?_letter c.toHeader,
      restWithin_written (hc c List.mem_cons_self) (hfinite c List.mem_cons_self) hnumbers hrest.breaks hafter⟩
  | @repeated c cs numbers rest hpos hnumbers hrest ih =>
    have hafter := ih (fun c hm => hc c (List.mem_cons_of_mem _ hm)) (fun c hm => hfinite c (List.mem_cons_of_mem _ hm)) rfl
    cases hlast
    exact restAfter_of_restWithin hpos
      (restWithin_written (hc c List.mem_cons_self) (hfinite c List.mem_cons_self) hnumbers hrest.breaks hafter)

theorem rest_start_written {cs : List Command} {text : List Char} (h : Written none cs text)
    (hmove : ∀ c ∈ cs.head?, c.kind = .moveTo) (hc : ∀ c ∈ cs, c.check = .ok ())
    (hfinite : ∀ c ∈ cs, ∀ x ∈ c.parameters, x.isFinite = true) : start.Rest (Token.ofChars text) cs := by
  cases h with
  | nil hgap =>
    rw [Token.ofChars_of_gap hgap]
    exact (rest_nil (p := start) trivial).mpr ⟨rfl, rfl⟩
  | @lettered _ c cs gap numbers rest hgap hnumbers hrest =>
    have hafter := restAfter_written hrest (fun c hm => hc c (List.mem_cons_of_mem _ hm))
      fun c hm => hfinite c (List.mem_cons_of_mem _ hm)
    rw [Token.ofChars_gap hgap, Token.ofChars_letter c.isAlpha_letter.1]
    exact rest_start_command.mpr ⟨c.toHeader, Header.ofLetter?_letter c.toHeader, hmove c rfl,
      restWithin_written (hc c List.mem_cons_self) (hfinite c List.mem_cons_self) hnumbers hrest.breaks hafter⟩

end Progress

/-- Reading what is written gives the commands back, in whatever layout: commands that begin with a
move, pass the check and have finite parameters. -/
theorem parse_written {commands : List Command} {text : String} (hmove : ∀ c ∈ commands.head?, c.kind = .moveTo)
    (hc : ∀ c ∈ commands, c.check = .ok ()) (hfinite : ∀ c ∈ commands, ∀ x ∈ c.parameters, x.isFinite = true)
    (h : Written none commands text.toList) : parse text = .ok commands :=
  (Progress.commands_eq_ok_iff (p := .start) trivial).mpr (Progress.rest_start_written h hmove hc hfinite)

/-- Letters left out and numbers next to letters, with signs, exponents and bare points. -/
theorem parse_written_moves_and_lines :
    let commands : List Command := [⟨⟨.moveTo, .relative⟩, [1.0, 2.0]⟩, ⟨⟨.moveTo, .relative⟩, [-3.5, 4.0]⟩,
      ⟨⟨.lineTo, .absolute⟩, [5.0, 6.0]⟩, ⟨⟨.lineTo, .absolute⟩, [7.0, 8.0]⟩, ⟨⟨.closePath, .relative⟩, []⟩, .closePath]
    let text := " m1,2\n-3.5e0,+4.L.5E1 6.,7 8zZ,"
    Written none commands text.toList ∧ parse text = .ok commands := by
  intro commands text
  have htext : text.toList = [' ', 'm', '1', ',', '2', '\n', '-', '3', '.', '5', 'e', '0', ',', '+', '4', '.',
      'L', '.', '5', 'E', '1', ' ', '6', '.', ',', '7', ' ', '8', 'z', 'Z', ','] := by decide
  have hnumber : ∀ (x : Float) (c : Char) (cs : List Char), isSeparator c = false ∧ c.isAlpha = false ∧
      Token.numberTail c cs = cs → float? (c :: cs) = some x → NumberText x (c :: cs) :=
    fun x c cs hshape hvalue => ⟨Token.isNumberText_iff.mpr hshape, hvalue⟩
  have hpair : ∀ {apart : Bool} {x y : Float} {xs ys : List Char} (gap gap' : List Char),
      IsGap gap ∧ (apart = true → gap ≠ []) ∧ IsGap gap' ∧ gap' ≠ [] → NumberText x xs → NumberText y ys →
      WrittenNumbers apart [x, y] (gap ++ (xs ++ (gap' ++ (ys ++ [])))) :=
    fun gap gap' h hx hy => .cons h.1 h.2.1 hx (.cons h.2.2.1 (fun _ => h.2.2.2) hy .nil)
  have hnone : IsGap [] := by decide
  have hspace : IsGap [' '] := by decide
  have hcomma : IsGap [','] := by decide
  have hclose : Written (some ⟨.lineTo, .absolute⟩) [⟨⟨.closePath, .relative⟩, []⟩, .closePath] ['z', 'Z', ','] :=
    .lettered (c := ⟨⟨.closePath, .relative⟩, []⟩) hnone .nil (.lettered (c := .closePath) hnone .nil (.nil hcomma))
  have hlines : Written (some ⟨.moveTo, .relative⟩)
      [⟨⟨.lineTo, .absolute⟩, [5.0, 6.0]⟩, ⟨⟨.lineTo, .absolute⟩, [7.0, 8.0]⟩, ⟨⟨.closePath, .relative⟩, []⟩, .closePath]
      ['L', '.', '5', 'E', '1', ' ', '6', '.', ',', '7', ' ', '8', 'z', 'Z', ','] :=
    .lettered (c := ⟨⟨.lineTo, .absolute⟩, [5.0, 6.0]⟩) hnone
      (hpair [] [' '] (by decide) (hnumber 5.0 '.' ['5', 'E', '1'] (by decide) (by decide +kernel))
        (hnumber 6.0 '6' ['.'] (by decide) (by decide +kernel)))
      (.repeated (c := ⟨⟨.lineTo, .absolute⟩, [7.0, 8.0]⟩) (by decide)
        (hpair [','] [' '] (by decide) (hnumber 7.0 '7' [] (by decide) (by decide +kernel))
          (hnumber 8.0 '8' [] (by decide) (by decide +kernel))) hclose)
  have hwritten : Written none commands text.toList := by
    rw [htext]
    exact .lettered (c := ⟨⟨.moveTo, .relative⟩, [1.0, 2.0]⟩) hspace
      (hpair [] [','] (by decide) (hnumber 1.0 '1' [] (by decide) (by decide +kernel))
        (hnumber 2.0 '2' [] (by decide) (by decide +kernel)))
      (.repeated (c := ⟨⟨.moveTo, .relative⟩, [-3.5, 4.0]⟩) (by decide)
        (hpair ['\n'] [','] (by decide) (hnumber (-3.5) '-' ['3', '.', '5', 'e', '0'] (by decide) (by decide +kernel))
          (hnumber 4.0 '+' ['4', '.'] (by decide) (by decide +kernel))) hlines)
  have hlengths : ∀ c ∈ commands, c.parameters.length = c.kind.arity := by decide
  have hfinite : ∀ c ∈ commands, ∀ x ∈ c.parameters, x.isFinite = true := by decide +kernel
  exact ⟨hwritten, parse_written (by decide) (fun c hc => Command.check_eq_ok_iff.mpr (hlengths c hc)) hfinite hwritten⟩

end VectorRaster.Path
