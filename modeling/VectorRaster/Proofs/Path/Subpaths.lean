/-
  VectorRaster.Proofs.Path.Subpaths — path data that begins with an absolute move stands on its own.

  Such data can be put after any other. No number goes on across the seam, since it begins with a
  separator or with its letter (`ofString_append`). The reader takes the letter wherever a command
  may end, and reads on as from the beginning (`commands_append_move`). And the move makes the state
  forget all that came before (`interpret_of_startsSubpath`). So the two parts draw what each draws
  alone, one after the other, and what is wrong with the second part is wrong with both
  (`outline_append_subpath`).

  An outline is drawn as it is run, here on a surface of any kind (`feedData`): then what is drawn
  before an error is found stays drawn. Path data is read as a whole first, so that is nothing.
-/

import Mathlib.Data.List.TakeWhile
import VectorRaster.Proofs.Path.Grammar
import VectorRaster.Proofs.Path.Lexing
import VectorRaster.Proofs.Render.InPlace

namespace VectorRaster.Path

open Text

/-! ## Reading -/

/-- Path data whose first character that is no separator is an `M`: it begins with an absolute move. -/
def StartsSubpath (text : String) : Prop := (text.toList.dropWhile isSeparator).head? = some 'M'

instance (text : String) : Decidable (StartsSubpath text) :=
  inferInstanceAs (Decidable ((text.toList.dropWhile isSeparator).head? = some 'M'))

theorem StartsSubpath.exists_eq {text : String} (h : StartsSubpath text) :
    ∃ gap rest, IsGap gap ∧ text.toList = gap ++ 'M' :: rest := by
  obtain ⟨rest, hrest⟩ := List.head?_eq_some_iff.mp h
  refine ⟨text.toList.takeWhile isSeparator, rest, fun c hc => List.mem_takeWhile_imp hc, ?_⟩
  rw [← hrest, List.takeWhile_append_dropWhile]

theorem StartsSubpath.exists_tokens {text : String} (h : StartsSubpath text) :
    ∃ rest, Token.ofString text = .command 'M' :: rest := by
  obtain ⟨gap, rest, hgap, htext⟩ := h.exists_eq
  refine ⟨Token.ofChars rest, ?_⟩
  rw [Token.ofString, htext, Token.ofChars_gap hgap, Token.ofChars_letter (by decide)]

theorem StartsSubpath.breaks {text : String} (h : StartsSubpath text) : Breaks text.toList := by
  obtain ⟨gap, rest, hgap, htext⟩ := h.exists_eq
  rw [htext]
  refine breaks_gap hgap fun _ c hc => ?_
  cases hc
  exact .inr (by decide)

/-- The tokens of path data on both sides of a seam. -/
theorem ofString_append (first : String) {gap second : String} (hgap : IsGap gap.toList) (h : StartsSubpath second) :
    Token.ofString (first ++ gap ++ second) = Token.ofString first ++ Token.ofString second := by
  rw [Token.ofString, String.toList_append, String.toList_append, List.append_assoc,
    Token.ofChars_append (breaks_gap hgap fun _ => h.breaks), Token.ofChars_gap hgap]
  rfl

namespace Progress

/-- Where the data may end, a move is read as at the beginning. -/
theorem read_move {p : Progress} (h : p.finish = .ok ()) :
    p.read (.command 'M') = .ok (partway ⟨.moveTo, .absolute⟩ [], none) := by
  cases p with
  | start => rfl
  | complete header => rfl
  | partway header found => cases h

/-- After data that can be read, a move and what follows it are read as at the beginning. -/
theorem commands_append_move {p : Progress} {ts : List Token} {cs : List Command} (h : p.commands ts = .ok cs)
    (rest : List Token) :
    p.commands (ts ++ .command 'M' :: rest) = (start.commands (.command 'M' :: rest)).map (cs ++ ·) := by
  induction ts generalizing p cs with
  | nil =>
    cases hfinish : p.finish with
    | error e => simp [commands, hfinish, bind, Except.bind] at h
    | ok _ =>
      have hcs : cs = [] := by simpa [commands, hfinish, bind, Except.bind, pure, Except.pure, eq_comm] using h
      have hmove : p.commands (.command 'M' :: rest) = start.commands (.command 'M' :: rest) := by
        rw [commands_cons, commands_cons, read_move hfinish, read_move (p := start) rfl]
      rw [hcs, List.nil_append, hmove]
      cases start.commands (.command 'M' :: rest) <;> rfl
  | cons t ts ih =>
    rw [commands_cons] at h
    rw [List.cons_append, commands_cons]
    cases hread : p.read t with
    | error e => simp [hread, Except.bind] at h
    | ok out =>
      cases hts : out.1.commands ts with
      | error e => simp [hread, hts, Except.bind, Except.map] at h
      | ok cs' =>
        have hcs : cs = out.2.toList ++ cs' := by simpa [hread, hts, Except.bind, Except.map, eq_comm] using h
        simp only [Except.bind, ih hts, hcs]
        cases start.commands (.command 'M' :: rest) <;> simp [Except.map]

theorem exists_moveTo {ts : List Token} {cs : List Command} (h : start.commands (.command 'M' :: ts) = .ok cs) :
    ∃ x y rest, cs = .moveTo x y :: rest := by
  obtain ⟨header, hletter, -, lacking, ts', rest, hlen, -, -, rfl⟩ :=
    rest_start_command.mp ((commands_eq_ok_iff (p := start) trivial).mp h)
  obtain rfl : header = ⟨.moveTo, .absolute⟩ := Option.some.inj (hletter.symm.trans rfl)
  obtain ⟨p, q, rfl⟩ := List.length_eq_two.mp ((Nat.zero_add _).symm.trans hlen)
  exact ⟨p.value, q.value, rest, rfl⟩

end Progress

theorem parse_append {first gap second : String} {commands : List Command} (hfirst : parse first = .ok commands)
    (hgap : IsGap gap.toList) (h : StartsSubpath second) :
    parse (first ++ gap ++ second) = (parse second).map (commands ++ ·) := by
  obtain ⟨rest, hsecond⟩ := h.exists_tokens
  rw [parse, parse, ofTokens, ofTokens, ofString_append first hgap h, hsecond]
  exact Progress.commands_append_move hfirst rest

theorem check_of_parse {text : String} {commands : List Command} (h : parse text = .ok commands) :
    ∀ c ∈ commands, c.check = .ok () := by
  intro c hc
  exact (Progress.Rest.commands_ok ((Progress.commands_eq_ok_iff (p := .start) trivial).mp h) hc).1

/-! ## Running -/

namespace State

/-- After an absolute move it does not matter where the path was before. -/
theorem interpret_moveTo (t : Transform Float) (s s' : State) (x y : Float) (commands : List Command) :
    s.interpret t (.moveTo x y :: commands) = s'.interpret t (.moveTo x y :: commands) := rfl

theorem steps_append {t : Transform Float} {s middle : State} {commands : List Command}
    {pieces : List (Primitive Float)} (h : s.steps t commands = .ok (middle, pieces)) (more : List Command) :
    s.steps t (commands ++ more) = (middle.steps t more).map fun rest => (rest.1, pieces ++ rest.2) := by
  induction commands generalizing s pieces with
  | nil =>
    cases h
    rw [List.nil_append]
    cases middle.steps t more <;> rfl
  | cons c commands ih =>
    cases hstep : s.step t c with
    | error e => simp [steps, hstep, bind, Except.bind] at h
    | ok next =>
      rw [steps_cons_of_step hstep] at h
      cases hrest : next.1.steps t commands with
      | error e => simp [hrest, Except.map] at h
      | ok rest =>
        simp only [hrest, Except.map, Except.ok.injEq, Prod.mk.injEq] at h
        obtain ⟨rfl, rfl⟩ := h
        rw [List.cons_append, steps_cons_of_step hstep, ih hrest]
        cases rest.1.steps t more <;> simp [Except.map]

theorem interpret_append {t : Transform Float} {s middle : State} {commands more : List Command}
    {pieces : List (Primitive Float)} (hc : ∀ c ∈ commands, c.check = .ok ()) (hmore : ∀ c ∈ more, c.check = .ok ())
    (h : s.interpret t commands = .ok (middle, pieces)) :
    s.interpret t (commands ++ more) = (middle.interpret t more).map fun rest => (rest.1, pieces ++ rest.2) := by
  have hall : ∀ c ∈ commands ++ more, c.check = .ok () := by
    intro c hmem
    rcases List.mem_append.mp hmem with hmem | hmem
    · exact hc c hmem
    · exact hmore c hmem
  rw [interpret_eq_steps hc] at h
  rw [interpret_eq_steps hall, interpret_eq_steps hmore, steps_append h]

/-- What begins with an absolute move draws the same and ends in the same state, wherever it is run. -/
theorem interpret_of_startsSubpath {text : String} (hmove : StartsSubpath text) {commands : List Command}
    (h : parse text = .ok commands) (t : Transform Float) (s s' : State) :
    s.interpret t commands = s'.interpret t commands := by
  obtain ⟨rest, htokens⟩ := hmove.exists_tokens
  rw [parse, htokens] at h
  obtain ⟨x, y, more, rfl⟩ := Progress.exists_moveTo h
  exact interpret_moveTo t s s' x y more

end State

theorem outline_of_parse {text : String} {commands : List Command} (h : parse text = .ok commands) {t : Transform Float}
    {outcome : Outcome} (hrun : State.initial.interpret t commands = .ok outcome) :
    outline text t = .ok (commands.length, outcome.2) := by
  simp only [outline, h, hrun, bind, Except.bind, pure, Except.pure]

theorem outline_of_parse_error {text : String} {e : PathError} (h : parse text = .error e) (t : Transform Float) :
    outline text t = .error e := by
  simp only [outline, h, bind, Except.bind]

/-! ## Drawing -/

/-- Runs path data and draws its pieces, each as soon as its command has been run. -/
def feedData {σ : Type} (draw : σ → Primitive Float → σ) (t : Transform Float) (text : String) :
    Work σ PathError Nat := do
  let commands ← (parse text : Except PathError (List Command))
  let _ ← State.initial.feedChecked draw t commands
  return commands.length

/-- Path data that has an outline draws it, and other path data draws nothing. -/
theorem feedData_eq {σ : Type} (draw : σ → Primitive Float → σ) (t : Transform Float) (text : String) :
    feedData draw t text = Work.whole fun a =>
      (outline text t).map fun drawn => (drawn.2.foldl draw a, drawn.1) := by
  refine Work.ext_on fun a => ?_
  rw [feedData, Work.on_bind, Work.on_liftExcept, Work.on_whole]
  cases hparse : parse text with
  | error e => simp [outline, hparse, bind, Except.bind, Except.map]
  | ok commands =>
    simp only [State.feedChecked_eq, outline, hparse, bind, Except.bind]
    cases State.initial.interpret t commands <;> rfl

/-! ## Both parts -/

/-- Path data that begins with an absolute move, put after path data that can be read. If it can be read,
both together draw what they draw alone, one after the other, and count as many commands; the second
part draws the same and ends in the same state after the first as it does alone. If it cannot, both
together fail in the same way, and nothing is drawn. -/
theorem outline_append_subpath {first gap second : String} {commands : List Command} (hfirst : parse first = .ok commands)
    (hgap : IsGap gap.toList) (hmove : StartsSubpath second) (t : Transform Float) :
    (∀ more, parse second = .ok more → ∃ s₁ s₂ p₁ p₂,
      State.initial.interpret t commands = .ok (s₁, p₁) ∧ State.initial.interpret t more = .ok (s₂, p₂) ∧
      s₁.interpret t more = .ok (s₂, p₂) ∧
      outline first t = .ok (commands.length, p₁) ∧ outline second t = .ok (more.length, p₂) ∧
      outline (first ++ gap ++ second) t = .ok (commands.length + more.length, p₁ ++ p₂) ∧
      ∀ (σ : Type) (draw : σ → Primitive Float → σ) (a : σ),
        (feedData draw t (first ++ gap ++ second)).on a = (.ok (commands.length + more.length), (p₁ ++ p₂).foldl draw a)) ∧
    (∀ e, parse second = .error e → outline second t = .error e ∧
      outline (first ++ gap ++ second) t = .error e ∧
      ∀ (σ : Type) (draw : σ → Primitive Float → σ) (a : σ),
        (feedData draw t (first ++ gap ++ second)).on a = (.error e, a)) := by
  have hparse := parse_append hfirst hgap hmove
  constructor
  · intro more hsecond
    have hc := check_of_parse hfirst
    have hc' := check_of_parse hsecond
    rw [hsecond] at hparse
    obtain ⟨⟨s₁, p₁⟩, hrun⟩ := State.interpret_ok hc t .initial
    obtain ⟨⟨s₂, p₂⟩, hrun'⟩ := State.interpret_ok hc' t .initial
    have hafter : s₁.interpret t more = .ok (s₂, p₂) :=
      (State.interpret_of_startsSubpath hmove hsecond t s₁ .initial).trans hrun'
    have hwhole : State.initial.interpret t (commands ++ more) = .ok (s₂, p₁ ++ p₂) := by
      rw [State.interpret_append hc hc' hrun, hafter]
      rfl
    have houtline := outline_of_parse hparse hwhole
    rw [List.length_append] at houtline
    refine ⟨s₁, s₂, p₁, p₂, hrun, hrun', hafter, outline_of_parse hfirst hrun, outline_of_parse hsecond hrun', houtline,
      fun σ draw a => ?_⟩
    rw [feedData_eq, Work.on_whole, houtline]
    rfl
  · intro e hsecond
    rw [hsecond] at hparse
    have houtline := outline_of_parse_error hparse t
    refine ⟨outline_of_parse_error hsecond t, houtline, fun σ draw a => ?_⟩
    rw [feedData_eq, Work.on_whole, houtline]
    rfl

/-- With or without a separator in between, a smooth curve after the move has nothing to reflect. -/
theorem outline_append_subpath_smooth_curve :
    let first := "M0 0q1 0 2 2"
    let commands : List Command := [.moveTo 0.0 0.0, ⟨⟨.quadraticCurveTo, .relative⟩, [1.0, 0.0, 2.0, 2.0]⟩]
    let curve : List (Primitive Float) := [.quadratic ⟨0.0, 0.0⟩ ⟨1.0, 0.0⟩ ⟨2.0, 2.0⟩]
    let smooth : List (Primitive Float) := [.quadratic ⟨5.0, 5.0⟩ ⟨6.0, 6.0⟩ ⟨6.0, 6.0⟩]
    parse first = .ok commands ∧ IsGap "".toList ∧ IsGap "\n".toList ∧ StartsSubpath ",M5 5t1 1" ∧ StartsSubpath "M5 5t1" ∧
      outline (first ++ "" ++ ",M5 5t1 1") .identity = .ok (4, curve ++ smooth) ∧
      outline (first ++ "\n" ++ "M5 5t1") .identity = .error (.missingParameters 't' 2 1) := by
  intro first commands curve smooth
  have hfirst : parse first = .ok commands := by decide +kernel
  have hnone : IsGap "".toList := by decide
  have hgap : IsGap "\n".toList := by decide
  have hmove : StartsSubpath ",M5 5t1 1" := by decide
  have hmove' : StartsSubpath "M5 5t1" := by decide
  have hsecond : parse ",M5 5t1 1" =
      .ok [.moveTo 5.0 5.0, ⟨⟨.smoothQuadraticCurveTo, .relative⟩, [1.0, 1.0]⟩] := by decide +kernel
  have hcut : parse "M5 5t1" = .error (.missingParameters 't' 2 1) := by decide +kernel
  obtain ⟨-, -, p₁, p₂, -, -, -, halone, halone', hboth, -⟩ :=
    (outline_append_subpath hfirst hnone hmove .identity).1 _ hsecond
  have hcurve : outline first .identity = .ok (2, curve) := by decide +kernel
  have hsmooth : outline ",M5 5t1 1" .identity = .ok (2, smooth) := by decide +kernel
  cases halone.symm.trans hcurve
  cases halone'.symm.trans hsmooth
  exact ⟨hfirst, hnone, hgap, hmove, hmove', hboth,
    ((outline_append_subpath hfirst hgap hmove' .identity).2 _ hcut).2.1⟩

end VectorRaster.Path
