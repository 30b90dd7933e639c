/-
  VectorRaster.Proofs.Path.Longhand — path data in longhand: positions only, and no short kinds.

  An offset is short for a position, a horizontal or vertical line for a line, and a smooth curve
  for one with the control point written out. What a command is short for depends on the state it
  is run in (`State.longhand`), and a list is written out command by command, each in the state
  that the ones before it leave (`State.longhands`). A command in longhand draws the same pieces
  and leaves the same state, remembered control points included (`step_longhand`). So the list in
  longhand can take the place of the list after any number of commands (`interpret_longhands`).
-/

import VectorRaster.Proofs.Path.Checked

namespace VectorRaster.Path

/-! ## Positions -/

inductive Axis where
  | x
  | y
  deriving DecidableEq, Repr

/-- The axes that the parameters of a kind are measured along. The radii, the rotation and the
flags of an arc have none. -/
def Kind.axes : Kind → List (Option Axis)
  | moveTo | lineTo | smoothQuadraticCurveTo => [some .x, some .y]
  | horizontalLineTo => [some .x]
  | verticalLineTo => [some .y]
  | smoothCubicCurveTo | quadraticCurveTo => [some .x, some .y, some .x, some .y]
  | cubicCurveTo => [some .x, some .y, some .x, some .y, some .x, some .y]
  | ellipticalArcTo => [none, none, none, none, none, some .x, some .y]
  | closePath => []

/-- A parameter moved by the coordinate of `origin` on its axis. -/
def Axis.shift (origin : Point Float) (axis? : Option Axis) (parameter : Float) : Float :=
  match axis? with
  | some .x => parameter + origin.x
  | some .y => parameter + origin.y
  | none => parameter

/-- The command with positions for its offsets from `current`. -/
def Command.positioned (c : Command) (current : Point Float) : Command :=
  match c.mode with
  | .absolute => c
  | .relative => ⟨⟨c.kind, .absolute⟩, List.zipWith (Axis.shift current) c.kind.axes c.parameters⟩

/-! ## Longhand -/

/-- The kinds that are not short for another. -/
def Kind.isLong (kind : Kind) : Bool :=
  kind ∈ [moveTo, lineTo, cubicCurveTo, quadraticCurveTo, ellipticalArcTo, closePath]

namespace State

/-- The first control point of a smooth cubic curve. -/
def smoothCubicControl (s : State) (control₂ : Point Float) : Point Float :=
  match s.lastCubic with
  | some last => s.current.reflect last
  | none => control₂

/-- The control point of a smooth quadratic curve. -/
def smoothQuadraticControl (s : State) (stop : Point Float) : Point Float :=
  match s.lastQuadratic with
  | some last => s.current.reflect last
  | none => stop

/-- What a command with positions is short for. -/
def spelledOut (s : State) (c : Command) : Command :=
  match c.kind, c.parameters with
  | .horizontalLineTo, [x] => .lineTo x s.current.y
  | .verticalLineTo, [y] => .lineTo s.current.x y
  | .smoothCubicCurveTo, [x₂, y₂, x, y] =>
    let control := s.smoothCubicControl ⟨x₂, y₂⟩
    ⟨⟨.cubicCurveTo, .absolute⟩, [control.x, control.y, x₂, y₂, x, y]⟩
  | .smoothQuadraticCurveTo, [x, y] =>
    let control := s.smoothQuadraticControl ⟨x, y⟩
    ⟨⟨.quadraticCurveTo, .absolute⟩, [control.x, control.y, x, y]⟩
  | _, _ => c

/-- A command in longhand, where the path is in this state. -/
def longhand (s : State) (c : Command) : Command := s.spelledOut (c.positioned s.current)

/-- The state that a command leaves; one that cannot be run leaves the state as it is. -/
def after (s : State) (c : Command) : State :=
  match c.operation s.current with
  | .ok op => (s.apply op).1
  | .error _ => s

/-- Commands in longhand, each where the ones before it lead. -/
def longhands (s : State) : List Command → List Command
  | [] => []
  | c :: cs => s.longhand c :: (s.after c).longhands cs

end State

/-! ## One command -/

/-- The shapes of checked commands: every kind with its parameters. -/
@[elab_as_elim]
theorem Command.checkedCases {motive : (c : Command) → c.check = .ok () → Prop}
    (moveTo : ∀ mode x y, motive ⟨⟨.moveTo, mode⟩, [x, y]⟩ rfl)
    (closePath : ∀ mode, motive ⟨⟨.closePath, mode⟩, []⟩ rfl)
    (lineTo : ∀ mode x y, motive ⟨⟨.lineTo, mode⟩, [x, y]⟩ rfl)
    (horizontalLineTo : ∀ mode x, motive ⟨⟨.horizontalLineTo, mode⟩, [x]⟩ rfl)
    (verticalLineTo : ∀ mode y, motive ⟨⟨.verticalLineTo, mode⟩, [y]⟩ rfl)
    (cubicCurveTo : ∀ mode x₁ y₁ x₂ y₂ x y, motive ⟨⟨.cubicCurveTo, mode⟩, [x₁, y₁, x₂, y₂, x, y]⟩ rfl)
    (smoothCubicCurveTo : ∀ mode x₂ y₂ x y, motive ⟨⟨.smoothCubicCurveTo, mode⟩, [x₂, y₂, x, y]⟩ rfl)
    (quadraticCurveTo : ∀ mode x₁ y₁ x y, motive ⟨⟨.quadraticCurveTo, mode⟩, [x₁, y₁, x, y]⟩ rfl)
    (smoothQuadraticCurveTo : ∀ mode x y, motive ⟨⟨.smoothQuadraticCurveTo, mode⟩, [x, y]⟩ rfl)
    (ellipticalArcTo : ∀ mode radiusX radiusY rotation large sweep x y,
      motive ⟨⟨.ellipticalArcTo, mode⟩, [radiusX, radiusY, rotation, large, sweep, x, y]⟩ rfl)
    (c : Command) (h : c.check = .ok ()) : motive c h := by
  obtain ⟨op, hop⟩ := operation_ok h .origin
  obtain ⟨⟨kind, mode⟩, parameters⟩ := c
  unfold operation at hop
  split at hop
  all_goals first | (rename_i hkind hparameters; cases hkind; cases hparameters) | cases hop
  · exact moveTo mode _ _
  · exact closePath mode
  · exact lineTo mode _ _
  · exact horizontalLineTo mode _
  · exact verticalLineTo mode _
  · exact cubicCurveTo mode _ _ _ _ _ _
  · exact smoothCubicCurveTo mode _ _ _ _
  · exact quadraticCurveTo mode _ _ _ _
  · exact smoothQuadraticCurveTo mode _ _
  · exact ellipticalArcTo mode _ _ _ _ _ _ _

variable {c : Command} {commands : List Command} {s : State} {t : Transform Float}

theorem Command.mode_positioned (c : Command) (current : Point Float) : (c.positioned current).mode = .absolute := by
  obtain ⟨⟨kind, mode⟩, parameters⟩ := c
  cases mode <;> rfl

theorem Command.check_positioned (h : c.check = .ok ()) (current : Point Float) :
    (c.positioned current).check = .ok () := by
  cases c, h using Command.checkedCases with
  | _ mode => cases mode <;> rfl

/-- Offsets and the positions they stand for do the same. -/
theorem Command.operation_positioned (h : c.check = .ok ()) (current : Point Float) :
    (c.positioned current).operation current = c.operation current := by
  cases c, h using Command.checkedCases with
  | _ mode => cases mode <;> rfl

namespace State

theorem check_spelledOut (h : c.check = .ok ()) (s : State) : (s.spelledOut c).check = .ok () := by
  cases c, h using Command.checkedCases <;> rfl

theorem isLong_spelledOut (h : c.check = .ok ()) (s : State) : (s.spelledOut c).kind.isLong = true := by
  cases c, h using Command.checkedCases <;> rfl

theorem mode_spelledOut (h : c.check = .ok ()) (hmode : c.mode = .absolute) (s : State) :
    (s.spelledOut c).mode = .absolute := by
  cases c, h using Command.checkedCases with
  | horizontalLineTo | verticalLineTo | smoothCubicCurveTo | smoothQuadraticCurveTo => rfl
  | _ => exact hmode

/-- What a command is short for leads to the same state and draws the same. -/
theorem apply_spelledOut (h : c.check = .ok ()) (hmode : c.mode = .absolute) (s : State) :
    ∃ op op', c.operation s.current = .ok op ∧ (s.spelledOut c).operation s.current = .ok op' ∧
      s.apply op' = s.apply op := by
  cases c, h using Command.checkedCases with
  | _ mode =>
    obtain rfl : mode = .absolute := hmode
    exact ⟨_, _, rfl, rfl, rfl⟩

theorem check_longhand (h : c.check = .ok ()) (s : State) : (s.longhand c).check = .ok () :=
  check_spelledOut (Command.check_positioned h s.current) s

/-- A command and its longhand draw the same pieces and leave the same state. -/
theorem step_longhand (h : c.check = .ok ()) (t : Transform Float) (s : State) :
    s.step t (s.longhand c) = s.step t c := by
  obtain ⟨op, op', hop, hop', happly⟩ := apply_spelledOut (Command.check_positioned h s.current)
    (Command.mode_positioned c s.current) s
  rw [Command.operation_positioned h] at hop
  rw [step_of_operation hop, step_of_operation (c := s.longhand c) hop', happly]

/-! ## Lists of commands -/

/-- The state after a command is the one that its step leaves. -/
theorem step_eq_after (h : c.check = .ok ()) (t : Transform Float) (s : State) :
    ∃ pieces, s.step t c = .ok (s.after c, pieces) := by
  obtain ⟨op, hop⟩ := Command.operation_ok h s.current
  have hafter : s.after c = (s.apply op).1 := by rw [after, hop]
  exact ⟨_, by rw [step_of_operation hop, hafter]⟩

theorem steps_longhands (h : ∀ c ∈ commands, c.check = .ok ()) (t : Transform Float) (s : State) :
    s.steps t (s.longhands commands) = s.steps t commands := by
  induction commands generalizing s with
  | nil => rfl
  | cons c commands ih =>
    have hc := h c List.mem_cons_self
    obtain ⟨pieces, hstep⟩ := step_eq_after hc t s
    rw [longhands, steps_cons_of_step hstep, steps_cons_of_step ((step_longhand hc t s).trans hstep),
      ih fun c hc => h c (List.mem_cons_of_mem _ hc)]

theorem length_longhands (commands : List Command) (s : State) :
    (s.longhands commands).length = commands.length := by
  induction commands generalizing s with
  | nil => rfl
  | cons c commands ih => rw [longhands, List.length_cons, List.length_cons, ih]

theorem take_longhands (n : Nat) (commands : List Command) (s : State) :
    (s.longhands commands).take n = s.longhands (commands.take n) := by
  induction commands generalizing n s with
  | nil => rw [longhands, List.take_nil, longhands]
  | cons c commands ih =>
    cases n with
    | zero => rfl
    | succ n => rw [longhands, List.take_succ_cons, List.take_succ_cons, ih, longhands]

theorem mem_longhands {long : Command} (hlong : long ∈ s.longhands commands) :
    ∃ c ∈ commands, ∃ s' : State, long = s'.longhand c := by
  induction commands generalizing s with
  | nil => cases hlong
  | cons c commands ih =>
    rcases List.mem_cons.mp hlong with rfl | hlong
    · exact ⟨c, List.mem_cons_self, s, rfl⟩
    · obtain ⟨c', hc', s', hs'⟩ := ih hlong
      exact ⟨c', List.mem_cons_of_mem _ hc', s', hs'⟩

/-- Each command of a list is written out in the state that the commands before it lead to. -/
theorem getElem?_longhands {n : Nat} (h : ∀ c ∈ commands, c.check = .ok ()) (t : Transform Float)
    {outcome : Outcome} (ho : s.steps t (commands.take n) = .ok outcome) :
    (s.longhands commands)[n]? = commands[n]?.map outcome.1.longhand := by
  induction commands generalizing n s outcome with
  | nil => rfl
  | cons c commands ih =>
    cases n with
    | zero =>
      cases ho
      rfl
    | succ n =>
      obtain ⟨pieces, hstep⟩ := step_eq_after (h c List.mem_cons_self) t s
      rw [List.take_succ_cons, steps_cons_of_step hstep] at ho
      cases hrest : (s.after c).steps t (commands.take n) with
      | error e =>
        rw [hrest] at ho
        cases ho
      | ok rest =>
        rw [hrest] at ho
        cases ho
        have hnext := ih (fun c hc => h c (List.mem_cons_of_mem _ hc)) hrest
        exact hnext

end State

/-- Checked commands and the same in longhand. The longhand has only absolute commands of the kinds
that are not short for another, and passes the check. After any number of commands both have
drawn the same pieces and are in the same state; this is the state that the next command is
written out in. -/
theorem State.interpret_longhands (h : ∀ c ∈ commands, c.check = .ok ()) (t : Transform Float) (s : State) :
    (s.longhands commands).length = commands.length ∧
      (∀ c ∈ s.longhands commands, c.check = .ok () ∧ c.mode = .absolute ∧ c.kind.isLong = true) ∧
      ∀ n, ∃ outcome, s.interpret t (commands.take n) = .ok outcome ∧
        s.interpret t ((s.longhands commands).take n) = .ok outcome ∧
        (s.longhands commands)[n]? = commands[n]?.map outcome.1.longhand := by
  have hlong : ∀ c ∈ commands, ∀ s : State, (s.longhand c).check = .ok () := fun c hc s => check_longhand (h c hc) s
  have hchecked : ∀ c ∈ s.longhands commands, c.check = .ok () := by
    intro long hmem
    obtain ⟨c, hc, s', rfl⟩ := mem_longhands hmem
    exact hlong c hc s'
  refine ⟨length_longhands commands s, fun long hmem => ?_, fun n => ?_⟩
  · obtain ⟨c, hc, s', rfl⟩ := mem_longhands hmem
    have hpositioned := Command.check_positioned (h c hc) s'.current
    exact ⟨hlong c hc s', mode_spelledOut hpositioned (Command.mode_positioned c s'.current) s',
      isLong_spelledOut hpositioned s'⟩
  · have htake : ∀ c ∈ commands.take n, c.check = .ok () := fun c hc => h c (List.mem_of_mem_take hc)
    obtain ⟨outcome, ho⟩ := steps_ok htake t s
    refine ⟨outcome, (interpret_eq_steps htake t s).trans ho, ?_, getElem?_longhands h t ho⟩
    rw [interpret_eq_steps fun c hc => hchecked c (List.mem_of_mem_take hc), take_longhands, steps_longhands htake, ho]

theorem State.interpret_longhands_smooth_curves :
    let commands : List Command :=
      [⟨⟨.moveTo, .relative⟩, [1.0, 2.0]⟩, ⟨⟨.cubicCurveTo, .relative⟩, [1.0, 1.0, 2.0, 1.0, 3.0, 0.0]⟩,
        ⟨⟨.smoothCubicCurveTo, .relative⟩, [2.0, -1.0, 3.0, 0.0]⟩, ⟨⟨.verticalLineTo, .relative⟩, [4.0]⟩,
        ⟨⟨.smoothQuadraticCurveTo, .absolute⟩, [9.0, 9.0]⟩]
    (∀ c ∈ commands, c.check = .ok ()) ∧
      State.initial.longhands commands =
        [.moveTo 1.0 2.0, ⟨⟨.cubicCurveTo, .absolute⟩, [2.0, 3.0, 3.0, 3.0, 4.0, 2.0]⟩,
          ⟨⟨.cubicCurveTo, .absolute⟩, [5.0, 1.0, 6.0, 1.0, 7.0, 2.0]⟩, .lineTo 7.0 6.0,
          ⟨⟨.quadraticCurveTo, .absolute⟩, [9.0, 9.0, 9.0, 9.0]⟩] ∧
      ∃ outcome, State.initial.interpret .identity commands = .ok outcome ∧
        State.initial.interpret .identity (State.initial.longhands commands) = .ok outcome := by
  intro commands
  have hlengths : ∀ c ∈ commands, c.parameters.length = c.kind.arity := by decide
  have hc : ∀ c ∈ commands, c.check = .ok () := fun c hc => Command.check_eq_ok_iff.mpr (hlengths c hc)
  have hlong : State.initial.longhands commands =
      [.moveTo 1.0 2.0, ⟨⟨.cubicCurveTo, .absolute⟩, [2.0, 3.0, 3.0, 3.0, 4.0, 2.0]⟩,
        ⟨⟨.cubicCurveTo, .absolute⟩, [5.0, 1.0, 6.0, 1.0, 7.0, 2.0]⟩, .lineTo 7.0 6.0,
        ⟨⟨.quadraticCurveTo, .absolute⟩, [9.0, 9.0, 9.0, 9.0]⟩] := by decide +kernel
  obtain ⟨-, -, hprefix⟩ := interpret_longhands hc .identity .initial
  obtain ⟨outcome, ho, ho', -⟩ := hprefix 5
  exact ⟨hc, hlong, outcome, ho, ho'⟩

end VectorRaster.Path
