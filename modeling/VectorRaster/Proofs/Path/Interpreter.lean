/-
  VectorRaster.Proofs.Path.Interpreter — running commands on one place that is changed as they run.

  A command changes where the path is and the surface that its pieces go to. Here both are one place
  (`Interpreter`) and are changed step by step, so what was done before a failure stays done. There is
  also one more way to fail: parameters are read by their numbers, and a command can have been built
  with any number of them (`Fault.absent`).

  Proved:
  - A command that passes the check has every parameter that it reads (`readOperation_eq`), so it is run to
    its end; another one is refused before anything is changed (`runOne_of_step`, `runOne_of_error`).
  - A list is run as a whole or not at all (`runAll_outcome`). It is refused for the first command that
    does not pass the check, wherever that stands, and otherwise does what its commands do one by one.
-/

import VectorRaster.Proofs.Path.History
import VectorRaster.Proofs.Path.Subpaths

namespace VectorRaster.Path

/-! ## Parameters by number -/

/-- Why a command or a list of commands is not run to its end. -/
inductive Fault where
  | refused (e : PathError)
  /-- A parameter is read that is not there. -/
  | absent (number : Nat)
  deriving DecidableEq, Repr

def parameterAt (parameters : List Float) (number : Nat) : Except Fault Float :=
  match parameters[number]? with
  | some x => .ok x
  | none => .error (.absent number)

def pointAt (parameters : List Float) (number : Nat) : Except Fault (Point Float) := do
  return ⟨← parameterAt parameters number, ← parameterAt parameters (number + 1)⟩

/-- Moves the parameter with this number by an offset. -/
def moveAt (parameters : List Float) (number : Nat) (offset : Float) : Except Fault (List Float) := do
  return parameters.set number ((← parameterAt parameters number) + offset)

namespace Command

/-- The error that the check finds, if any. -/
def defect? (c : Command) : Option PathError :=
  match c.check with
  | .ok _ => none
  | .error e => some e

/-- The parameters with positions for offsets. They come in pairs of coordinates, except for the single
coordinates of `H` and `V` and for what stands before the end of an arc. -/
def readPositions (c : Command) (current : Point Float) : Except Fault (List Float) :=
  match c.mode with
  | .absolute => return c.parameters
  | .relative => match c.kind with
    | .horizontalLineTo => moveAt c.parameters 0 current.x
    | .verticalLineTo => moveAt c.parameters 0 current.y
    | .ellipticalArcTo => do moveAt (← moveAt c.parameters 5 current.x) 6 current.y
    | _ => return c.parameters.zipIdx.map fun (x, i) => x + if i % 2 = 0 then current.x else current.y

/-- What a command does at the point `current`, from its parameters by number. -/
def readOperation (c : Command) (current : Point Float) : Except Fault Operation := do
  let p ← c.readPositions current
  match c.kind with
  | .moveTo => return .move (← pointAt p 0)
  | .closePath => return .close
  | .lineTo => return .line (← pointAt p 0)
  | .horizontalLineTo => return .line ⟨← parameterAt p 0, current.y⟩
  | .verticalLineTo => return .line ⟨current.x, ← parameterAt p 0⟩
  | .cubicCurveTo => return .cubic (← pointAt p 0) (← pointAt p 2) (← pointAt p 4)
  | .smoothCubicCurveTo => return .smoothCubic (← pointAt p 0) (← pointAt p 2)
  | .quadraticCurveTo => return .quadratic (← pointAt p 0) (← pointAt p 2)
  | .smoothQuadraticCurveTo => return .smoothQuadratic (← pointAt p 0)
  | .ellipticalArcTo =>
    return .arc (← parameterAt p 0) (← parameterAt p 1) (← parameterAt p 2) ((← parameterAt p 3) != 0.0)
      ((← parameterAt p 4) != 0.0) (← pointAt p 5)

variable {c : Command}

theorem defect?_eq_some_iff {e : PathError} : c.defect? = some e ↔ c.check = .error e := by
  unfold defect?
  cases c.check <;> simp

theorem defect?_eq_none_iff : c.defect? = none ↔ c.check = .ok () := by
  unfold defect?
  cases c.check <;> simp

/-- A command that passes the check has all the parameters that are read, and they say what it does. -/
theorem readOperation_eq (h : c.check = .ok ()) (current : Point Float) :
    ∃ op, c.operation current = .ok op ∧ c.readOperation current = .ok op := by
  cases c, h using checkedCases with
  | _ mode => cases mode <;> exact ⟨_, rfl, rfl⟩

/-- A list fails the check for the first command that does. -/
theorem forM_check_eq (commands : List Command) : commands.forM check = match commands.findSome? defect? with
    | some e => .error e
    | none => .ok () := by
  induction commands with
  | nil => rfl
  | cons c commands ih =>
    rw [State.forM_check_cons, List.findSome?_cons]
    cases hc : c.check with
    | error e =>
      rw [defect?_eq_some_iff.mpr hc]
      rfl
    | ok u =>
      rw [defect?_eq_none_iff.mpr hc]
      exact ih

theorem findSome?_defect?_eq_none_iff {commands : List Command} :
    commands.findSome? defect? = none ↔ ∀ c ∈ commands, c.check = .ok () := by
  simp only [List.findSome?_eq_none_iff, defect?_eq_none_iff]

end Command

/-! ## One place -/

/-- Where the path is, and the surface that its pieces are drawn on. -/
structure Interpreter (σ : Type) where
  state : State
  surface : σ

namespace Interpreter

variable {σ : Type} (draw : σ → Primitive Float → σ) (t : Transform Float)

/-- Draws pieces one after the other, mapped onto the surface. -/
def emit : List (Primitive Float) → Work (Interpreter σ) Fault Unit
  | [] => return ()
  | piece :: pieces => do
    modify fun i => { i with surface := draw i.surface (piece.transform t) }
    emit pieces

/-- Runs a command: checks it, reads its parameters, draws its pieces and moves the state on. -/
def runOne (c : Command) : Work (Interpreter σ) Fault Unit := do
  let _ ← c.check.mapError Fault.refused
  let before := (← get).state
  let op ← c.readOperation before.current
  emit draw t (before.apply op).2
  modify fun i => { i with state := (before.apply op).1 }

def runEach : List Command → Work (Interpreter σ) Fault Unit
  | [] => return ()
  | c :: commands => do
    runOne draw t c
    runEach commands

/-- Runs a list of commands, once all of them have been checked. -/
def runAll (commands : List Command) : Work (Interpreter σ) Fault Unit := do
  let _ ← (commands.forM Command.check).mapError Fault.refused
  runEach draw t commands

/-- Commands that are run one by one, by calls that all succeed. -/
inductive Calls : Interpreter σ → List Command → Interpreter σ → Prop
  | done (i : Interpreter σ) : Calls i [] i
  | call {i j k : Interpreter σ} {c : Command} {commands : List Command} :
      (runOne draw t c).on i = (.ok (), j) → Calls j commands k → Calls i (c :: commands) k

variable {draw t} {i j : Interpreter σ} {c : Command} {commands : List Command} {e : PathError}

/-! ### One command -/

theorem emit_on (pieces : List (Primitive Float)) (i : Interpreter σ) :
    (emit draw t pieces).on i = (.ok (), { i with surface := (pieces.map (·.transform t)).foldl draw i.surface }) := by
  induction pieces generalizing i with
  | nil => rfl
  | cons piece pieces ih =>
    rw [emit, Work.on_bind, Work.on_modify]
    exact ih _

theorem runOne_of_error (h : c.check = .error e) (i : Interpreter σ) :
    (runOne draw t c).on i = (.error (.refused e), i) := by
  rw [runOne, Work.on_bind, Work.on_liftExcept, h]
  rfl

theorem runOne_of_step {next : State} {pieces : List (Primitive Float)} (hcheck : c.check = .ok ())
    (h : i.state.step t c = .ok (next, pieces)) :
    (runOne draw t c).on i = (.ok (), ⟨next, pieces.foldl draw i.surface⟩) := by
  obtain ⟨op, hop, hread⟩ := Command.readOperation_eq hcheck i.state.current
  rw [State.step_of_operation hop] at h
  cases h
  simp only [runOne, hcheck, mapError_ok, Work.on_bind, Work.on_liftExcept, Work.on_get, hread, emit_on, Work.on_modify]

variable (draw t) in
theorem runOne_of_checked (h : c.check = .ok ()) (i : Interpreter σ) : ∃ j, (runOne draw t c).on i = (.ok (), j) := by
  obtain ⟨pieces, hstep⟩ := State.step_eq_after h t i.state
  exact ⟨_, runOne_of_step h hstep⟩

/-- No parameter that a command reads is absent. -/
theorem runOne_ne_absent (c : Command) (i : Interpreter σ) (number : Nat) :
    ((runOne draw t c).on i).1 ≠ .error (.absent number) := by
  cases hcheck : c.check with
  | error e =>
    rw [runOne_of_error hcheck]
    nofun
  | ok u =>
    obtain ⟨j, hj⟩ := runOne_of_checked draw t hcheck i
    rw [hj]
    nofun

/-! ### Lists of commands -/

variable (draw t) in
theorem runEach_of_steps {last : State} {pieces : List (Primitive Float)} (hcheck : ∀ c ∈ commands, c.check = .ok ())
    (h : i.state.steps t commands = .ok (last, pieces)) :
    (runEach draw t commands).on i = (.ok (), ⟨last, pieces.foldl draw i.surface⟩) ∧
      Calls draw t i commands ⟨last, pieces.foldl draw i.surface⟩ := by
  induction commands generalizing i pieces with
  | nil =>
    cases h
    exact ⟨rfl, .done i⟩
  | cons c commands ih =>
    have hc := hcheck c List.mem_cons_self
    obtain ⟨drawn, hstep⟩ := State.step_eq_after hc t i.state
    have hone : (runOne draw t c).on i = (.ok (), ⟨i.state.after c, drawn.foldl draw i.surface⟩) := runOne_of_step hc hstep
    rw [State.steps_cons_of_step hstep] at h
    cases hrest : (i.state.after c).steps t commands with
    | error e => simp [hrest, Except.map] at h
    | ok rest =>
      rw [hrest] at h
      cases h
      obtain ⟨heach, hcalls⟩ := ih (i := ⟨i.state.after c, drawn.foldl draw i.surface⟩)
        (fun c hc => hcheck c (List.mem_cons_of_mem _ hc)) hrest
      rw [List.foldl_append]
      refine ⟨?_, .call hone hcalls⟩
      rw [runEach, Work.on_bind, hone]
      exact heach

theorem runAll_of_defect (h : commands.findSome? Command.defect? = some e) (i : Interpreter σ) :
    (runAll draw t commands).on i = (.error (.refused e), i) := by
  rw [runAll, Work.on_bind, Work.on_liftExcept, Command.forM_check_eq, h]
  rfl

variable (draw t) in
theorem runAll_of_checked (h : ∀ c ∈ commands, c.check = .ok ()) (i : Interpreter σ) :
    ∃ last pieces, i.state.interpret t commands = .ok (last, pieces) ∧
      (runAll draw t commands).on i = (.ok (), ⟨last, pieces.foldl draw i.surface⟩) ∧
      Calls draw t i commands ⟨last, pieces.foldl draw i.surface⟩ := by
  obtain ⟨⟨last, pieces⟩, hrun⟩ := State.interpret_ok h t i.state
  obtain ⟨heach, hcalls⟩ := runEach_of_steps draw t h ((State.interpret_eq_steps h t i.state).symm.trans hrun)
  refine ⟨last, pieces, hrun, ?_, hcalls⟩
  rw [runAll, Work.on_bind, Work.on_liftExcept, State.forM_check_ok h]
  exact heach

theorem runAll_append {more : List Command} (h : ∀ c ∈ commands, c.check = .ok ()) (hmore : ∀ c ∈ more, c.check = .ok ())
    (i : Interpreter σ) :
    (runAll draw t (commands ++ more)).on i = (runAll draw t commands >>= fun _ => runAll draw t more).on i := by
  have hall : ∀ c ∈ commands ++ more, c.check = .ok () := by
    intro c hc
    rcases List.mem_append.mp hc with hc | hc
    · exact h c hc
    · exact hmore c hc
  obtain ⟨middle, pieces, hrun, hfirst, -⟩ := runAll_of_checked draw t h i
  obtain ⟨last, drawn, hrun', hsecond, -⟩ := runAll_of_checked draw t hmore ⟨middle, pieces.foldl draw i.surface⟩
  obtain ⟨_, _, hwhole, hon, -⟩ := runAll_of_checked draw t hall i
  rw [State.interpret_append h hmore hrun, hrun'] at hwhole
  cases hwhole
  rw [hon, Work.on_bind, hfirst]
  simp only [hsecond, List.foldl_append]

theorem runAll_ne_absent (commands : List Command) (i : Interpreter σ) (number : Nat) :
    ((runAll draw t commands).on i).1 ≠ .error (.absent number) := by
  cases hdefect : commands.findSome? Command.defect? with
  | some e =>
    rw [runAll_of_defect hdefect]
    nofun
  | none =>
    obtain ⟨_, _, -, hrun, -⟩ := runAll_of_checked draw t (Command.findSome?_defect?_eq_none_iff.mp hdefect) i
    rw [hrun]
    nofun

/-- A path with a command that does not pass the check leaves the frame as it is. -/
theorem paintPath_of_defect (h : commands.findSome? Command.defect? = some e) (t : Transform Float) (style : Style)
    (frame : Frame) : (style.paintPath commands t).on frame = (.error e, frame) := by
  have hinterpret : State.initial.interpret t commands = .error e := by
    simp only [State.interpret, Command.forM_check_eq, h, bind, Except.bind]
  rw [Style.paintPath_eq, Work.on_whole, Frame.drawPath, hinterpret]
  rfl

/-- A list of commands is run as a whole or not at all. If one of them does not pass the check, the first
of these is reported, and the state, the surface and a frame that the path is painted on stay as they
were. Otherwise the list does what calls for its commands do one by one, which all succeed. A single
command that is refused changes nothing either, and none ever reads a parameter that is absent. So lists
that pass the check can be run as one list or one after the other. -/
theorem runAll_all_or_nothing (draw : σ → Primitive Float → σ) (t : Transform Float) (i : Interpreter σ)
    (commands : List Command) :
    (∀ e, commands.findSome? Command.defect? = some e → (runAll draw t commands).on i = (.error (.refused e), i) ∧
      ∀ (style : Style) (frame : Frame), (style.paintPath commands t).on frame = (.error e, frame)) ∧
    (commands.findSome? Command.defect? = none → ∃ last pieces,
      i.state.interpret t commands = .ok (last, pieces) ∧
      (runAll draw t commands).on i = (.ok (), ⟨last, pieces.foldl draw i.surface⟩) ∧
      Calls draw t i commands ⟨last, pieces.foldl draw i.surface⟩) ∧
    (∀ c e, c.defect? = some e → (runOne draw t c).on i = (.error (.refused e), i)) ∧
    (∀ number, (∀ c, ((runOne draw t c).on i).1 ≠ .error (.absent number)) ∧
      ((runAll draw t commands).on i).1 ≠ .error (.absent number)) ∧
    ∀ more, commands.findSome? Command.defect? = none → more.findSome? Command.defect? = none →
      (runAll draw t (commands ++ more)).on i = (runAll draw t commands >>= fun _ => runAll draw t more).on i := by
  refine ⟨fun e h => ⟨runAll_of_defect h i, paintPath_of_defect h t⟩, fun h => ?_, fun c e h => ?_, fun number => ?_,
    fun more h hmore => ?_⟩
  · exact runAll_of_checked draw t (Command.findSome?_defect?_eq_none_iff.mp h) i
  · exact runOne_of_error (Command.defect?_eq_some_iff.mp h) i
  · exact ⟨fun c => runOne_ne_absent c i number, runAll_ne_absent commands i number⟩
  · exact runAll_append (Command.findSome?_defect?_eq_none_iff.mp h) (Command.findSome?_defect?_eq_none_iff.mp hmore) i

/-- The line that lacks a coordinate is reported, before the line that has one too many. Nothing is drawn. -/
example :
    let line (parameters : List Float) : Command := ⟨⟨.lineTo, .relative⟩, parameters⟩
    let i : Interpreter (List (Primitive Float)) := ⟨.initial, []⟩
    (runAll (fun drawn piece => drawn ++ [piece]) .identity [.moveTo 1.0 2.0, line [3.0, 0.0], line [4.0], line [5.0, 6.0, 7.0]]).on i
      = (.error (.refused (.missingParameters 'l' 2 1)), i) := by
  rfl

end Interpreter

end VectorRaster.Path
