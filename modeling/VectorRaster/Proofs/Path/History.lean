/-
  VectorRaster.Proofs.Path.History — what an interpreter remembers of the commands it has run.

  An interpreter is asked for single commands and for lists of commands. It refuses a command that
  does not pass the check, and a list with one of these. Its history is what it has run of all that,
  and a refused request leaves no trace: the state is the one that the history alone leads to
  (`run_eq_reached`).

  Four things are remembered, and each of them can be read off the history (`Remembers`): the control
  points of the last command, the last move, and that closing the path goes back to it. The steps are the
  lemmas on `after`, one case for each kind of command; the most recent move needs an induction over
  what came after it.
-/

import VectorRaster.Proofs.Path.Longhand

namespace VectorRaster.Path

/-! ## Requests -/

/-- What an interpreter can be asked for. -/
inductive Request where
  | one (command : Command)
  /-- Commands that are run in order, if all of them pass the check. -/
  | all (commands : List Command)

/-- The commands that are run on a request. One that is refused runs none. -/
def Request.granted : Request → List Command
  | one c => if c.check = .ok () then [c] else []
  | all commands => if ∀ c ∈ commands, c.check = .ok () then commands else []

theorem Request.check_of_mem_granted {r : Request} {c : Command} (h : c ∈ r.granted) : c.check = .ok () := by
  cases r with
  | one c' =>
    simp only [granted] at h
    split at h
    · rw [List.mem_singleton.mp h]
      assumption
    · cases h
  | all commands =>
    simp only [granted] at h
    split at h
    · rename_i hall
      exact hall c h
    · cases h

namespace State

variable {s : State} {t : Transform Float} {c : Command}

/-- The state after a request. One that is refused leaves the state as it is. -/
def serve (t : Transform Float) (s : State) (r : Request) : State :=
  let result := match r with
    | .one c => s.step t c
    | .all commands => s.interpret t commands
  match result with
  | .ok outcome => outcome.1
  | .error _ => s

/-- The state after requests from the beginning. -/
def run (t : Transform Float) (requests : List Request) : State := requests.foldl (serve t) .initial

/-- The state that a history of commands leads to. -/
def reached (history : List Command) : State := history.foldl after .initial

theorem reached_append (before later : List Command) : reached (before ++ later) = later.foldl after (reached before) :=
  List.foldl_append

theorem reached_concat (before : List Command) (c : Command) : reached (before ++ [c]) = (reached before).after c :=
  reached_append before [c]

theorem steps_eq_foldl {commands : List Command} (h : ∀ c ∈ commands, c.check = .ok ()) (t : Transform Float) (s : State) :
    ∃ pieces, s.steps t commands = .ok (commands.foldl after s, pieces) := by
  induction commands generalizing s with
  | nil => exact ⟨[], rfl⟩
  | cons c commands ih =>
    obtain ⟨pieces, hstep⟩ := step_eq_after (h c List.mem_cons_self) t s
    obtain ⟨more, hrest⟩ := ih (fun c hc => h c (List.mem_cons_of_mem _ hc)) (s.after c)
    exact ⟨pieces ++ more, by rw [steps_cons_of_step hstep, hrest]; rfl⟩

theorem interpret_of_not_checked {commands : List Command} (h : ¬∀ c ∈ commands, c.check = .ok ()) (t : Transform Float)
    (s : State) : ∃ e, s.interpret t commands = .error e := by
  cases hcheck : commands.forM Command.check with
  | ok _ => exact absurd (forM_check_eq_ok_iff.mp hcheck) h
  | error e => exact ⟨e, by simp only [interpret, hcheck]; rfl⟩

/-- A request leaves the state that the commands it runs lead to. -/
theorem serve_eq (t : Transform Float) (s : State) (r : Request) : s.serve t r = r.granted.foldl after s := by
  cases r with
  | one c =>
    by_cases hc : c.check = .ok ()
    · obtain ⟨pieces, hstep⟩ := step_eq_after hc t s
      simp [serve, hstep, Request.granted, hc]
    · have hstep : s.step t c = .error c.countError := by
        rw [step, Command.operation_of_check_ne hc]
        rfl
      simp [serve, hstep, Request.granted, hc]
  | all commands =>
    by_cases hc : ∀ c ∈ commands, c.check = .ok ()
    · obtain ⟨pieces, hsteps⟩ := steps_eq_foldl hc t s
      simp only [serve, interpret_eq_steps hc, hsteps, Request.granted, if_pos hc]
    · obtain ⟨e, he⟩ := interpret_of_not_checked hc t s
      simp only [serve, he, Request.granted, if_neg hc, List.foldl_nil]

theorem run_eq_reached (t : Transform Float) (requests : List Request) :
    run t requests = reached (requests.flatMap Request.granted) := by
  have hserve : serve t = fun s r => r.granted.foldl after s := funext fun s => funext fun r => serve_eq t s r
  rw [run, reached, List.foldl_flatMap, hserve]

end State

/-! ## Single commands -/

/-- The position that the parameters at `i` and after it stand for. -/
def Command.position (c : Command) (current : Point Float) (i : Nat) : Point Float :=
  c.mode.placePoint current (c.parameters.getD i 0.0) (c.parameters.getD (i + 1) 0.0)

namespace State

variable {s : State} {c : Command}

/-- Cubic curves leave their second control point, and other commands none. -/
theorem lastCubic_after (h : c.check = .ok ()) (s : State) : (s.after c).lastCubic = match c.kind with
    | .cubicCurveTo => some (c.position s.current 2)
    | .smoothCubicCurveTo => some (c.position s.current 0)
    | _ => none := by
  cases c, h using Command.checkedCases with
  | _ => rfl

/-- Quadratic curves leave their control point, written or reflected, and other commands none. -/
theorem lastQuadratic_after (h : c.check = .ok ()) (s : State) : (s.after c).lastQuadratic = match c.kind with
    | .quadraticCurveTo => some (c.position s.current 0)
    | .smoothQuadraticCurveTo => some (s.smoothQuadraticControl (c.position s.current 0))
    | _ => none := by
  cases c, h using Command.checkedCases with
  | _ => rfl

/-- Moves set where the path starts, and no other command does. -/
theorem start_after (h : c.check = .ok ()) (s : State) :
    (s.after c).start = if c.kind = .moveTo then c.position s.current 0 else s.start := by
  cases c, h using Command.checkedCases with
  | _ => rfl

theorem current_after_closePath (h : c.check = .ok ()) (hkind : c.kind = .closePath) (s : State) :
    (s.after c).current = s.start := by
  cases c, h using Command.checkedCases with
  | closePath => rfl
  | _ => cases hkind

theorem start_foldl_after {later : List Command} (h : ∀ c ∈ later, c.check = .ok ())
    (hkind : ∀ c ∈ later, c.kind ≠ .moveTo) (s : State) : (later.foldl after s).start = s.start := by
  induction later generalizing s with
  | nil => rfl
  | cons c later ih =>
    rw [List.foldl_cons, ih (fun c hc => h c (List.mem_cons_of_mem _ hc)) fun c hc => hkind c (List.mem_cons_of_mem _ hc),
      start_after (h c List.mem_cons_self), if_neg (hkind c List.mem_cons_self)]

/-! ## Histories -/

/-- What the state after a history says of it. Where a command reads its parameters is where the
commands before it lead. -/
structure Remembers (history : List Command) (s : State) : Prop where
  /-- The control point of a cubic curve is remembered right after one. -/
  lastCubic_iff : s.lastCubic.isSome = true ↔
    ∃ c, history.getLast? = some c ∧ (c.kind = .cubicCurveTo ∨ c.kind = .smoothCubicCurveTo)
  /-- The control point of a quadratic curve is remembered right after one. -/
  lastQuadratic_iff : s.lastQuadratic.isSome = true ↔
    ∃ c, history.getLast? = some c ∧ (c.kind = .quadraticCurveTo ∨ c.kind = .smoothQuadraticCurveTo)
  one : s.lastCubic = none ∨ s.lastQuadratic = none
  cubic : ∀ before c, history = before ++ [c] → c.kind = .cubicCurveTo →
    s.lastCubic = some (c.position (reached before).current 2)
  smoothCubic : ∀ before c, history = before ++ [c] → c.kind = .smoothCubicCurveTo →
    s.lastCubic = some (c.position (reached before).current 0)
  quadratic : ∀ before c, history = before ++ [c] → c.kind = .quadraticCurveTo →
    s.lastQuadratic = some (c.position (reached before).current 0)
  /-- After another quadratic curve, a smooth one leaves the reflection that it was drawn with. -/
  reflected : ∀ before c control, history = before ++ [c] → c.kind = .smoothQuadraticCurveTo →
    (reached before).lastQuadratic = some control →
    s.lastQuadratic = some ((reached before).current.reflect control)
  /-- With nothing to reflect, it leaves its end. -/
  unreflected : ∀ before c, history = before ++ [c] → c.kind = .smoothQuadraticCurveTo →
    (reached before).lastQuadratic = none → s.lastQuadratic = some (c.position (reached before).current 0)
  /-- The path starts where the most recent move went. -/
  moved : ∀ before c later, history = before ++ c :: later → c.kind = .moveTo → (∀ d ∈ later, d.kind ≠ .moveTo) →
    s.start = c.position (reached before).current 0
  unmoved : (∀ c ∈ history, c.kind ≠ .moveTo) → s.start = .origin
  closed : ∀ before c, history = before ++ [c] → c.kind = .closePath → s.current = s.start

variable {history : List Command}

theorem lastCubic_reached_iff (h : ∀ c ∈ history, c.check = .ok ()) : (reached history).lastCubic.isSome = true ↔
    ∃ c, history.getLast? = some c ∧ (c.kind = .cubicCurveTo ∨ c.kind = .smoothCubicCurveTo) := by
  rcases List.eq_nil_or_concat history with rfl | ⟨before, c, rfl⟩
  · simp [reached, initial]
  · rw [List.concat_eq_append] at h ⊢
    rw [reached_concat, lastCubic_after (h c (by simp))]
    cases hkind : c.kind <;> simp [hkind]

theorem lastQuadratic_reached_iff (h : ∀ c ∈ history, c.check = .ok ()) :
    (reached history).lastQuadratic.isSome = true ↔
      ∃ c, history.getLast? = some c ∧ (c.kind = .quadraticCurveTo ∨ c.kind = .smoothQuadraticCurveTo) := by
  rcases List.eq_nil_or_concat history with rfl | ⟨before, c, rfl⟩
  · simp [reached, initial]
  · rw [List.concat_eq_append] at h ⊢
    rw [reached_concat, lastQuadratic_after (h c (by simp))]
    cases hkind : c.kind <;> simp [hkind]

/-- No command leaves control points of both kinds. -/
theorem lastCubic_or_lastQuadratic_eq_none (h : ∀ c ∈ history, c.check = .ok ()) :
    (reached history).lastCubic = none ∨ (reached history).lastQuadratic = none := by
  by_cases hcubic : (reached history).lastCubic.isSome = true
  · obtain ⟨c, hc, hkind⟩ := (lastCubic_reached_iff h).mp hcubic
    right
    refine Option.not_isSome_iff_eq_none.mp fun hquadratic => ?_
    obtain ⟨c', hc', hkind'⟩ := (lastQuadratic_reached_iff h).mp hquadratic
    cases hc.symm.trans hc'
    rcases hkind with hkind | hkind <;> simp [hkind] at hkind'
  · exact .inl (Option.not_isSome_iff_eq_none.mp hcubic)

theorem remembers_reached (h : ∀ c ∈ history, c.check = .ok ()) : Remembers history (reached history) where
  lastCubic_iff := lastCubic_reached_iff h
  lastQuadratic_iff := lastQuadratic_reached_iff h
  one := lastCubic_or_lastQuadratic_eq_none h
  cubic := by
    intro before c hsplit hkind
    subst hsplit
    rw [reached_concat, lastCubic_after (h c (by simp)), hkind]
  smoothCubic := by
    intro before c hsplit hkind
    subst hsplit
    rw [reached_concat, lastCubic_after (h c (by simp)), hkind]
  quadratic := by
    intro before c hsplit hkind
    subst hsplit
    rw [reached_concat, lastQuadratic_after (h c (by simp)), hkind]
  reflected := by
    intro before c control hsplit hkind hcontrol
    subst hsplit
    rw [reached_concat, lastQuadratic_after (h c (by simp)), hkind]
    simp only [smoothQuadraticControl, hcontrol]
  unreflected := by
    intro before c hsplit hkind hnone
    subst hsplit
    rw [reached_concat, lastQuadratic_after (h c (by simp)), hkind]
    simp only [smoothQuadraticControl, hnone]
  moved := by
    intro before c later hsplit hkind hlater
    subst hsplit
    rw [reached_append, List.foldl_cons, start_foldl_after (fun d hd => h d (by simp [hd])) hlater,
      start_after (h c (by simp)), if_pos hkind]
  unmoved := by
    intro hkind
    exact start_foldl_after h hkind .initial
  closed := by
    intro before c hsplit hkind
    subst hsplit
    rw [reached_concat, current_after_closePath (h c (by simp)) hkind, start_after (h c (by simp)),
      if_neg (by simp [hkind])]

/-- Whatever an interpreter was asked for from the beginning, its state remembers the commands that it
has run: refused requests in between have no part in it. -/
theorem run_remembers (t : Transform Float) (requests : List Request) :
    let history := requests.flatMap Request.granted
    (∀ c ∈ history, c.check = .ok ()) ∧ run t requests = reached history ∧ Remembers history (run t requests) := by
  intro history
  have hc : ∀ c ∈ history, c.check = .ok () := by
    intro c hc
    obtain ⟨r, -, hgranted⟩ := List.mem_flatMap.mp hc
    exact Request.check_of_mem_granted hgranted
  refine ⟨hc, run_eq_reached t requests, ?_⟩
  rw [run_eq_reached]
  exact remembers_reached hc

/-- A smooth curve reflects what the one before it has reflected, and the refused curve between them is not there. -/
example :
    let smooth (x y : Float) : Command := ⟨⟨.smoothQuadraticCurveTo, .absolute⟩, [x, y]⟩
    (run .identity [.all [.moveTo 0.0 0.0, ⟨⟨.quadraticCurveTo, .absolute⟩, [1.0, 1.0, 2.0, 0.0]⟩], .one (smooth 4.0 0.0),
      .one ⟨⟨.smoothQuadraticCurveTo, .absolute⟩, [9.0]⟩, .one (smooth 6.0 0.0)]).lastQuadratic = some ⟨5.0, 1.0⟩ := by
  decide +kernel

end State

end VectorRaster.Path
