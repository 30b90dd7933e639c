/-
  VectorRaster.Proofs.Path.Checked — commands that pass the check can be run.

  The check compares the number of parameters with the kind's. That is all a command needs to
  have an operation at any point (`operation_ok`), so a run of checked commands from any state
  reaches its end (`steps_ok`), and so does an interpretation, which checks them all first.
-/

import VectorRaster.Path.State

namespace VectorRaster.Path

variable {c : Command} {commands : List Command}

theorem Command.check_eq_ok_iff : c.check = .ok () ↔ c.parameters.length = c.kind.arity := by
  unfold check
  split <;> simp_all

theorem Command.operation_ok (h : c.check = .ok ()) (current : Point Float) : ∃ op, c.operation current = .ok op := by
  have hlen := check_eq_ok_iff.mp h
  obtain ⟨⟨kind, mode⟩, parameters⟩ := c
  unfold operation
  -- each kind's number of parameters leaves one pattern
  cases kind <;> simp only [Kind.arity] at hlen
  case closePath => obtain rfl := List.eq_nil_of_length_eq_zero hlen; exact ⟨_, rfl⟩
  case horizontalLineTo | verticalLineTo => obtain ⟨x, rfl⟩ := List.length_eq_one_iff.mp hlen; exact ⟨_, rfl⟩
  all_goals
    repeat
      rcases parameters with _ | ⟨_, parameters⟩
      · simp at hlen
    simp at hlen
    subst hlen
    exact ⟨_, rfl⟩

theorem Command.check_of_operation {current : Point Float} {op : Operation} (h : c.operation current = .ok op) :
    c.check = .ok () := by
  obtain ⟨⟨kind, mode⟩, parameters⟩ := c
  unfold operation at h
  split at h
  all_goals first | (rename_i hkind hparameters; cases hkind; cases hparameters; rfl) | cases h

/-- A command that does not pass the check cannot be run anywhere. -/
theorem Command.operation_of_check_ne (h : c.check ≠ .ok ()) (current : Point Float) :
    c.operation current = .error c.countError := by
  cases hop : c.operation current with
  | ok op => exact absurd (check_of_operation hop) h
  | error e =>
    unfold operation at hop
    split at hop
    all_goals cases hop
    rfl

instance (c : Command) : Decidable (c.check = .ok ()) := decidable_of_iff _ Command.check_eq_ok_iff.symm

namespace State

theorem step_of_operation {t : Transform Float} {s : State} {op : Operation} (h : c.operation s.current = .ok op) :
    s.step t c = .ok ((s.apply op).1, (s.apply op).2.map (·.transform t)) := by
  simp [step, h, bind, Except.bind, pure, Except.pure]

theorem steps_cons_of_step {t : Transform Float} {s middle : State} {pieces : List (Primitive Float)}
    (h : s.step t c = .ok (middle, pieces)) :
    s.steps t (c :: commands) = (middle.steps t commands).map fun rest => (rest.1, pieces ++ rest.2) := by
  simp only [steps, h, bind, Except.bind]
  cases middle.steps t commands <;> rfl

theorem steps_ok (h : ∀ c ∈ commands, c.check = .ok ()) (t : Transform Float) (s : State) :
    ∃ outcome, s.steps t commands = .ok outcome := by
  induction commands generalizing s with
  | nil => exact ⟨_, rfl⟩
  | cons c commands ih =>
    obtain ⟨op, hop⟩ := Command.operation_ok (h c List.mem_cons_self) s.current
    obtain ⟨rest, hrest⟩ := ih (fun c hc => h c (List.mem_cons_of_mem _ hc)) (s.apply op).1
    refine ⟨(rest.1, (s.apply op).2.map (·.transform t) ++ rest.2), ?_⟩
    rw [steps_cons_of_step (step_of_operation hop), hrest]
    rfl

theorem forM_check_cons : (c :: commands).forM Command.check = c.check.bind fun _ => commands.forM Command.check := rfl

theorem forM_check_ok (h : ∀ c ∈ commands, c.check = .ok ()) : commands.forM Command.check = .ok () := by
  induction commands with
  | nil => rfl
  | cons c commands ih =>
    rw [forM_check_cons, h c List.mem_cons_self]
    exact ih fun c hc => h c (List.mem_cons_of_mem _ hc)

theorem forM_check_eq_ok_iff : commands.forM Command.check = .ok () ↔ ∀ c ∈ commands, c.check = .ok () := by
  refine ⟨fun h => ?_, forM_check_ok⟩
  induction commands with
  | nil => intro c hc; cases hc
  | cons c commands ih =>
    rw [forM_check_cons] at h
    cases hc : c.check with
    | error e =>
      rw [hc] at h
      cases h
    | ok u =>
      rw [hc] at h
      intro c' hc'
      rcases List.mem_cons.mp hc' with rfl | hc'
      · exact hc
      · exact ih h c' hc'

/-- Checked commands are interpreted one after another. -/
theorem interpret_eq_steps (h : ∀ c ∈ commands, c.check = .ok ()) (t : Transform Float) (s : State) :
    s.interpret t commands = s.steps t commands := by
  simp only [interpret, forM_check_ok h]
  rfl

theorem interpret_ok (h : ∀ c ∈ commands, c.check = .ok ()) (t : Transform Float) (s : State) :
    ∃ outcome, s.interpret t commands = .ok outcome := by
  rw [interpret_eq_steps h]
  exact steps_ok h t s

end State

end VectorRaster.Path
