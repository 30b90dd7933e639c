/-
  VectorRaster.Proofs.Path.Joints — where the pieces of an outline meet.

  A command goes on from the current point. Its pieces start there, each of them where the one before it
  stops, and except for two kinds of command the one piece that it draws stops at the point that is the
  current one afterwards (`Command.draws`). A move draws nothing: it is where an outline is interrupted. An arc
  with two radii is drawn as cubics that are computed from its ellipse, so where the last of them stops
  may be off by rounding from where the path goes on.

  So between moves, and up to the end of such an arc, an outline has no gaps at all: its pieces lead from the
  point where they begin to the point where they end (`leads_trail`, `exists_leads_trail`), and closing a
  subpath leads back to its start (`leads_closed`).
-/

import VectorRaster.Proofs.Path.History

namespace VectorRaster

/-! ## Pieces one after the other -/

/-- Pieces that lead from one point to another: the first starts at the one, each of the others starts where
the piece before it stops, and the last stops at the other. -/
inductive Leads {α : Type} : Point α → List (Primitive α) → Point α → Prop
  | stay (p : Point α) : Leads p [] p
  | go {p q : Point α} {piece : Primitive α} {pieces : List (Primitive α)} :
      piece.start = p → Leads piece.stop pieces q → Leads p (piece :: pieces) q

namespace Leads

variable {α β : Type} {p q r : Point α} {pieces more : List (Primitive α)}

theorem append (h : Leads p pieces q) (hmore : Leads q more r) : Leads p (pieces ++ more) r := by
  induction h with
  | stay p => exact hmore
  | go hstart _ ih => exact .go hstart (ih hmore)

theorem map (f : Point α → Point β) (h : Leads p pieces q) : Leads (f p) (pieces.map (·.map f)) (f q) := by
  induction h with
  | stay p => exact .stay (f p)
  | @go p q piece pieces hstart _ ih =>
    refine .go ?_ ?_
    · rw [Primitive.start_map, hstart]
    · rw [Primitive.stop_map]
      exact ih

end Leads

namespace Path

variable {c : Command} {commands : List Command}

theorem leads_chain (start : Point Float) (sections : List (CubicSection Float)) :
    ∃ q, Leads start (chain start sections) q := by
  induction sections generalizing start with
  | nil => exact ⟨start, .stay start⟩
  | cons s sections ih =>
    obtain ⟨q, hq⟩ := ih s.stop
    exact ⟨q, .go rfl hq⟩

/-! ## One command -/

/-- Whether a command is an arc with two radii, which is drawn as cubics. -/
def Command.isCurvedArc (c : Command) : Bool :=
  match c.kind, c.parameters with
  | .ellipticalArcTo, radiusX :: radiusY :: _ => !(radiusX == 0.0 || radiusY == 0.0)
  | _, _ => false

/-- What a command draws from the point `p`, if the path goes on from `q` afterwards. -/
structure Command.Draws (c : Command) (p : Point Float) (pieces : List (Primitive Float)) (q : Point Float) : Prop where
  /-- The pieces start where the path is. -/
  leads : ∃ stop, Leads p pieces stop
  move : c.kind = .moveTo → pieces = []
  one : c.kind ≠ .moveTo → c.isCurvedArc = false → ∃ piece, pieces = [piece] ∧ piece.stop = q
  /-- An arc without a radius is a line. -/
  line : c.kind = .ellipticalArcTo → c.isCurvedArc = false → pieces = [.line p q]

namespace State

/-- The pieces that a command draws, on the surface. -/
def drawn (t : Transform Float) (s : State) (c : Command) : List (Primitive Float) :=
  match c.operation s.current with
  | .ok op => (s.apply op).2.map (·.transform t)
  | .error _ => []

/-- The pieces that commands draw, in order. -/
def trail (t : Transform Float) (s : State) : List Command → List (Primitive Float)
  | [] => []
  | c :: commands => s.drawn t c ++ (s.after c).trail t commands

theorem step_eq_drawn (h : c.check = .ok ()) (t : Transform Float) (s : State) :
    s.step t c = .ok (s.after c, s.drawn t c) := by
  obtain ⟨op, hop⟩ := Command.operation_ok h s.current
  rw [step_of_operation hop, after, drawn, hop]

theorem interpret_eq_trail (h : ∀ c ∈ commands, c.check = .ok ()) (t : Transform Float) (s : State) :
    s.interpret t commands = .ok (commands.foldl after s, s.trail t commands) := by
  rw [interpret_eq_steps h]
  induction commands generalizing s with
  | nil => rfl
  | cons c commands ih =>
    rw [steps_cons_of_step (step_eq_drawn (h c List.mem_cons_self) t s),
      ih (fun c hc => h c (List.mem_cons_of_mem _ hc)), trail]
    rfl

theorem trail_append (t : Transform Float) (s : State) (commands more : List Command) :
    s.trail t (commands ++ more) = s.trail t commands ++ (commands.foldl after s).trail t more := by
  induction commands generalizing s with
  | nil => rfl
  | cons c commands ih => rw [List.cons_append, trail, ih, trail, List.append_assoc, List.foldl_cons]

theorem trail_singleton (t : Transform Float) (s : State) (c : Command) : s.trail t [c] = s.drawn t c :=
  List.append_nil _

end State

/-- A command that draws a single piece, from where the path is to where it goes on. -/
theorem Command.Draws.of_piece {p q : Point Float} {piece : Primitive Float} (hmove : c.kind ≠ .moveTo)
    (hline : c.kind = .ellipticalArcTo → piece = .line p q) (hstart : piece.start = p) (hstop : piece.stop = q) :
    c.Draws p [piece] q where
  leads := ⟨piece.stop, .go hstart (.stay _)⟩
  move h := absurd h hmove
  one _ _ := ⟨piece, rfl, hstop⟩
  line harc _ := by rw [hline harc]

/-- Every command draws from the current point on. -/
theorem Command.draws (h : c.check = .ok ()) (t : Transform Float) (s : State) :
    c.Draws (t.apply s.current) (s.drawn t c) (t.apply (s.after c).current) := by
  cases c, h using Command.checkedCases with
  | moveTo mode x y => exact ⟨⟨_, .stay _⟩, fun _ => rfl, fun h => absurd rfl h, nofun⟩
  | ellipticalArcTo mode radiusX radiusY rotation large sweep x y =>
    cases hzero : radiusX == 0.0 || radiusY == 0.0 with
    | true =>
      -- no radius: the arc is a line
      have hdrawn : s.drawn t ⟨⟨.ellipticalArcTo, mode⟩, [radiusX, radiusY, rotation, large, sweep, x, y]⟩
          = [.line (t.apply s.current) (t.apply (mode.placePoint s.current x y))] := by
        simp only [State.drawn, operation, State.apply, hzero, if_true, List.map_cons, List.map_nil, Primitive.transform,
          Primitive.map]
      rw [hdrawn]
      exact .of_piece nofun (fun _ => rfl) rfl rfl
    | false =>
      have hcurved : isCurvedArc ⟨⟨.ellipticalArcTo, mode⟩, [radiusX, radiusY, rotation, large, sweep, x, y]⟩ = true := by
        simp only [isCurvedArc, hzero, Bool.not_false]
      refine ⟨?_, nofun, fun _ h => absurd (h.symm.trans hcurved) nofun, fun _ h => absurd (h.symm.trans hcurved) nofun⟩
      simp only [State.drawn, operation, State.apply, hzero, Bool.false_eq_true, if_false]
      obtain ⟨q, hq⟩ := leads_chain s.current (EllipticalArc.sections
        ⟨s.current, mode.placePoint s.current x y, radiusX, radiusY, rotation, large != 0.0, sweep != 0.0⟩)
      exact ⟨t.apply q, hq.map t.apply⟩
  | _ => exact .of_piece nofun nofun rfl rfl

/-! ## Runs -/

namespace State

/-- Without moves and curved arcs, each command draws a piece, and the pieces lead all the way. -/
theorem leads_trail (h : ∀ c ∈ commands, c.check = .ok ()) (hmove : ∀ c ∈ commands, c.kind ≠ .moveTo)
    (hcurved : ∀ c ∈ commands, c.isCurvedArc = false) (t : Transform Float) (s : State) :
    (s.trail t commands).length = commands.length ∧
      Leads (t.apply s.current) (s.trail t commands) (t.apply (commands.foldl after s).current) := by
  induction commands generalizing s with
  | nil => exact ⟨rfl, .stay _⟩
  | cons c commands ih =>
    have hdraws := Command.draws (h c List.mem_cons_self) t s
    obtain ⟨piece, hpiece, hstop⟩ := hdraws.one (hmove c List.mem_cons_self) (hcurved c List.mem_cons_self)
    obtain ⟨stop, hleads⟩ := hdraws.leads
    obtain ⟨hlen, hrest⟩ := ih (fun c hc => h c (List.mem_cons_of_mem _ hc)) (fun c hc => hmove c (List.mem_cons_of_mem _ hc))
      (fun c hc => hcurved c (List.mem_cons_of_mem _ hc)) (s.after c)
    rw [hpiece] at hleads
    rw [trail, hpiece, List.foldl_cons]
    refine ⟨by simp [hlen], ?_⟩
    cases hleads with
    | go hstart _ =>
      refine .go hstart ?_
      rw [hstop]
      exact hrest

/-- A curved arc at the end goes on from where the path is as well. -/
theorem exists_leads_trail (h : ∀ c ∈ commands, c.check = .ok ()) (hmove : ∀ c ∈ commands, c.kind ≠ .moveTo)
    (hcurved : ∀ c ∈ commands.dropLast, c.isCurvedArc = false) (t : Transform Float) (s : State) :
    ∃ stop, Leads (t.apply s.current) (s.trail t commands) stop := by
  rcases List.eq_nil_or_concat commands with hnil | ⟨first, c, hconcat⟩
  · rw [hnil]
    exact ⟨_, .stay _⟩
  · rw [List.concat_eq_append] at hconcat
    subst hconcat
    rw [List.dropLast_concat] at hcurved
    obtain ⟨-, hfirst⟩ := leads_trail (fun c hc => h c (List.mem_append_left _ hc))
      (fun c hc => hmove c (List.mem_append_left _ hc)) hcurved t s
    obtain ⟨stop, hlast⟩ := (Command.draws (h c (by simp)) t (first.foldl after s)).leads
    refine ⟨stop, ?_⟩
    rw [trail_append, trail_singleton]
    exact hfirst.append hlast

/-- After a move, and after the path has been closed, the path is at its start. -/
theorem current_after_eq_start (h : c.check = .ok ()) (hkind : c.kind = .moveTo ∨ c.kind = .closePath) (s : State) :
    (s.after c).current = (s.after c).start := by
  cases c, h using Command.checkedCases with
  | moveTo | closePath => rfl
  | _ => simp at hkind

/-- From the start of a subpath, closing it leads back to the start. -/
theorem leads_closed {close : Command} (h : ∀ c ∈ commands, c.check = .ok ()) (hclose : close.check = .ok ())
    (hkind : close.kind = .closePath) (hmove : ∀ c ∈ commands, c.kind ≠ .moveTo)
    (hcurved : ∀ c ∈ commands, c.isCurvedArc = false) (t : Transform Float) {s : State} (hs : s.current = s.start) :
    Leads (t.apply s.start) (s.trail t (commands ++ [close])) (t.apply s.start) := by
  obtain ⟨-, hfirst⟩ := leads_trail h hmove hcurved t s
  have hchecked : ∀ c ∈ [close], c.check = .ok () := by simpa using hclose
  obtain ⟨-, hlast⟩ := leads_trail hchecked (by simp [hkind]) (by simp [Command.isCurvedArc, hkind]) t
    (commands.foldl after s)
  have hstop : (close :: []).foldl after (commands.foldl after s) = (commands.foldl after s).after close := rfl
  rw [hstop, current_after_closePath hclose hkind, start_foldl_after h hmove] at hlast
  rw [hs] at hfirst
  rw [trail_append]
  exact hfirst.append hlast

/-- A run of checked commands, cut into what comes before some of them, these, and what comes later. Its
pieces are those of the three parts, one after the other, and each part begins where the one before it
leads.

Any single command draws as `Command.Draws` says, and a move or a closed path leaves the path at the start of its
subpath. Several commands without a move, of which none but the last is a curved arc, draw pieces without
gaps; if the last is none either, one for each command, up to the point where they lead. And several
that begin at the start of the subpath lead back to it with the next closing. -/
theorem interpret_joined (h : ∀ c ∈ commands, c.check = .ok ()) (t : Transform Float) (s : State) :
    s.interpret t commands = .ok (commands.foldl after s, s.trail t commands) ∧
    (∀ before middle later, commands = before ++ (middle ++ later) →
      s.trail t commands = s.trail t before ++ ((before.foldl after s).trail t middle ++
        (middle.foldl after (before.foldl after s)).trail t later)) ∧
    (∀ before c later, commands = before ++ ([c] ++ later) →
      let here := before.foldl after s
      c.Draws (t.apply here.current) (here.trail t [c]) (t.apply (here.after c).current) ∧
      (c.kind = .moveTo ∨ c.kind = .closePath → (here.after c).current = (here.after c).start)) ∧
    (∀ before middle later, commands = before ++ (middle ++ later) → (∀ c ∈ middle, c.kind ≠ .moveTo) →
      (∀ c ∈ middle.dropLast, c.isCurvedArc = false) →
      let here := before.foldl after s
      (∃ stop, Leads (t.apply here.current) (here.trail t middle) stop) ∧
      ((∀ c ∈ middle, c.isCurvedArc = false) → (here.trail t middle).length = middle.length ∧
        Leads (t.apply here.current) (here.trail t middle) (t.apply (middle.foldl after here).current))) ∧
    ∀ before middle close later, commands = before ++ ((middle ++ [close]) ++ later) → close.kind = .closePath →
      (∀ c ∈ middle, c.kind ≠ .moveTo) → (∀ c ∈ middle, c.isCurvedArc = false) →
      let here := before.foldl after s
      here.current = here.start →
        Leads (t.apply here.start) (here.trail t (middle ++ [close])) (t.apply here.start) := by
  refine ⟨interpret_eq_trail h t s, fun before middle later hsplit => ?_, fun before c later hsplit => ?_,
    fun before middle later hsplit hmove hcurved => ⟨?_, fun hall => ?_⟩,
    fun before middle close later hsplit hclose hmove hcurved => ?_⟩
  · rw [hsplit, trail_append, trail_append]
  · intro here
    have hc : c.check = .ok () := h c (by simp [hsplit])
    rw [trail_singleton]
    exact ⟨Command.draws hc t here, fun hkind => current_after_eq_start hc hkind here⟩
  · exact exists_leads_trail (fun c hc => h c (by simp [hsplit, hc])) hmove hcurved t _
  · exact leads_trail (fun c hc => h c (by simp [hsplit, hc])) hmove hall t _
  · intro here hstart
    exact leads_closed (fun c hc => h c (by simp [hsplit, hc])) (h close (by simp [hsplit])) hclose hmove hcurved t hstart

/-- A triangle, with an arc for one side that has no radius and is a line. -/
theorem interpret_joined_triangle :
    let t : Transform Float := ⟨2.0, 2.0, 1.0, 0.0⟩
    let sides : List Command := [.lineTo 5.0 1.0, ⟨⟨.ellipticalArcTo, .relative⟩, [0.0, 3.0, 0.0, 0.0, 1.0, 0.0, 4.0]⟩]
    let commands : List Command := [.moveTo 2.0 1.0] ++ (sides ++ [.closePath])
    let pieces : List (Primitive Float) :=
      [.line ⟨2.0, 2.0⟩ ⟨8.0, 2.0⟩, .line ⟨8.0, 2.0⟩ ⟨8.0, 10.0⟩, .line ⟨8.0, 10.0⟩ ⟨2.0, 2.0⟩]
    (∀ c ∈ commands, c.check = .ok ()) ∧ (∃ last, State.initial.interpret t commands = .ok (last, pieces)) ∧
      Leads ⟨2.0, 2.0⟩ pieces ⟨2.0, 2.0⟩ := by
  intro t sides commands pieces
  have hc : ∀ c ∈ commands, c.check = .ok () := by decide
  obtain ⟨hrun, -, -, -, hclosed⟩ := interpret_joined hc t .initial
  have hleads := hclosed [.moveTo 2.0 1.0] sides .closePath [] (by rw [List.append_nil]) rfl (by decide)
    (by decide +kernel) rfl
  have htrail : State.initial.trail t commands = pieces := by decide +kernel
  have hsides : ([Command.moveTo 2.0 1.0].foldl after State.initial).trail t (sides ++ [Command.closePath]) = pieces := by
    decide +kernel
  have hstart : t.apply ([Command.moveTo 2.0 1.0].foldl after State.initial).start = ⟨2.0, 2.0⟩ := by decide +kernel
  rw [htrail] at hrun
  rw [hsides, hstart] at hleads
  exact ⟨hc, ⟨_, hrun⟩, hleads⟩

end State

end Path

end VectorRaster
