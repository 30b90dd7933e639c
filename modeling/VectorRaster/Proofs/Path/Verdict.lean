/-
  VectorRaster.Proofs.Path.Verdict — which token decides that path data cannot be read, and for what.

  The reader takes one token after the other and never looks ahead (`reads`). Data that it has got through
  can always be gone on with (`viable_iff_reads`): the command it stands in lacks nothing but numbers.
  So there are two ways to fail. Data that can be gone on with fails only because it ends inside a
  command, which lacks parameters (`CutShort`). Other data has a first token that nothing can come
  after, and the reader stops there with an error that says what is wrong with this token where it stands
  (`Rejected`); what follows the token changes nothing.

  What the tokens so far say of the reader's place among them is `Progress.Stands`, kept by each token
  (`stands_of_read`) and so by a run (`stands_of_reads`). Main statement: `ofTokens_decided`.
-/

import VectorRaster.Proofs.Path.Grammar

namespace VectorRaster.Path

open Numeric

/-! ## What is wrong -/

/-- Data that can be gone on with to data that can be read. -/
def Viable (tokens : List Token) : Prop := ∃ more commands, ofTokens (tokens ++ more) = .ok commands

/-- Data whose last letter says `header`, with the numbers `texts` after it. -/
def EndsWith (tokens : List Token) (header : Header) (texts : List String) : Prop :=
  ∃ before, tokens = before ++ .command header.letter :: texts.map .number

/-- Data that ends inside a command. All whole blocks of its numbers are commands; the last command has the rest of
them, which are too few, and the error names its letter as it is written. -/
def CutShort (tokens : List Token) (e : PathError) : Prop :=
  ∃ header texts, EndsWith tokens header texts ∧ texts.length % header.kind.arity < header.kind.arity ∧
    (texts = [] ∨ texts.length % header.kind.arity ≠ 0) ∧
    e = .missingParameters header.letter header.kind.arity (texts.length % header.kind.arity)

/-- What is wrong with a token that comes after others. -/
inductive Rejected : List Token → Token → PathError → Prop
  /-- A letter in the place of a parameter, whether it is one of a command or not. -/
  | cutShort {before : List Token} {e : PathError} (letter : Char) :
      CutShort before e → Rejected before (.command letter) e
  | unknownCommand {before : List Token} {commands : List Command} {letter : Char} :
      ofTokens before = .ok commands → Header.ofLetter? letter = none →
      Rejected before (.command letter) (.unknownCommand letter)
  | missingMoveTo {letter : Char} {header : Header} :
      Header.ofLetter? letter = some header → header.kind ≠ .moveTo →
      Rejected [] (.command letter) (.missingMoveTo letter)
  | numberFirst (text : String) : Rejected [] (.number text) .noActiveCommand
  /-- A number, whether it can be read or not, after a command that has no parameters. -/
  | numberAfter {before : List Token} {header : Header} (text : String) :
      EndsWith before header [] → header.kind.arity = 0 → Rejected before (.number text) .noActiveCommand
  | badNumber {before : List Token} {header : Header} {texts : List String} {text : String} :
      EndsWith before header texts → header.kind.arity ≠ 0 → finiteFloat? text.toList = none →
      Rejected before (.number text) (.badNumber text)

/-! ## Reading on -/

namespace Progress

variable {p : Progress} {header : Header} {found : List Float} {tokens : List Token} {t : Token} {e : PathError}

/-- Reads tokens that need not be all of the data. -/
def reads (p : Progress) : List Token → Except PathError (Progress × List Command)
  | [] => .ok (p, [])
  | t :: ts => do
    let (next, done) ← p.read t
    let (last, commands) ← next.reads ts
    return (last, done.toList ++ commands)

theorem reads_cons (p : Progress) (t : Token) (ts : List Token) :
    p.reads (t :: ts) = (p.read t).bind fun out => (out.1.reads ts).map fun rest => (rest.1, out.2.toList ++ rest.2) := by
  simp only [reads]
  cases p.read t with
  | error e => rfl
  | ok out => cases h : out.1.reads ts <;> simp [bind, Except.bind, Except.map, h, pure, Except.pure]

/-- The reader does not look ahead: what comes later is read from where the earlier tokens lead. -/
theorem commands_append (p : Progress) (ts more : List Token) :
    p.commands (ts ++ more) = (p.reads ts).bind fun out => (out.1.commands more).map (out.2 ++ ·) := by
  induction ts generalizing p with
  | nil =>
    rw [List.nil_append]
    show p.commands more = (p.commands more).map ([] ++ ·)
    cases p.commands more <;> rfl
  | cons t ts ih =>
    rw [List.cons_append, commands_cons, reads_cons]
    cases p.read t with
    | error e => rfl
    | ok out =>
      simp only [Except.bind, ih]
      cases out.1.reads ts with
      | error e => rfl
      | ok rest =>
        simp only [Except.map]
        cases rest.1.commands more <;> simp

theorem commands_eq_reads (p : Progress) (ts : List Token) :
    p.commands ts = (p.reads ts).bind fun out => out.1.finish.map fun _ => out.2 := by
  have h := commands_append p ts []
  rw [List.append_nil] at h
  rw [h]
  cases p.reads ts with
  | error e => rfl
  | ok out => cases hfinish : out.1.finish <;> simp [Except.bind, commands, hfinish, bind, pure, Except.pure, Except.map]

theorem reads_cons_eq_ok {ts : List Token} {out : Progress × List Command} (h : p.reads (t :: ts) = .ok out) :
    ∃ next rest, p.read t = .ok next ∧ next.1.reads ts = .ok rest ∧ out = (rest.1, next.2.toList ++ rest.2) := by
  rw [reads_cons] at h
  cases hread : p.read t with
  | error e => simp [hread, Except.bind] at h
  | ok next =>
    cases hrest : next.1.reads ts with
    | error e => simp [hread, hrest, Except.bind, Except.map] at h
    | ok rest =>
      simp only [hread, hrest, Except.bind, Except.map, Except.ok.injEq] at h
      exact ⟨next, rest, rfl, hrest, h.symm⟩

theorem lacking_of_reads {out : Progress × List Command} (hp : p.Lacking) (h : p.reads tokens = .ok out) :
    out.1.Lacking := by
  induction tokens generalizing p out with
  | nil =>
    cases h
    exact hp
  | cons t ts ih =>
    obtain ⟨next, rest, hread, hrest, rfl⟩ := reads_cons_eq_ok h
    show rest.1.Lacking
    exact ih (lacking_of_read hread) hrest

/-- Where the reader stops, there is a first token that it cannot take. -/
theorem exists_read_error (h : p.reads tokens = .error e) : ∃ before t later out,
    tokens = before ++ t :: later ∧ p.reads before = .ok out ∧ out.1.read t = .error e := by
  induction tokens generalizing p with
  | nil => cases h
  | cons t ts ih =>
    rw [reads_cons] at h
    cases hread : p.read t with
    | error e' =>
      simp only [hread, Except.bind, Except.error.injEq] at h
      exact ⟨[], t, ts, (p, []), rfl, rfl, by rw [hread, h]⟩
    | ok next =>
      cases hrest : next.1.reads ts with
      | ok rest => simp [hread, hrest, Except.bind, Except.map] at h
      | error e' =>
        simp only [hread, hrest, Except.bind, Except.map, Except.error.injEq] at h
        obtain ⟨before, t', later, out, hsplit, hbefore, herror⟩ := ih (hrest.trans (congrArg _ h))
        refine ⟨t :: before, t', later, (out.1, next.2.toList ++ out.2), by rw [hsplit]; rfl, ?_, herror⟩
        rw [reads_cons, hread]
        simp only [Except.bind, hbefore, Except.map]

/-- A token that the reader cannot take ends the data for it. -/
theorem commands_of_read_error {out : Progress × List Command} (h : p.reads tokens = .ok out)
    (ht : out.1.read t = .error e) (more : List Token) : p.commands (tokens ++ t :: more) = .error e := by
  rw [commands_append, h]
  simp only [Except.bind, commands_cons, ht, Except.map]

/-- Wherever the reader is, there is something that it can still take to the end: at most the numbers that
a command lacks. -/
theorem exists_rest (hp : p.Lacking) : ∃ more commands, p.commands more = .ok commands := by
  have hafter : ∀ header, RestAfter header [] [] := fun header => ⟨[], [], fun _ => rfl, rfl, rfl⟩
  cases p with
  | start => exact ⟨[], [], rfl⟩
  | complete header => exact ⟨[], [], rfl⟩
  | partway header found =>
    let zero : Parameter := ⟨"0", 0.0, by decide +kernel⟩
    let lacking := List.replicate (header.kind.arity - found.length) zero
    have hlt : found.length < header.kind.arity := hp
    have hlen : found.length + lacking.length = header.kind.arity := by
      rw [List.length_replicate]
      omega
    exact ⟨_, _, (commands_eq_ok_iff hp).mpr ⟨lacking, [], [], hlen, hafter header, rfl, rfl⟩⟩

end Progress

theorem viable_iff_reads {tokens : List Token} : Viable tokens ↔ ∃ out, Progress.start.reads tokens = .ok out := by
  constructor
  · intro h
    obtain ⟨more, commands, h⟩ := h
    rw [ofTokens, Progress.commands_append] at h
    cases hreads : Progress.start.reads tokens with
    | error e => simp [hreads, Except.bind] at h
    | ok out => exact ⟨out, rfl⟩
  · intro h
    obtain ⟨out, hout⟩ := h
    obtain ⟨more, commands, hmore⟩ := Progress.exists_rest (Progress.lacking_of_reads (p := .start) trivial hout)
    refine ⟨more, out.2 ++ commands, ?_⟩
    rw [ofTokens, Progress.commands_append, hout]
    simp only [Except.bind, hmore, Except.map]

theorem Viable.of_append {before later : List Token} (h : Viable (before ++ later)) : Viable before := by
  obtain ⟨more, commands, h⟩ := h
  rw [List.append_assoc] at h
  exact ⟨later ++ more, commands, h⟩

/-! ## Where the reader is -/

namespace Progress

variable {p : Progress} {header : Header} {found : List Float} {tokens : List Token} {t : Token} {e : PathError}

/-- What the tokens read so far say of the place that the reader is at. -/
def Stands (tokens : List Token) : Progress → Prop
  | start => tokens = []
  | complete header => ∃ texts, EndsWith tokens header texts ∧ texts.length % header.kind.arity = 0 ∧
      (texts = [] → header.kind.arity = 0)
  | partway header found => ∃ texts, EndsWith tokens header texts ∧ texts.length % header.kind.arity = found.length ∧
      found.length < header.kind.arity ∧ (texts = [] ∨ found.length ≠ 0)

/-- Filling up the last command, of which the tokens have `found` since it was last complete. -/
theorem stands_filled {texts : List String} (hends : EndsWith tokens header texts)
    (hle : found.length ≤ header.kind.arity)
    (hmod : texts.length % header.kind.arity = found.length % header.kind.arity) (hnil : found = [] ↔ texts = []) :
    (filled header found).1.Stands tokens := by
  unfold filled
  by_cases hlt : found.length < header.kind.arity
  · rw [if_pos hlt]
    refine ⟨texts, hends, by rw [hmod, Nat.mod_eq_of_lt hlt], hlt, ?_⟩
    by_cases htexts : texts = []
    · exact .inl htexts
    · exact .inr fun h => htexts (hnil.mp (List.eq_nil_of_length_eq_zero h))
  · rw [if_neg hlt]
    have heq : found.length = header.kind.arity := by omega
    refine ⟨texts, hends, by rw [hmod, heq, Nat.mod_self], fun htexts => ?_⟩
    rw [← heq, hnil.mpr htexts, List.length_nil]

/-- A letter that can be taken is that of the command that begins with it. -/
theorem stands_of_begin {first : Bool} {letter : Char} {out : Progress × Option Command}
    (h : begin first letter = .ok out) (before : List Token) : out.1.Stands (before ++ [.command letter]) := by
  obtain ⟨header, hletter, -, rfl⟩ := begin_eq_ok_iff.mp h
  have hends : EndsWith (before ++ [.command letter]) header [] := by
    rw [Header.ofLetter?_eq_some_iff.mp hletter]
    exact ⟨before, rfl⟩
  exact stands_filled hends (Nat.zero_le _) rfl (by simp)

theorem EndsWith.concat {texts : List String} (h : EndsWith tokens header texts) (text : String) :
    EndsWith (tokens ++ [.number text]) header (texts ++ [text]) := by
  obtain ⟨before, rfl⟩ := h
  exact ⟨before, by simp⟩

/-- A number that can be taken is one more of the last command. -/
theorem stands_of_number {texts : List String} {text : String} {out : Progress × Option Command}
    (h : (do return filled header (found ++ [← number text])) = Except.ok out) (hends : EndsWith tokens header texts)
    (hlt : found.length < header.kind.arity) (hmod : texts.length % header.kind.arity = found.length) :
    out.1.Stands (tokens ++ [.number text]) := by
  obtain ⟨x, -, rfl⟩ := number_bind_eq_ok_iff.mp h
  refine stands_filled (EndsWith.concat hends text) ?_ ?_ (by simp)
  · rw [List.length_append, List.length_singleton]
    exact hlt
  · rw [List.length_append, List.length_append, List.length_singleton, List.length_singleton, ← Nat.mod_add_mod, hmod]

theorem stands_of_read {out : Progress × Option Command} (hp : p.Stands tokens) (h : p.read t = .ok out) :
    out.1.Stands (tokens ++ [t]) := by
  cases t with
  | command letter =>
    cases p with
    | start => exact stands_of_begin h tokens
    | complete header => exact stands_of_begin h tokens
    | partway header found => cases h
  | number text =>
    cases p with
    | start => cases h
    | complete header =>
      obtain ⟨texts, hends, hmod, -⟩ := hp
      simp only [read] at h
      split at h
      · cases h
      · rename_i hpos
        have h : (do return filled header ([] ++ [← number text])) = Except.ok out := h
        exact stands_of_number h hends (Nat.pos_of_ne_zero hpos) hmod
    | partway header found =>
      obtain ⟨texts, hends, hmod, hlt, -⟩ := hp
      exact stands_of_number h hends hlt hmod

theorem stands_of_reads {before : List Token} {out : Progress × List Command} (hp : p.Stands before)
    (h : p.reads tokens = .ok out) : out.1.Stands (before ++ tokens) := by
  induction tokens generalizing p before out with
  | nil =>
    cases h
    rw [List.append_nil]
    exact hp
  | cons t ts ih =>
    obtain ⟨next, rest, hread, hrest, rfl⟩ := reads_cons_eq_ok h
    have h := ih (stands_of_read hp hread) hrest
    rw [List.append_assoc] at h
    exact h

/-! ## The token that decides -/

theorem cutShort_of_partway (h : (partway header found).Stands tokens) : CutShort tokens (cutShort header found) := by
  obtain ⟨texts, hends, hmod, hlt, hor⟩ := h
  rw [cutShort, ← hmod]
  rw [← hmod] at hlt hor
  exact ⟨header, texts, hends, hlt, hor, rfl⟩

theorem number_eq_error {text : String} (h : number text = .error e) :
    finiteFloat? text.toList = none ∧ e = .badNumber text := by
  unfold number at h
  split at h
  · cases h
  · rename_i hnone
    cases h
    exact ⟨hnone, rfl⟩

theorem rejected_of_number {texts : List String} {text : String} (hends : EndsWith tokens header texts)
    (hpos : header.kind.arity ≠ 0) (h : (do return filled header (found ++ [← number text])) = Except.error e) :
    Rejected tokens (.number text) e := by
  cases hnumber : number text with
  | ok x => simp [hnumber, bind, Except.bind, pure, Except.pure] at h
  | error e' =>
    simp only [hnumber, bind, Except.bind, Except.error.injEq] at h
    obtain ⟨hnone, rfl⟩ := number_eq_error (hnumber.trans (congrArg _ h))
    exact .badNumber hends hpos hnone

theorem begin_eq_error {first : Bool} {letter : Char} (h : begin first letter = .error e) :
    Header.ofLetter? letter = none ∧ e = .unknownCommand letter ∨
      first = true ∧ ∃ header, Header.ofLetter? letter = some header ∧ header.kind ≠ .moveTo ∧
        e = .missingMoveTo letter := by
  unfold begin at h
  split at h
  · rename_i hnone
    cases h
    exact .inl ⟨hnone, rfl⟩
  · rename_i header hsome
    split at h
    · rename_i hfirst
      rw [Bool.and_eq_true, decide_eq_true_iff] at hfirst
      cases h
      exact .inr ⟨hfirst.1, header, hsome, hfirst.2, rfl⟩
    · cases h

/-- The error says what is wrong with the token that the reader cannot take. -/
theorem rejected_of_read_error {commands : List Command} (hreads : start.reads tokens = .ok (p, commands))
    (h : p.read t = .error e) : Rejected tokens t e := by
  have hstands : p.Stands tokens := stands_of_reads (p := start) rfl hreads
  have hwhole : p.finish = .ok () → ofTokens tokens = .ok commands := by
    intro hfinish
    rw [ofTokens, commands_eq_reads, hreads]
    simp only [Except.bind, hfinish, Except.map]
  cases p with
  | start =>
    obtain rfl : tokens = [] := hstands
    cases t with
    | command letter =>
      rcases begin_eq_error h with ⟨hnone, rfl⟩ | ⟨-, header, hsome, hkind, rfl⟩
      · exact .unknownCommand (hwhole rfl) hnone
      · exact .missingMoveTo hsome hkind
    | number text =>
      cases h
      exact .numberFirst text
  | complete header =>
    obtain ⟨texts, hends, hmod, -⟩ := hstands
    cases t with
    | command letter =>
      rcases begin_eq_error h with ⟨hnone, rfl⟩ | ⟨hfirst, -⟩
      · exact .unknownCommand (hwhole rfl) hnone
      · cases hfirst
    | number text =>
      simp only [read] at h
      split at h
      · rename_i hzero
        cases h
        rw [hzero, Nat.mod_zero] at hmod
        obtain rfl := List.eq_nil_of_length_eq_zero hmod
        exact .numberAfter text hends hzero
      · rename_i hpos
        have h : (do return filled header ([] ++ [← number text])) = Except.error e := h
        exact rejected_of_number hends hpos h
  | partway header found =>
    cases t with
    | command letter =>
      cases h
      exact .cutShort letter (cutShort_of_partway hstands)
    | number text =>
      obtain ⟨texts, hends, -, hlt, -⟩ := hstands
      exact rejected_of_number hends (Nat.ne_zero_of_lt hlt) h

end Progress

/-! ## The whole data -/

/-- Data that can be gone on with, and cannot be read as it is, is cut short. -/
theorem cutShort_of_viable {tokens : List Token} {e : PathError} (hviable : Viable tokens)
    (h : ofTokens tokens = .error e) : CutShort tokens e := by
  obtain ⟨out, hreads⟩ := viable_iff_reads.mp hviable
  have hstands : out.1.Stands tokens := Progress.stands_of_reads (p := .start) rfl hreads
  rw [ofTokens, Progress.commands_eq_reads, hreads] at h
  cases hlast : out.1 with
  | start => simp [hlast, Except.bind, Progress.finish, Except.map] at h
  | complete header => simp [hlast, Except.bind, Progress.finish, Except.map] at h
  | partway header found =>
    simp only [hlast, Except.bind, Progress.finish, Except.map, Except.error.injEq] at h
    rw [hlast] at hstands
    rw [← h]
    exact Progress.cutShort_of_partway hstands

/-- Other data has a first token that it cannot be gone on after. -/
theorem exists_rejected {tokens : List Token} (h : ¬Viable tokens) : ∃ before t later e,
    tokens = before ++ t :: later ∧ Viable before ∧ Rejected before t e ∧
      ∀ more, ofTokens (before ++ t :: more) = .error e := by
  cases hreads : Progress.start.reads tokens with
  | ok out => exact absurd (viable_iff_reads.mpr ⟨out, hreads⟩) h
  | error e =>
    obtain ⟨before, t, later, out, hsplit, hbefore, herror⟩ := Progress.exists_read_error hreads
    exact ⟨before, t, later, e, hsplit, viable_iff_reads.mpr ⟨out, hbefore⟩,
      Progress.rejected_of_read_error hbefore herror, Progress.commands_of_read_error hbefore herror⟩

/-- What has been read is not taken back when the data goes on. -/
theorem ofTokens_append {tokens : List Token} {commands : List Command} (h : ofTokens tokens = .ok commands)
    (more : List Token) :
    (∃ e, ofTokens (tokens ++ more) = .error e) ∨ ∃ further, ofTokens (tokens ++ more) = .ok (commands ++ further) := by
  rw [ofTokens, Progress.commands_eq_reads] at h
  rw [ofTokens, Progress.commands_append]
  cases hreads : Progress.start.reads tokens with
  | error e => simp [hreads, Except.bind] at h
  | ok out =>
    simp only [hreads, Except.bind] at h ⊢
    cases hfinish : out.1.finish with
    | error e => simp [hfinish, Except.map] at h
    | ok _ =>
      simp only [hfinish, Except.map, Except.ok.injEq] at h
      cases out.1.commands more with
      | error e => exact .inl ⟨e, rfl⟩
      | ok further => exact .inr ⟨further, by rw [h]; rfl⟩

/-- Whether path data can be read is decided at the earliest token. Data that fails although it can be gone
on with is cut short in its last command. Other data that fails has a shortest part at its beginning that
cannot be gone on with; the error says what is wrong with the last token of that part, and is the same
for all data that begins so. And data that can be read keeps its commands when it goes on, unless the
whole fails. -/
theorem ofTokens_decided (tokens : List Token) :
    (∀ e, ofTokens tokens = .error e →
      (Viable tokens → CutShort tokens e) ∧
      (¬Viable tokens → ∃ before t later, tokens = before ++ t :: later ∧
        (∀ shorter, shorter <+: before → Viable shorter) ∧ ¬Viable (before ++ [t]) ∧ Rejected before t e ∧
        ∀ more, ofTokens (before ++ t :: more) = .error e)) ∧
    ∀ commands, ofTokens tokens = .ok commands → ∀ more,
      (∃ e, ofTokens (tokens ++ more) = .error e) ∨
        ∃ further, ofTokens (tokens ++ more) = .ok (commands ++ further) := by
  refine ⟨fun e h => ⟨fun hviable => cutShort_of_viable hviable h, fun hdead => ?_⟩, fun commands h => ofTokens_append h⟩
  obtain ⟨before, t, later, e', hsplit, hviable, hrejected, herror⟩ := exists_rejected hdead
  obtain rfl : e' = e := by
    rw [hsplit, herror later] at h
    exact Except.error.inj h
  refine ⟨before, t, later, hsplit, fun shorter hprefix => ?_, fun hmore => ?_, hrejected, herror⟩
  · obtain ⟨rest, rfl⟩ := hprefix
    exact hviable.of_append
  · obtain ⟨more, commands, hok⟩ := hmore
    rw [List.append_assoc] at hok
    cases (herror more).symm.trans hok

/-- A letter that is no command, in the place of a parameter: the command before it is what is reported. -/
example : ofTokens [.command 'm', .number "1", .command 'x', .number "?"] = .error (.missingParameters 'm' 2 1) := by
  rfl

end VectorRaster.Path
