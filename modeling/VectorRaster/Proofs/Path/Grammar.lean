/-
  VectorRaster.Proofs.Path.Grammar — the path data that can be read, and what it says.

  Path data is a list of groups. A group is a command letter, the parameters of its command,
  and further blocks of parameters, each of which repeats the command. A command without
  parameters is not repeated. The first group is a move.

  The reader goes through the tokens once. `Progress.Rest p` says, in terms of groups, what
  may follow where the reader is and which commands that adds. It meets the same equations as
  the reader, at the end of the data (`rest_nil`) and at a further token (`rest_cons`); so the
  two agree, by one induction (`commands_eq_ok_iff`). `ofTokens_eq_ok_iff_groups` is the case of a reader
  that has read nothing.
-/

import VectorRaster.Path.Parse

namespace VectorRaster.Path

open Numeric

/-! ## Letters -/

theorem isLower_iff {c : Char} : c.isLower = true ↔ 'a'.val ≤ c.val ∧ c.val ≤ 'z'.val := by
  have hdecide : c.isLower = (decide ('a'.val ≤ c.val) && decide (c.val ≤ 'z'.val)) := rfl
  rw [hdecide, Bool.and_eq_true, decide_eq_true_eq, decide_eq_true_eq]

theorem toNat_toUpper {c : Char} (h : c.isLower = true) : c.toUpper.toNat + 32 = c.toNat := by
  have hsmall : 'a'.val ≤ c.val ∧ c.val ≤ 'z'.val := isLower_iff.mp h
  have hcode : 97 ≤ c.toNat ∧ c.toNat ≤ 122 := hsmall
  -- the difference of the two alphabets wraps
  have hsum : (c.val + ('A'.val - 'a'.val)).toNat = (c.toNat + 4294967264) % 4294967296 := UInt32.toNat_add _ _
  have hupper : c.toUpper.toNat = (c.val + ('A'.val - 'a'.val)).toNat := by
    unfold Char.toUpper
    rw [dif_pos hsmall]
    rfl
  omega

theorem toUpper_of_not_isLower {c : Char} (h : ¬ c.isLower = true) : c.toUpper = c := by
  unfold Char.toUpper
  rw [dif_neg (mt isLower_iff.mpr h)]

theorem Kind.eq_letter_of_ofUpper? {u : Char} {kind : Kind} (h : ofUpper? u = some kind) : u = kind.letter := by
  unfold ofUpper? at h
  split at h <;> cases h <;> rfl

/-- The letters that say something are those of the headers, and each says its own. -/
theorem Header.ofLetter?_eq_some_iff {c : Char} {header : Header} :
    ofLetter? c = some header ↔ c = header.letter := by
  constructor
  · intro h
    obtain ⟨kind, hk, rfl⟩ := Option.map_eq_some_iff.mp h
    have hu := Kind.eq_letter_of_ofUpper? hk
    by_cases hl : c.isLower = true
    · have hn := toNat_toUpper hl
      rw [hu] at hn
      rw [if_pos hl]
      apply Char.toNat_inj.mp
      rw [← hn]
      cases kind <;> rfl
    · rw [if_neg hl, Header.letter, ← hu, toUpper_of_not_isLower hl]
  · rintro rfl
    exact ofLetter?_letter header

/-! ## Groups -/

/-- A number as it is written, and its value. -/
structure Parameter where
  text : String
  value : Float
  value_eq : finiteFloat? text.toList = some value

/-- The parameters of one command. -/
structure Block (header : Header) where
  parameters : List Parameter
  length_eq : parameters.length = header.kind.arity

/-- A letter with the parameters of its command, and what repeats the command. -/
structure Group where
  header : Header
  first : Block header
  more : List (Block header)
  more_eq_nil : header.kind.arity = 0 → more = []

def Parameter.token (p : Parameter) : Token := .number p.text

namespace Block

variable {header : Header}

def tokens (b : Block header) : List Token := b.parameters.map Parameter.token

def command (b : Block header) : Command := ⟨header, b.parameters.map Parameter.value⟩

end Block

namespace Group

def tokens (g : Group) : List Token := .command g.header.letter :: (g.first :: g.more).flatMap Block.tokens

def commands (g : Group) : List Command := (g.first :: g.more).map Block.command

end Group

theorem Parameter.isFinite (p : Parameter) : p.value.isFinite = true :=
  (Option.filter_eq_some_iff.mp p.value_eq).2

/-- The command of a block can be run, and its parameters are finite. -/
theorem Block.command_ok {header : Header} (b : Block header) :
    b.command.check = .ok () ∧ ∀ x ∈ b.command.parameters, x.isFinite = true := by
  constructor
  · simp [Command.check, command, b.length_eq]
  · intro x hx
    obtain ⟨p, -, rfl⟩ := List.mem_map.mp hx
    exact p.isFinite

theorem Group.commands_ok {g : Group} {c : Command} (h : c ∈ g.commands) :
    c.check = .ok () ∧ ∀ x ∈ c.parameters, x.isFinite = true := by
  obtain ⟨b, -, rfl⟩ := List.mem_map.mp h
  exact b.command_ok

/-! ## What may follow -/

namespace Progress

variable {header : Header} {found : List Float} {ts : List Token} {cs : List Command}

/-- More blocks of a command, and then groups. -/
def RestAfter (header : Header) (ts : List Token) (cs : List Command) : Prop :=
  ∃ (more : List (Block header)) (groups : List Group), (header.kind.arity = 0 → more = []) ∧
    ts = more.flatMap Block.tokens ++ groups.flatMap Group.tokens ∧
    cs = more.map Block.command ++ groups.flatMap Group.commands

/-- The parameters that a command still lacks, and then what may follow it. -/
def RestWithin (header : Header) (found : List Float) (ts : List Token) (cs : List Command) : Prop :=
  ∃ (lacking : List Parameter) (ts' : List Token) (cs' : List Command),
    found.length + lacking.length = header.kind.arity ∧ RestAfter header ts' cs' ∧
    ts = lacking.map Parameter.token ++ ts' ∧ cs = ⟨header, found ++ lacking.map Parameter.value⟩ :: cs'

def Rest : Progress → List Token → List Command → Prop
  | start, ts, cs =>
    ∃ groups : List Group, (∀ g ∈ groups.head?, g.header.kind = .moveTo) ∧
      ts = groups.flatMap Group.tokens ∧ cs = groups.flatMap Group.commands
  | complete header, ts, cs => RestAfter header ts cs
  | partway header found, ts, cs => RestWithin header found ts cs

/-- The reader stops inside a command only while that lacks parameters. -/
def Lacking : Progress → Prop
  | start => True
  | complete _ => True
  | partway header found => found.length < header.kind.arity

/-! ### Numbers -/

theorem number_eq_ok_iff {text : String} {x : Float} : number text = .ok x ↔ finiteFloat? text.toList = some x := by
  unfold number
  split
  · rename_i h
    simp [h]
  · rename_i h
    simp [h]

/-- A number is the next parameter of a command that lacks one. -/
theorem restWithin_number {text : String} (h : found.length < header.kind.arity) :
    RestWithin header found (.number text :: ts) cs ↔
      ∃ x, number text = .ok x ∧ RestWithin header (found ++ [x]) ts cs := by
  constructor
  · rintro ⟨lacking, ts', cs', hlen, hrest, hts, hcs⟩
    cases lacking with
    | nil => simp at hlen; omega
    | cons p lacking =>
      simp only [List.map_cons, List.cons_append, List.cons.injEq, Parameter.token, Token.number.injEq] at hts
      obtain ⟨rfl, rfl⟩ := hts
      refine ⟨p.value, number_eq_ok_iff.mpr p.value_eq, lacking, ts', cs', ?_, hrest, rfl, ?_⟩
      · simp at hlen ⊢; omega
      · simpa using hcs
  · rintro ⟨x, hx, lacking, ts', cs', hlen, hrest, rfl, rfl⟩
    refine ⟨⟨text, x, number_eq_ok_iff.mp hx⟩ :: lacking, ts', cs', ?_, hrest, rfl, by simp⟩
    simp at hlen ⊢; omega

theorem not_restWithin_command {letter : Char} (h : found.length < header.kind.arity) :
    ¬RestWithin header found (.command letter :: ts) cs := by
  rintro ⟨lacking, ts', cs', hlen, -, hts, -⟩
  cases lacking with
  | nil => simp at hlen; omega
  | cons p lacking => simp [Parameter.token] at hts

theorem not_restWithin_nil (h : found.length < header.kind.arity) : ¬RestWithin header found [] cs := by
  rintro ⟨lacking, ts', cs', hlen, -, hts, -⟩
  have : lacking = [] := by simpa using (List.append_eq_nil_iff.mp hts.symm).1
  subst this
  simp at hlen; omega

/-- Once nothing is lacking, the command is handed over. -/
theorem restWithin_iff_filled (h : found.length ≤ header.kind.arity) :
    RestWithin header found ts cs ↔
      ∃ cs', cs = (filled header found).2.toList ++ cs' ∧ (filled header found).1.Rest ts cs' := by
  unfold filled
  split
  · simp [Rest]
  · rename_i hge
    simp only [Option.toList_some, List.singleton_append, Rest]
    constructor
    · rintro ⟨lacking, ts', cs', hlen, hrest, rfl, rfl⟩
      have : lacking = [] := List.eq_nil_of_length_eq_zero (by omega)
      subst this
      exact ⟨cs', by simp, hrest⟩
    · rintro ⟨cs', rfl, hrest⟩
      exact ⟨[], ts, cs', by simp; omega, hrest, by simp, by simp⟩

theorem lacking_filled (header : Header) (found : List Float) : (filled header found).1.Lacking := by
  unfold filled
  split
  · assumption
  · trivial

/-! ### Letters -/

/-- A group begins with a letter, and goes on as a command that has found nothing yet. -/
theorem command_eq_groups_iff {letter : Char} {P : Header → Prop} :
    (∃ (g : Group) (groups : List Group), P g.header ∧ .command letter :: ts = (g :: groups).flatMap Group.tokens ∧
        cs = (g :: groups).flatMap Group.commands) ↔
      ∃ header, Header.ofLetter? letter = some header ∧ P header ∧ RestWithin header [] ts cs := by
  constructor
  · rintro ⟨⟨header, first, more, hmore⟩, groups, hP, hts, rfl⟩
    simp only [List.flatMap_cons, Group.tokens, List.cons_append, List.cons.injEq, Token.command.injEq] at hts
    obtain ⟨rfl, rfl⟩ := hts
    refine ⟨header, Header.ofLetter?_letter header, hP, first.parameters, _, _, ?_, ⟨more, groups, hmore, rfl, rfl⟩, ?_, ?_⟩
    · simpa using first.length_eq
    · simp [Block.tokens]
    · simp [Group.commands, Block.command]
  · rintro ⟨header, hl, hP, lacking, _, _, hlen, ⟨more, groups, hmore, rfl, rfl⟩, rfl, rfl⟩
    refine ⟨⟨header, ⟨lacking, by simpa using hlen⟩, more, hmore⟩, groups, hP, ?_, ?_⟩
    · rw [Header.ofLetter?_eq_some_iff.mp hl]
      simp [Group.tokens, Block.tokens]
    · simp [Group.commands, Block.command]

theorem restAfter_command {letter : Char} :
    RestAfter header (.command letter :: ts) cs ↔
      ∃ next, Header.ofLetter? letter = some next ∧ RestWithin next [] ts cs := by
  have h := @command_eq_groups_iff ts cs letter fun _ => True
  simp only [true_and] at h
  rw [← h]
  constructor
  · rintro ⟨more, groups, hmore, hts, hcs⟩
    cases more with
    | cons b more =>
      -- a block that repeats the command begins with a number
      obtain ⟨parameters, hlen⟩ := b
      cases parameters with
      | nil => exact absurd (hmore hlen.symm) (by simp)
      | cons p parameters => simp [Block.tokens, Parameter.token] at hts
    | nil =>
      cases groups with
      | nil => simp at hts
      | cons g groups => exact ⟨g, groups, by simpa using hts, by simpa using hcs⟩
  · rintro ⟨g, groups, hts, hcs⟩
    exact ⟨[], g :: groups, fun _ => rfl, by simpa using hts, by simpa using hcs⟩

/-- A command that takes parameters can be followed by those of its repetition. -/
theorem restAfter_of_restWithin (hpos : header.kind.arity ≠ 0) (h : RestWithin header [] ts cs) :
    RestAfter header ts cs := by
  obtain ⟨lacking, ts', cs', hlen, ⟨more, groups, -, rfl, rfl⟩, rfl, rfl⟩ := h
  refine ⟨⟨lacking, by simpa using hlen⟩ :: more, groups, fun h => absurd h hpos, ?_, ?_⟩
  · simp [Block.tokens]
  · simp [Block.command]

theorem restAfter_number {text : String} :
    RestAfter header (.number text :: ts) cs ↔
      header.kind.arity ≠ 0 ∧ RestWithin header [] (.number text :: ts) cs := by
  constructor
  · rintro ⟨more, groups, hmore, hts, rfl⟩
    cases more with
    | nil =>
      cases groups with
      | nil => simp at hts
      | cons g groups => simp [Group.tokens] at hts
    | cons b more =>
      have hpos : header.kind.arity ≠ 0 := fun h => absurd (hmore h) (by simp)
      refine ⟨hpos, b.parameters, _, _, by simpa using b.length_eq, ⟨more, groups, fun h => absurd h hpos, rfl, rfl⟩, ?_, ?_⟩
      · simpa [Block.tokens] using hts
      · simp [Block.command]
  · intro h
    exact restAfter_of_restWithin h.1 h.2

theorem rest_start_command {letter : Char} :
    start.Rest (.command letter :: ts) cs ↔
      ∃ next, Header.ofLetter? letter = some next ∧ next.kind = .moveTo ∧ RestWithin next [] ts cs := by
  rw [← command_eq_groups_iff (P := fun header => header.kind = .moveTo)]
  constructor
  · rintro ⟨groups, hmove, hts, hcs⟩
    cases groups with
    | nil => simp at hts
    | cons g groups => exact ⟨g, groups, hmove g rfl, hts, hcs⟩
  · rintro ⟨g, groups, hmove, hts, hcs⟩
    exact ⟨g :: groups, fun g' hg' => by cases hg'; exact hmove, hts, hcs⟩

theorem not_rest_start_number {text : String} : ¬start.Rest (.number text :: ts) cs := by
  rintro ⟨groups, -, hts, -⟩
  cases groups with
  | nil => simp at hts
  | cons g groups => simp [Group.tokens] at hts

/-! ### The reader -/

theorem begin_eq_ok_iff {first : Bool} {letter : Char} {out : Progress × Option Command} :
    begin first letter = .ok out ↔
      ∃ header, Header.ofLetter? letter = some header ∧ (first = true → header.kind = .moveTo) ∧
        out = filled header [] := by
  unfold begin
  cases Header.ofLetter? letter with
  | none => simp
  | some header =>
    simp only [Option.some.injEq, exists_eq_left']
    split
    · rename_i h
      simp_all
    · rename_i h
      simp only [Except.ok.injEq, eq_comm (a := out)]
      simp_all

theorem number_bind_eq_ok_iff {text : String} {out : Progress × Option Command} :
    (do return filled header (found ++ [← number text])) = Except.ok out ↔
      ∃ x, number text = .ok x ∧ out = filled header (found ++ [x]) := by
  cases number text with
  | error e => simp [bind, Except.bind]
  | ok x => simp [bind, Except.bind, pure, Except.pure, eq_comm]

/-- What the reader goes on with is a command with some of its parameters, handed over if complete. -/
theorem read_eq_filled {p : Progress} {t : Token} {out : Progress × Option Command} (h : p.read t = .ok out) :
    ∃ header found, out = filled header found := by
  have hbegin : ∀ {first letter}, begin first letter = .ok out → ∃ header found, out = filled header found := by
    intro first letter h
    obtain ⟨header, -, -, rfl⟩ := begin_eq_ok_iff.mp h
    exact ⟨header, [], rfl⟩
  cases p with
  | start =>
    cases t with
    | command letter => exact hbegin h
    | number text => cases h
  | complete header =>
    cases t with
    | command letter => exact hbegin h
    | number text =>
      simp only [read] at h
      split at h
      · cases h
      · replace h : (do return filled header ([] ++ [← number text])) = Except.ok out := h
        obtain ⟨x, -, rfl⟩ := number_bind_eq_ok_iff.mp h
        exact ⟨header, [x], rfl⟩
  | partway header found =>
    cases t with
    | command letter => cases h
    | number text =>
      obtain ⟨x, -, rfl⟩ := number_bind_eq_ok_iff.mp h
      exact ⟨header, found ++ [x], rfl⟩

theorem lacking_of_read {p : Progress} {t : Token} {out : Progress × Option Command} (h : p.read t = .ok out) :
    out.1.Lacking := by
  obtain ⟨header, found, rfl⟩ := read_eq_filled h
  exact lacking_filled header found

theorem rest_nil {p : Progress} (hp : p.Lacking) : p.Rest [] cs ↔ p.finish = .ok () ∧ cs = [] := by
  cases p with
  | start =>
    simp only [Rest, finish, true_and]
    constructor
    · rintro ⟨groups, -, hts, rfl⟩
      cases groups with
      | nil => rfl
      | cons g groups => simp [Group.tokens] at hts
    · rintro rfl
      exact ⟨[], by simp, rfl, rfl⟩
  | complete header =>
    simp only [Rest, finish, true_and]
    constructor
    · rintro ⟨more, groups, hmore, hts, rfl⟩
      obtain ⟨hm, hg⟩ := List.append_eq_nil_iff.mp hts.symm
      cases groups with
      | cons g groups => simp [Group.tokens] at hg
      | nil =>
        cases more with
        | nil => rfl
        | cons b more =>
          have : b.parameters = [] := by simpa [Block.tokens] using (List.append_eq_nil_iff.mp hm).1
          exact absurd (hmore (by rw [← b.length_eq, this, List.length_nil])) (by simp)
    · rintro rfl
      exact ⟨[], [], fun _ => rfl, rfl, rfl⟩
  | partway header found => simp [Rest, finish, not_restWithin_nil hp]

/-- What may follow begins with a token that the reader can take, and goes on from there. -/
theorem rest_cons {p : Progress} {t : Token} (hp : p.Lacking) :
    p.Rest (t :: ts) cs ↔
      ∃ out, p.read t = .ok out ∧ ∃ cs', cs = out.2.toList ++ cs' ∧ out.1.Rest ts cs' := by
  -- a letter that can be taken here: it begins a command that has found nothing yet
  have hbegin : ∀ first letter, (∃ header, Header.ofLetter? letter = some header ∧
        (first = true → header.kind = .moveTo) ∧ RestWithin header [] ts cs) ↔
      ∃ out, begin first letter = .ok out ∧ ∃ cs', cs = out.2.toList ++ cs' ∧ out.1.Rest ts cs' := by
    intro first letter
    constructor
    · rintro ⟨header, hl, hm, hr⟩
      exact ⟨_, begin_eq_ok_iff.mpr ⟨header, hl, hm, rfl⟩, (restWithin_iff_filled (Nat.zero_le _)).mp hr⟩
    · rintro ⟨out, ho, hr⟩
      obtain ⟨header, hl, hm, rfl⟩ := begin_eq_ok_iff.mp ho
      exact ⟨header, hl, hm, (restWithin_iff_filled (Nat.zero_le _)).mpr hr⟩
  -- a number that can be taken here: it is the next parameter
  have hnumber : ∀ header found text, found.length < header.kind.arity →
      (RestWithin header found (.number text :: ts) cs ↔
        ∃ out, (do return filled header (found ++ [← number text])) = Except.ok out ∧
          ∃ cs', cs = out.2.toList ++ cs' ∧ out.1.Rest ts cs') := by
    intro header found text hlt
    have hle : ∀ x : Float, (found ++ [x]).length ≤ header.kind.arity := fun x => by
      simpa using Nat.succ_le_of_lt hlt
    rw [restWithin_number hlt]
    constructor
    · rintro ⟨x, hx, hr⟩
      exact ⟨_, number_bind_eq_ok_iff.mpr ⟨x, hx, rfl⟩, (restWithin_iff_filled (hle x)).mp hr⟩
    · rintro ⟨out, ho, hr⟩
      obtain ⟨x, hx, rfl⟩ := number_bind_eq_ok_iff.mp ho
      exact ⟨x, hx, (restWithin_iff_filled (hle x)).mpr hr⟩
  cases p with
  | start =>
    cases t with
    | command letter => exact Iff.trans (by simp [rest_start_command]) (hbegin true letter)
    | number text => simp [not_rest_start_number, read]
  | complete header =>
    cases t with
    | command letter => exact Iff.trans (by simp [Rest, restAfter_command]) (hbegin false letter)
    | number text =>
      by_cases h0 : header.kind.arity = 0
      · simp [Rest, restAfter_number, read, h0]
      · have hr : (complete header).Rest (.number text :: ts) cs ↔ RestWithin header [] (.number text :: ts) cs := by
          simp [Rest, restAfter_number, h0]
        rw [hr, hnumber header [] text (Nat.pos_of_ne_zero h0)]
        simp only [read, h0, if_false, List.nil_append]
  | partway header found =>
    cases t with
    | command letter => simp [Rest, read, not_restWithin_command hp]
    | number text => exact hnumber header found text hp

theorem commands_cons (p : Progress) (t : Token) (ts : List Token) :
    p.commands (t :: ts) = (p.read t).bind fun out => (out.1.commands ts).map (out.2.toList ++ ·) := by
  simp only [commands]
  cases p.read t with
  | error e => rfl
  | ok out =>
    cases h : out.1.commands ts with
    | error e => simp [bind, Except.bind, Except.map, h]
    | ok cs => simp [bind, Except.bind, Except.map, h, pure, Except.pure]

/-- The reader returns commands exactly on what may follow, and returns what that says. -/
theorem commands_eq_ok_iff {p : Progress} (hp : p.Lacking) : p.commands ts = .ok cs ↔ p.Rest ts cs := by
  induction ts generalizing p cs with
  | nil =>
    rw [rest_nil hp]
    simp only [commands]
    cases p.finish with
    | error e => simp [bind, Except.bind]
    | ok _ => simp [bind, Except.bind, pure, Except.pure, eq_comm]
  | cons t ts ih =>
    rw [rest_cons hp, commands_cons]
    cases h : p.read t with
    | error e => simp [Except.bind]
    | ok out =>
      simp only [Except.bind, Except.ok.injEq, exists_eq_left']
      have ih := fun cs => @ih cs out.1 (lacking_of_read h)
      cases hc : out.1.commands ts with
      | error e => simp [Except.map, ← ih, hc]
      | ok cs' => simp [Except.map, ← ih, hc, eq_comm]

/-- All commands that are read can be run, with finite parameters. -/
theorem Rest.commands_ok (h : start.Rest ts cs) {c : Command} (hc : c ∈ cs) :
    c.check = .ok () ∧ ∀ x ∈ c.parameters, x.isFinite = true := by
  obtain ⟨groups, -, -, rfl⟩ := h
  obtain ⟨g, -, hg⟩ := List.mem_flatMap.mp hc
  exact Group.commands_ok hg

/-- The reader never finds too many parameters. -/
theorem read_ne_tooManyParameters (p : Progress) (t : Token) (letter : Char) (expected n : Nat) :
    p.read t ≠ .error (.tooManyParameters letter expected n) := by
  have hnumber : ∀ text, number text ≠ .error (.tooManyParameters letter expected n) := by
    intro text
    unfold number
    split <;> simp
  have hbegin : ∀ first c, begin first c ≠ .error (.tooManyParameters letter expected n) := by
    intro first c
    unfold begin
    split
    · simp
    · split <;> simp
  have hfilled : ∀ header found text, (do return filled header (found ++ [← number text]))
      ≠ Except.error (.tooManyParameters letter expected n) := by
    intro header found text h
    cases hx : number text with
    | error e =>
      simp only [hx, bind, Except.bind] at h
      cases h
      exact hnumber text hx
    | ok x => simp [hx, bind, Except.bind, pure, Except.pure] at h
  cases p with
  | start =>
    cases t with
    | command c => exact hbegin true c
    | number text => simp [read]
  | complete header =>
    cases t with
    | command c => exact hbegin false c
    | number text =>
      simp only [read]
      split
      · simp
      · exact hfilled header [] text
  | partway header found =>
    cases t with
    | command c => simp [read, cutShort]
    | number text => exact hfilled header found text

theorem commands_ne_tooManyParameters (p : Progress) (ts : List Token) (letter : Char) (expected n : Nat) :
    p.commands ts ≠ .error (.tooManyParameters letter expected n) := by
  induction ts generalizing p with
  | nil => cases p <;> simp [commands, finish, bind, Except.bind, pure, Except.pure, cutShort]
  | cons t ts ih =>
    rw [commands_cons]
    intro h
    cases hr : p.read t with
    | error e =>
      simp only [hr, Except.bind] at h
      cases h
      exact read_ne_tooManyParameters p t letter expected n hr
    | ok out =>
      rw [hr] at h
      cases hc : out.1.commands ts with
      | error e =>
        simp only [Except.bind, hc, Except.map] at h
        exact ih out.1 (hc.trans h)
      | ok cs => simp [Except.bind, hc, Except.map] at h

end Progress

/-! ## The whole data -/

/-- Path data can be read exactly if it is a list of groups of which the first is a move, and it
says their commands in order. So all commands that are read can be run, with finite parameters. -/
theorem ofTokens_eq_ok_iff_groups (tokens : List Token) :
    (∀ commands, ofTokens tokens = .ok commands ↔
      ∃ groups : List Group, (∀ g ∈ groups.head?, g.header.kind = .moveTo) ∧
        tokens = groups.flatMap Group.tokens ∧ commands = groups.flatMap Group.commands) ∧
    (∀ commands, ofTokens tokens = .ok commands →
      ∀ c ∈ commands, c.check = .ok () ∧ ∀ x ∈ c.parameters, x.isFinite = true) ∧
    ∀ letter expected found, ofTokens tokens ≠ .error (.tooManyParameters letter expected found) := by
  have hiff : ∀ commands, ofTokens tokens = .ok commands ↔ Progress.start.Rest tokens commands :=
    fun commands => Progress.commands_eq_ok_iff trivial
  refine ⟨hiff, fun commands h c hc => ?_, Progress.commands_ne_tooManyParameters .start tokens⟩
  exact Progress.Rest.commands_ok ((hiff commands).mp h) hc

end VectorRaster.Path
