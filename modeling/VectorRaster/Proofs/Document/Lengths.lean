/-
  VectorRaster.Proofs.Document.Lengths — how lengths are written.

  A length is read in two steps that each trim the text and take one suffix off: first a percent
  sign, then `px`. So the texts that are lengths are a finite number, with `px` or without it
  (`Reads`), and such a text with a percent sign behind it; blanks may stand before each suffix
  (`length_eq_ok_iff`). A length in pixels and in percent at once is among them.
-/

import Mathlib.Tactic.FinCases
import VectorRaster.Proofs.Numeric.Numerals
import VectorRaster.Proofs.Text.Trimming

namespace VectorRaster.Attribute

open Text Numeric

variable {cs front ending : List Char} {name value : String} {reference x y : Float}

/-! ## Suffixes -/

/-- Text that is `front` with `ending` behind it, and blanks between them or none. -/
def EndsIn (ending front cs : List Char) : Prop := ∃ gap, AllBlank gap ∧ cs = front ++ gap ++ ending

/-- A number with `px` behind it, or with nothing. -/
inductive Reads (x : Float) : List Char → Prop
  | plain {cs : List Char} : finiteFloat? cs = some x → Reads x cs
  | px {front cs : List Char} : finiteFloat? front = some x → EndsIn ['p', 'x'] front cs → Reads x cs

/-- A number and then a percent sign, with `px` between them or not. -/
def ReadsPercent (x : Float) (cs : List Char) : Prop := ∃ front, Reads x front ∧ EndsIn ['%'] front cs

theorem isBlank_of_isDecimalChar {c : Char} (h : IsDecimalChar c) : isBlank c = false := by
  rcases h with hdigit | hmark
  · have hn : 48 ≤ c.toNat ∧ c.toNat ≤ 57 := by
      simpa [Char.isDigit, UInt32.le_iff_toNat_le] using hdigit
    simp only [isBlank, Bool.or_eq_false_iff, Bool.and_eq_false_iff, beq_eq_false_iff_ne, decide_eq_false_iff_not]
    omega
  · fin_cases hmark <;> decide

theorem isTrimmed_of_finiteFloat? (h : finiteFloat? cs = some x) : IsTrimmed cs := by
  obtain ⟨-, hchars⟩ := isDecimalText_of_finiteFloat? h
  exact ⟨fun c hc => isBlank_of_isDecimalChar (hchars c (List.mem_of_mem_head? hc)),
    fun c hc => isBlank_of_isDecimalChar (hchars c (List.mem_of_mem_getLast? hc))⟩

/-- Between a number and its suffix there are only blanks. -/
theorem EndsIn.chars (h : EndsIn ending front cs) (hfront : finiteFloat? front = some x) :
    ∀ c ∈ cs, IsDecimalChar c ∨ isBlank c = true ∨ c ∈ ending := by
  obtain ⟨gap, hgap, rfl⟩ := h
  obtain ⟨-, hchars⟩ := isDecimalText_of_finiteFloat? hfront
  intro c hc
  rcases List.mem_append.mp hc with hc | hc
  · exact (List.mem_append.mp hc).imp (hchars c) fun hc => .inl (hgap c hc)
  · exact .inr (.inr hc)

theorem EndsIn.of_isTrimmed {p : List Char} (h : IsTrimmed (p ++ ending)) : EndsIn ending (trim p) (p ++ ending) := by
  obtain ⟨lead, trail, hlead, htrail, hp⟩ := exists_blanks_trim p
  have hnil : lead = [] := by
    cases lead with
    | nil => rfl
    | cons c lead =>
      have hfirst := h.first c (by rw [hp]; rfl)
      rw [hlead c List.mem_cons_self] at hfirst
      cases hfirst
  rw [hnil, List.nil_append] at hp
  exact ⟨trail, htrail, by rw [← hp]⟩

theorem EndsIn.before? (h : EndsIn ending front cs) (hfront : IsTrimmed front) :
    ∃ p, before? ending cs = some p ∧ trim p = front := by
  obtain ⟨gap, hgap, rfl⟩ := h
  refine ⟨front ++ gap, before?_eq_some_iff.mpr rfl, ?_⟩
  exact @trim_of_blanks front [] gap nofun hgap hfront

theorem Reads.isTrimmed (h : Reads x cs) : IsTrimmed cs := by
  cases h with
  | plain h => exact isTrimmed_of_finiteFloat? h
  | @px front cs hfront hends =>
    obtain ⟨gap, hgap, rfl⟩ := hends
    obtain ⟨hne, -⟩ := isDecimalText_of_finiteFloat? hfront
    have hends := isTrimmed_of_finiteFloat? hfront
    refine ⟨fun c hc => hends.first c ?_, fun c hc => ?_⟩
    · cases front with
      | nil => exact absurd rfl hne
      | cons d front => exact hc
    · obtain rfl : 'x' = c := by simpa using hc
      rfl

theorem Reads.not_mem_percent (h : Reads x cs) : '%' ∉ cs := by
  intro hc
  cases h with
  | plain h => exact absurd ((isDecimalText_of_finiteFloat? h).2 _ hc) (by decide)
  | px hfront hends => exact absurd (hends.chars hfront _ hc) (by decide)

/-! ## Reading -/

theorem number_eq_ok_iff : number name value = .ok x ↔ Reads x (trim value.toList) := by
  have hread : number name value = .ok x ↔
      finiteFloat? (trim ((before? ['p', 'x'] (trim value.toList)).getD (trim value.toList))) = some x := by
    unfold number
    dsimp only
    split
    · rename_i hx
      rw [hx, Option.some.injEq, Except.ok.injEq]
    · rename_i hx
      rw [hx]
      exact ⟨nofun, nofun⟩
  have htrimmed := isTrimmed_trim value.toList
  rw [hread]
  constructor
  · intro h
    cases hpx : before? ['p', 'x'] (trim value.toList) with
    | some p =>
      rw [hpx, Option.getD_some] at h
      rw [before?_eq_some_iff.mp hpx] at htrimmed ⊢
      exact .px h (.of_isTrimmed htrimmed)
    | none =>
      rw [hpx, Option.getD_none, htrimmed.trim_eq] at h
      exact .plain h
  · intro h
    generalize trim value.toList = t at h htrimmed
    cases h with
    | plain h =>
      have hpx : before? ['p', 'x'] t = none := by
        rw [Option.eq_none_iff_forall_ne_some]
        intro p hp
        rw [before?_eq_some_iff.mp hp] at h
        exact absurd ((isDecimalText_of_finiteFloat? h).2 'x' (by simp)) (by decide)
      rw [hpx, Option.getD_none, htrimmed.trim_eq, h]
    | px hfront hends =>
      obtain ⟨p, hp, htrim⟩ := hends.before? (isTrimmed_of_finiteFloat? hfront)
      rw [hp, Option.getD_some, htrim, hfront]

theorem number_eq_error {e : AttributeError} (h : number name value = .error e) : e = .badNumber name value := by
  unfold number at h
  dsimp only at h
  split at h
  · cases h
  · cases h
    rfl

theorem length_of_percent {p : List Char} (h : before? ['%'] (trim value.toList) = some p) :
    length name value reference = (number name (String.ofList p)).map fun x => x * reference / 100.0 := by
  rw [length, h]
  dsimp only
  cases number name (String.ofList p) <;> rfl

theorem length_of_no_percent (h : before? ['%'] (trim value.toList) = none) :
    length name value reference = number name (String.ofList (trim value.toList)) := by
  rw [length, h]

theorem map_eq_ok_iff {ε α β : Type} {r : Except ε α} {f : α → β} {b : β} :
    r.map f = .ok b ↔ ∃ a, r = .ok a ∧ f a = b := by
  cases r with
  | error e => exact ⟨nofun, nofun⟩
  | ok a =>
    show Except.ok (f a) = .ok b ↔ _
    simp

theorem length_eq_ok_iff : length name value reference = .ok y ↔
    Reads y (trim value.toList) ∨ ∃ x, ReadsPercent x (trim value.toList) ∧ y = x * reference / 100.0 := by
  have htrimmed := isTrimmed_trim value.toList
  cases hpercent : before? ['%'] (trim value.toList) with
  | some p =>
    have ht := before?_eq_some_iff.mp hpercent
    rw [length_of_percent hpercent, map_eq_ok_iff]
    simp only [number_eq_ok_iff, String.toList_ofList]
    constructor
    · rintro ⟨x, hx, rfl⟩
      refine .inr ⟨x, ⟨trim p, hx, ?_⟩, rfl⟩
      rw [ht] at htrimmed ⊢
      exact .of_isTrimmed htrimmed
    · rintro (hplain | ⟨x, ⟨front, hfront, hends⟩, rfl⟩)
      · exact absurd (by simp [ht]) hplain.not_mem_percent
      · obtain ⟨q, hq, htrim⟩ := hends.before? hfront.isTrimmed
        obtain rfl : p = q := Option.some.inj (hpercent.symm.trans hq)
        exact ⟨x, by rwa [htrim], rfl⟩
  | none =>
    rw [length_of_no_percent hpercent, number_eq_ok_iff, String.toList_ofList, htrimmed.trim_eq]
    refine ⟨.inl, fun h => h.resolve_right ?_⟩
    rintro ⟨x, ⟨front, hfront, hends⟩, -⟩
    obtain ⟨q, hq, -⟩ := hends.before? hfront.isTrimmed
    cases hpercent.symm.trans hq

theorem length_eq_error {e : AttributeError} (h : length name value reference = .error e) :
    e = .badNumber name (String.ofList ((before? ['%'] (trim value.toList)).getD (trim value.toList))) := by
  cases hpercent : before? ['%'] (trim value.toList) with
  | some p =>
    rw [length_of_percent hpercent] at h
    cases hnumber : number name (String.ofList p) with
    | ok x =>
      rw [hnumber] at h
      cases h
    | error e =>
      rw [hnumber] at h
      cases h
      exact number_eq_error hnumber
  | none =>
    rw [length_of_no_percent hpercent] at h
    exact number_eq_error h

/-- A text is a length exactly if it is a number with or without `px`, which is its value then, or such a text with
a percent sign, of which the value is that part of the reference length. All else is reported as a bad number,
trimmed and without a percent sign. -/
theorem length_reads (name value : String) (reference : Float) :
    (∀ y, length name value reference = .ok y ↔
      Reads y (trim value.toList) ∨ ∃ x, ReadsPercent x (trim value.toList) ∧ y = x * reference / 100.0) ∧
    ∀ e, length name value reference = .error e →
      e = .badNumber name (String.ofList ((before? ['%'] (trim value.toList)).getD (trim value.toList))) :=
  ⟨fun _ => length_eq_ok_iff, fun _ => length_eq_error⟩

/-- A length may be in pixels and in percent at once: its text is no number with one suffix or none. -/
theorem length_px_percent :
    length "stroke-width" "5px%" 200.0 = .ok 10.0 ∧
      ∀ ending ∈ [[], ['p', 'x'], ['%']], ∀ front x, finiteFloat? front = some x →
        ¬EndsIn ending front (trim "5px%".toList) := by
  refine ⟨by decide +kernel, fun ending hending front x hfront hends => ?_⟩
  have hpixel := hends.chars hfront 'p' (by decide)
  have hpercent := hends.chars hfront '%' (by decide)
  fin_cases hending
  · exact absurd hpixel (by decide)
  · exact absurd hpercent (by decide)
  · exact absurd hpixel (by decide)

end VectorRaster.Attribute
