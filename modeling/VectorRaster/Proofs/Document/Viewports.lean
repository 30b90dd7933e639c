/-
  VectorRaster.Proofs.Document.Viewports — what a viewport is read from, and when it is finite.

  A viewport comes from a view box or from a width and a height. The latter are read as attributes are, which keeps
  out infinite values; the four numbers of a view box are not, and of them only the last two are looked at: both are
  greater than zero. So `ReadFrom` says exactly when an element has which viewport, and `ofElement_positive` what it
  is then: its sides are positive numbers, and all is finite unless a part of a view box is not.
-/

import VectorRaster.Document.Viewport
import VectorRaster.Proofs.Numeric.Conversion

namespace VectorRaster

open Numeric

/-! ## Numbers that are finite -/

namespace Numeric

theorem finiteFloat?_eq_some_iff {cs : List Char} {x : Float} :
    finiteFloat? cs = some x ↔ float? cs = some x ∧ x.isFinite = true :=
  Option.filter_eq_some_iff

/-- Numbers that are all written are all finite if each is by itself. -/
theorem isFinite_iff_of_mapM_float? {parts : List (List Char)} {xs : List Float} (h : parts.mapM float? = some xs) :
    (∀ x ∈ xs, x.isFinite = true) ↔ ∀ cs ∈ parts, (finiteFloat? cs).isSome = true := by
  induction parts generalizing xs with
  | nil =>
    cases h
    simp
  | cons cs parts ih =>
    rw [List.mapM_cons] at h
    obtain ⟨x, hx, h⟩ := Option.bind_eq_some_iff.mp h
    obtain ⟨rest, hrest, h⟩ := Option.bind_eq_some_iff.mp h
    cases h
    have hhead : x.isFinite = true ↔ (finiteFloat? cs).isSome = true := by
      simp [Option.isSome_iff_exists, finiteFloat?_eq_some_iff, hx]
    rw [List.forall_mem_cons, List.forall_mem_cons, hhead, ih hrest]

end Numeric

theorem Attribute.isFinite_of_number {name value : String} {x : Float} (h : Attribute.number name value = .ok x) :
    x.isFinite = true := by
  unfold Attribute.number at h
  dsimp only at h
  split at h
  · rename_i hx
    cases h
    exact (finiteFloat?_eq_some_iff.mp hx).2
  · cases h

/-! ## Reading -/

theorem exists_of_bind_eq_ok {ε α β : Type} {x : Except ε α} {f : α → Except ε β} {b : β} (h : x >>= f = .ok b) :
    ∃ a, x = .ok a ∧ f a = .ok b := by
  cases x with
  | error => cases h
  | ok a => exact ⟨a, rfl, h⟩

namespace Viewport

variable {d : Document} {e : ElementId} {v : Viewport} {text name : String}

def numbers (v : Viewport) : List Float := [v.corner.x, v.corner.y, v.width, v.height]

def IsFinite (v : Viewport) : Prop := ∀ x ∈ v.numbers, x.isFinite = true

theorem ofViewBox_eq_ok_iff : ofViewBox text = .ok v ↔
    (Text.parts text.toList).mapM float? = some v.numbers ∧ 0.0 < v.width ∧ 0.0 < v.height := by
  unfold ofViewBox
  constructor
  · intro h
    split at h
    · rename_i hread
      split at h
      · rename_i hpositive
        cases h
        exact ⟨hread, by simpa using hpositive⟩
      · cases h
    · cases h
  · intro h
    obtain ⟨hread, hwidth, hheight⟩ := h
    rw [hread, numbers]
    simp [hwidth, hheight]

theorem inheritedValue_eq_ok_iff : inheritedValue d e name = .ok text ↔ d.inherited? e name = some text := by
  unfold inheritedValue
  cases d.inherited? e name <;> simp

/-- The viewport of an element, and what it is read from. -/
inductive ReadFrom (d : Document) (e : ElementId) (v : Viewport) : Prop
  | viewBox (text : String) : d.inherited? e "viewBox" = some text →
      (Text.parts text.toList).mapM float? = some v.numbers → 0.0 < v.width → 0.0 < v.height → ReadFrom d e v
  | sides (width height : String) : d.inherited? e "viewBox" = none → d.inherited? e "width" = some width →
      d.inherited? e "height" = some height → v.corner = .origin → Attribute.number "width" width = .ok v.width →
      Attribute.number "height" height = .ok v.height → 0.0 < v.width → 0.0 < v.height → ReadFrom d e v

theorem pos_iff_of_number {value : String} {x : Float} (h : Attribute.number name value = .ok x) : 0.0 < x ↔ ¬x ≤ 0.0 := by
  have hx := Attribute.isFinite_of_number h
  rw [lt_iff zero_exact.1 hx, le_iff hx zero_exact.1, not_le]

theorem ofElement_of_viewBox (h : d.inherited? e "viewBox" = some text) : ofElement d e = ofViewBox text := by
  rw [ofElement, h]

theorem ofElement_of_sides {width height : String} {w h : Float} (hbox : d.inherited? e "viewBox" = none)
    (hwidth : d.inherited? e "width" = some width) (hheight : d.inherited? e "height" = some height)
    (hw : Attribute.number "width" width = .ok w) (hh : Attribute.number "height" height = .ok h) :
    ofElement d e = if w ≤ 0.0 then .error (.badNumber "width" width)
      else if h ≤ 0.0 then .error (.badNumber "height" height) else .ok ⟨.origin, w, h⟩ := by
  simp only [ofElement, hbox, inheritedValue_eq_ok_iff.mpr hwidth, inheritedValue_eq_ok_iff.mpr hheight, hw, hh, bind,
    Except.bind]

theorem ofElement_eq_ok_iff : ofElement d e = .ok v ↔ ReadFrom d e v := by
  constructor
  · intro h
    cases hbox : d.inherited? e "viewBox" with
    | some text =>
      rw [ofElement_of_viewBox hbox] at h
      obtain ⟨hread, hwidth, hheight⟩ := ofViewBox_eq_ok_iff.mp h
      exact .viewBox text hbox hread hwidth hheight
    | none =>
      have hparts := h
      rw [ofElement, hbox] at hparts
      obtain ⟨width, hwidth, hparts⟩ := exists_of_bind_eq_ok hparts
      obtain ⟨height, hheight, hparts⟩ := exists_of_bind_eq_ok hparts
      obtain ⟨w, hw, hparts⟩ := exists_of_bind_eq_ok hparts
      obtain ⟨k, hh, -⟩ := exists_of_bind_eq_ok hparts
      rw [inheritedValue_eq_ok_iff] at hwidth hheight
      rw [ofElement_of_sides hbox hwidth hheight hw hh] at h
      split at h
      · cases h
      · rename_i hwpos
        split at h
        · cases h
        · rename_i hhpos
          cases h
          exact .sides width height hbox hwidth hheight rfl hw hh ((pos_iff_of_number hw).mpr hwpos)
            ((pos_iff_of_number hh).mpr hhpos)
  · intro h
    cases h with
    | viewBox text hbox hread hwidth hheight =>
      rw [ofElement_of_viewBox hbox]
      exact ofViewBox_eq_ok_iff.mpr ⟨hread, hwidth, hheight⟩
    | sides width height hbox hwidth hheight hcorner hw hh hwpos hhpos =>
      rw [ofElement_of_sides hbox hwidth hheight hw hh, if_neg ((pos_iff_of_number hw).mp hwpos),
        if_neg ((pos_iff_of_number hh).mp hhpos), ← hcorner]

/-! ## What was read -/

theorem ReadFrom.isFinite_iff (h : ReadFrom d e v) : v.IsFinite ↔
    ∀ text, d.inherited? e "viewBox" = some text → ∀ part ∈ Text.parts text.toList, (finiteFloat? part).isSome = true := by
  cases h with
  | viewBox text hbox hread =>
    rw [IsFinite, isFinite_iff_of_mapM_float? hread, hbox]
    simp
  | sides width height hbox _ _ hcorner hw hh =>
    have horigin : (Point.origin : Point Float).x.isFinite = true ∧ (Point.origin : Point Float).y.isFinite = true := ⟨rfl, rfl⟩
    have hfinite : v.IsFinite := by
      simp [IsFinite, numbers, hcorner, horigin, Attribute.isFinite_of_number hw, Attribute.isFinite_of_number hh]
    simp [hfinite, hbox]

/-- Whatever it is read from, a viewport has positive sides. It is finite if it is read from a width and a height;
if it is read from a view box, it is so exactly if every part of the view box is a finite number. -/
theorem ofElement_positive (h : ofElement d e = .ok v) :
    0.0 < v.width ∧ 0.0 < v.height ∧ v.width.isNaN = false ∧ v.height.isNaN = false ∧
      (d.inherited? e "viewBox" = none → v.IsFinite) ∧
      ∀ text, d.inherited? e "viewBox" = some text →
        (v.IsFinite ↔ ∀ part ∈ Text.parts text.toList, (finiteFloat? part).isSome = true) := by
  have hread := ofElement_eq_ok_iff.mp h
  obtain ⟨hwidth, hheight⟩ : 0.0 < v.width ∧ 0.0 < v.height := by
    cases hread with
    | viewBox _ _ _ hwidth hheight => exact ⟨hwidth, hheight⟩
    | sides _ _ _ _ _ _ _ _ hwidth hheight => exact ⟨hwidth, hheight⟩
  refine ⟨hwidth, hheight, isNaN_of_lt hwidth, isNaN_of_lt hheight, ?_, ?_⟩
  · intro hbox
    refine hread.isFinite_iff.mpr fun text htext => ?_
    cases hbox.symm.trans htext
  · intro text htext
    rw [hread.isFinite_iff, htext]
    simp

/-- A drawing whose view box is given on the root, and that of a picture in it. -/
def framed (viewBox : String) : Document :=
  ⟨#[⟨"svg", [("viewBox", viewBox)], none, [⟨1⟩]⟩, ⟨"svg", [], some ⟨0⟩, []⟩]⟩

theorem ofElement_positive_framed :
    ofElement (framed "-1 2.5, 40 3e1") ⟨1⟩ = .ok ⟨⟨-1.0, 2.5⟩, 40.0, 30.0⟩ ∧
      IsFinite ⟨⟨-1.0, 2.5⟩, 40.0, 30.0⟩ ∧ (0.0 : Float) < 40.0 ∧ (0.0 : Float) < 30.0 := by
  have hread : ofElement (framed "-1 2.5, 40 3e1") ⟨1⟩ = .ok ⟨⟨-1.0, 2.5⟩, 40.0, 30.0⟩ := by decide +kernel
  obtain ⟨hwidth, hheight, -, -, -, hbox⟩ := ofElement_positive hread
  refine ⟨hread, (hbox "-1 2.5, 40 3e1" (by decide)).mpr ?_, hwidth, hheight⟩
  decide +kernel

/-- A view box may say that a side is infinite, and that a corner is not a number. -/
theorem ofElement_endless :
    (∃ v, ofElement (framed "0 0 inf 5") Document.root = .ok v ∧ v.width.isFinite = false) ∧
      ∃ v, ofElement (framed "NaN -inf 1e400 5") ⟨1⟩ = .ok v ∧ v.corner.x.isNaN = true ∧ v.corner.y.isFinite = false ∧
        v.width.isFinite = false := by
  refine ⟨⟨⟨⟨0.0, 0.0⟩, 1.0 / 0.0, 5.0⟩, ?_, rfl⟩, ⟨⟨0.0 / 0.0, -(1.0 / 0.0)⟩, 1.0 / 0.0, 5.0⟩, ?_, rfl, rfl, rfl⟩
  · decide +kernel
  · decide +kernel

end Viewport

end VectorRaster
