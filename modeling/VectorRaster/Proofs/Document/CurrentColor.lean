/-
  VectorRaster.Proofs.Document.CurrentColor — where a colour comes from.

  Going outwards from an element, two searches meet: the nearest value of a property, and, if that is
  `currentColor`, the nearest `color` that is not `currentColor` too. Both together give the text that the colour is
  read from (`colorValue?`), if there is one. The property `color` itself comes to the same text as `currentColor`
  does, whatever is set in between (`colorValue?_color`).

  Proved (`Built.resolveColor_current`): what a property with `currentColor` gives, that an element which sets
  neither gives what its parent gives, and that a colour is the default or was read from a text on the way outwards.
-/

import VectorRaster.Proofs.Document.Inheritance

namespace VectorRaster

namespace Style

variable {d : Document} {e p x : ElementId} {property value : String} {near far : List ElementId}

/-! ## The text of a colour -/

/-- What the colour of a property is read from, if anything is set. -/
def colorValue? (d : Document) (e : ElementId) (property : String) : Option String :=
  match d.inherited? e property with
  | none => none
  | some value => if isCurrentColor value then currentColor? d e else some value

theorem resolveColor_eq (d : Document) (e : ElementId) (property : String) (default : Color) :
    resolveColor d e property default = (colorValue? d e property >>= Color.parse?).getD default := by
  unfold resolveColor colorValue?
  cases d.inherited? e property with
  | none => rfl
  | some value =>
    dsimp only
    generalize (if isCurrentColor value then currentColor? d e else some value) = text?
    cases text? <;> rfl

theorem colorValue?_of_isCurrentColor (hvalue : d.inherited? e property = some value)
    (hcurrent : isCurrentColor value = true) : colorValue? d e property = currentColor? d e := by
  rw [colorValue?, hvalue]
  exact if_pos hcurrent

/-- What is set as the property `color` is what `currentColor` stands for. -/
theorem colorValue?_color (d : Document) (e : ElementId) : colorValue? d e "color" = currentColor? d e := by
  have hnearest : d.inherited? e "color" = ((d.ancestors e).filterMap (d.attribute? · "color")).head? :=
    (List.head?_filterMap).symm
  cases hset : (d.ancestors e).filterMap (d.attribute? · "color") with
  | nil =>
    rw [hset] at hnearest
    rw [colorValue?, hnearest, currentColor?, hset]
    rfl
  | cons value rest =>
    rw [hset] at hnearest
    by_cases hcurrent : isCurrentColor value = true
    · exact colorValue?_of_isCurrentColor hnearest hcurrent
    · rw [colorValue?, hnearest, currentColor?, hset, List.find?_cons_of_pos (by simpa using hcurrent)]
      exact if_neg hcurrent

/-- The text is set by an element on the way outwards, and it is not `currentColor`. -/
theorem of_colorValue?_eq_some (h : colorValue? d e property = some value) :
    isCurrentColor value = false ∧
      ∃ x ∈ d.ancestors e, ∃ n, (n = property ∨ n = "color") ∧ d.attribute? x n = some value := by
  unfold colorValue? at h
  split at h
  · cases h
  · rename_i inherited hinherited
    split at h
    · have hfound := List.find?_some h
      obtain ⟨x, hx, hset⟩ := List.mem_filterMap.mp (List.mem_of_find?_eq_some h)
      exact ⟨by simpa using hfound, x, hx, "color", .inr rfl, hset⟩
    · rename_i hcurrent
      cases h
      obtain ⟨x, hx, hset⟩ := List.exists_of_findSome?_eq_some hinherited
      exact ⟨by simpa using hcurrent, x, hx, property, .inl rfl, hset⟩

/-! ## Which `color` is meant -/

/-- Elements whose `color` is not set or is `currentColor` again. -/
def PassesOn (d : Document) (line : List ElementId) : Prop :=
  ∀ y ∈ line, ∀ w, d.attribute? y "color" = some w → isCurrentColor w = true

theorem find?_filterMap_of_passesOn (h : PassesOn d near) (rest : List String) :
    (near.filterMap (d.attribute? · "color") ++ rest).find? (!isCurrentColor ·) = rest.find? (!isCurrentColor ·) := by
  have hnone : (near.filterMap (d.attribute? · "color")).find? (!isCurrentColor ·) = none := by
    rw [List.find?_eq_none]
    intro w hw
    obtain ⟨y, hy, hset⟩ := List.mem_filterMap.mp hw
    simp [h y hy w hset]
  rw [List.find?_append, hnone, Option.none_or]

theorem currentColor?_of_passesOn (h : PassesOn d near) (hline : d.ancestors e = near ++ x :: far)
    (hset : d.attribute? x "color" = some value) (hcurrent : isCurrentColor value = false) :
    currentColor? d e = some value := by
  have hset' : (x :: far).filterMap (d.attribute? · "color") = value :: far.filterMap (d.attribute? · "color") :=
    List.filterMap_cons_some hset
  rw [currentColor?, hline, List.filterMap_append, find?_filterMap_of_passesOn h, hset',
    List.find?_cons_of_pos (by simp [hcurrent])]

theorem currentColor?_eq_none (h : PassesOn d (d.ancestors e)) : currentColor? d e = none := by
  have hall := find?_filterMap_of_passesOn h []
  rwa [List.append_nil] at hall

/-! ## One element further out -/

theorem colorValue?_of_ancestors (hline : d.ancestors e = e :: d.ancestors p)
    (hproperty : d.attribute? e property = none) (hcolor : d.attribute? e "color" = none) :
    colorValue? d e property = colorValue? d p property := by
  have hinherited : d.inherited? e property = d.inherited? p property := by
    rw [Document.inherited?, hline, List.findSome?_cons_of_isNone (by simp [hproperty]), Document.inherited?]
  have hskip : (e :: d.ancestors p).filterMap (d.attribute? · "color") = (d.ancestors p).filterMap (d.attribute? · "color") :=
    List.filterMap_cons_none hcolor
  have hcurrent : currentColor? d e = currentColor? d p := by
    rw [currentColor?, hline, hskip, currentColor?]
  rw [colorValue?, hinherited, hcurrent, colorValue?]

end Style

/-! ## Calls -/

namespace Draft

open Style

variable {d : Draft} {e x : ElementId} {value : String} {near far : List ElementId}

theorem Sound.exists_parent (h : d.Sound) (he : e ∈ d.issued) (hne : e ≠ Document.root) :
    ∃ p, d.document.parent? e = some p ∧ d.document.ancestors e = e :: d.document.ancestors p := by
  obtain ⟨p, hp, hlt⟩ := h.parent_lt e he hne
  have hissued : p ∈ d.issued := h.mem_issued_iff.mpr (Nat.lt_trans hlt (h.mem_issued_iff.mp he))
  obtain ⟨link, hlink⟩ := Document.exists_link?_iff.mpr (h.mem_issued_iff.mp he)
  have hparent : link = some p := by
    rw [Document.parent?_eq, hlink] at hp
    exact hp
  rw [hparent] at hlink
  exact ⟨p, hp, (Climbs.up hlink (h.climbs_ancestors hissued)).unique (h.climbs_ancestors he)⟩

/-- Every element of a document that was built gets a colour for a property in one of these ways. -/
theorem Built.resolveColor_current (h : d.Built) (he : e ∈ d.issued) (property : String) (default : Color) :
    (∀ value, d.document.inherited? e property = some value → isCurrentColor value = true →
      resolveColor d.document e property default = resolveColor d.document e "color" default) ∧
    (∀ near x far value, d.document.ancestors e = near ++ x :: far → PassesOn d.document near →
      d.document.attribute? x "color" = some value → isCurrentColor value = false →
      resolveColor d.document e "color" default = (Color.parse? value).getD default) ∧
    (PassesOn d.document (d.document.ancestors e) → resolveColor d.document e "color" default = default) ∧
    (e ≠ Document.root → d.document.attribute? e property = none → d.document.attribute? e "color" = none →
      ∃ p, d.document.parent? e = some p ∧
        resolveColor d.document e property default = resolveColor d.document p property default) ∧
    (resolveColor d.document e property default = default ∨
      ∃ x ∈ d.document.ancestors e, ∃ n value, (n = property ∨ n = "color") ∧
        d.document.attribute? x n = some value ∧ isCurrentColor value = false ∧
        Attribute.color value = .ok (resolveColor d.document e property default)) := by
  refine ⟨?_, ?_, ?_, ?_, ?_⟩
  · intro value hvalue hcurrent
    rw [resolveColor_eq, resolveColor_eq, colorValue?_of_isCurrentColor hvalue hcurrent, colorValue?_color]
  · intro near x far value hline hnear hset hcurrent
    rw [resolveColor_eq, colorValue?_color, currentColor?_of_passesOn hnear hline hset hcurrent]
    rfl
  · intro hall
    rw [resolveColor_eq, colorValue?_color, currentColor?_eq_none hall]
    rfl
  · intro hne hproperty hcolor
    obtain ⟨p, hp, hline⟩ := h.sound.exists_parent he hne
    exact ⟨p, hp, by rw [resolveColor_eq, resolveColor_eq, colorValue?_of_ancestors hline hproperty hcolor]⟩
  · rw [resolveColor_eq]
    cases htext : colorValue? d.document e property with
    | none => exact .inl rfl
    | some value =>
      obtain ⟨hcurrent, x, hx, n, hn, hset⟩ := of_colorValue?_eq_some htext
      cases hparse : Color.parse? value with
      | none => exact .inl (by simp [hparse])
      | some c => exact .inr ⟨x, hx, n, value, hn, hset, hcurrent, by simp [Attribute.color, hparse]⟩

/-- A path that is filled with `currentColor`, in a group that passes on the `color` of the root, and a path that
says nothing. -/
def passingOn : Draft where
  document := ⟨#[⟨"svg", [("color", "#0F0")], none, [⟨1⟩]⟩, ⟨"g", [("color", " CurrentColor ")], some ⟨0⟩, [⟨2⟩, ⟨3⟩]⟩,
    ⟨"path", [("fill", "currentcolor")], some ⟨1⟩, []⟩, ⟨"path", [], some ⟨1⟩, []⟩]⟩
  issued := [⟨0⟩, ⟨1⟩, ⟨2⟩, ⟨3⟩]
  settings := [⟨⟨0⟩, "color", "#0F0"⟩, ⟨⟨1⟩, "color", " CurrentColor "⟩, ⟨⟨2⟩, "fill", "currentcolor"⟩]

theorem built_passingOn : Built passingOn := by
  have hroot : Built _ := .setRoot "color" "#0F0" (.root "svg") rfl
  have hgroup := Built.addWith ⟨0⟩ "g" [("color", " CurrentColor ")] hroot (by decide) rfl
  have hpath := Built.addWith ⟨1⟩ "path" [("fill", "currentcolor")] hgroup (by decide) rfl
  exact .add ⟨1⟩ "path" hpath (by decide) rfl

theorem resolveColor_passingOn : passingOn.Built ∧ ⟨2⟩ ∈ passingOn.issued ∧ ⟨3⟩ ∈ passingOn.issued ∧
    resolveColor passingOn.document ⟨2⟩ "fill" .black = resolveColor passingOn.document ⟨2⟩ "color" .black ∧
    resolveColor passingOn.document ⟨2⟩ "color" .black = .rgba 0 1 0 1 ∧
    (∃ p, passingOn.document.parent? ⟨3⟩ = some p ∧
      resolveColor passingOn.document ⟨3⟩ "fill" .black = resolveColor passingOn.document p "fill" .black) := by
  have hpassed : PassesOn passingOn.document [⟨2⟩, ⟨1⟩] := by
    unfold PassesOn
    decide +kernel
  have hpath := built_passingOn.resolveColor_current (e := ⟨2⟩) (by decide) "fill" .black
  have hbeside := built_passingOn.resolveColor_current (e := ⟨3⟩) (by decide) "fill" .black
  refine ⟨built_passingOn, by decide, by decide, ?_, ?_, ?_⟩
  · exact hpath.1 "currentcolor" (by decide) (by decide +kernel)
  · exact (hpath.2.1 [⟨2⟩, ⟨1⟩] ⟨0⟩ [] "#0F0" (by decide) hpassed (by decide) (by decide +kernel)).trans (by decide +kernel)
  · exact hbeside.2.2.2.1 (by decide) (by decide) (by decide)

end Draft

end VectorRaster
