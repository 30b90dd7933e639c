/-
  VectorRaster.Proofs.Document.Edits — how documents are built, and what one call changes.

  A draft is a document with the ids that it has given out and the attributes that were set on
  it, both in order. Drafts begin with a root and are built by calls at ids that were given out
  (`Built`). A call is described by what the accessors say afterwards: a new element has the name
  and the parent asked for, and shows in its parent's children; a set attribute has its value. All
  else is as it was (`Grows`, `IsSet`).

  An element added with attributes is an element that is added and then set, one attribute after
  the other. So what these two steps keep, every call keeps (`Built.induct`).
-/

import Mathlib.Data.List.Nodup
import VectorRaster.Document.Tree

namespace VectorRaster

/-! ## Attributes of one element -/

namespace Element

theorem find?_settle (name value m : String) (attributes : List (String × String)) :
    ((settle name value attributes).find? (·.1 == m)).map (·.2) =
      if m = name then some value else (attributes.find? (·.1 == m)).map (·.2) := by
  induction attributes with
  | nil =>
    by_cases hm : m = name
    · simp [settle, hm]
    · simp [settle, hm, Ne.symm hm]
  | cons a rest ih =>
    obtain ⟨n, v⟩ := a
    by_cases hn : n = name
    · subst hn
      by_cases hm : m = n
      · simp [settle, hm]
      · simp [settle, hm, Ne.symm hm]
    · rw [settle, if_neg (by simpa using hn)]
      by_cases hm : m = n
      · subst hm
        simp [hn]
      · rw [List.find?_cons_of_neg (by simpa using Ne.symm hm), List.find?_cons_of_neg (by simpa using Ne.symm hm), ih]

/-- A name has the value that it was set to last. -/
theorem attribute?_setAttribute (e : Element) (name value m : String) :
    (e.setAttribute name value).attribute? m = if m = name then some value else e.attribute? m :=
  find?_settle name value m e.attributes

/-- A name that is there stays in its place, and a new one comes last. -/
theorem names_settle (name value : String) (attributes : List (String × String)) :
    (settle name value attributes).map (·.1) =
      if name ∈ attributes.map (·.1) then attributes.map (·.1) else attributes.map (·.1) ++ [name] := by
  induction attributes with
  | nil => rfl
  | cons a rest ih =>
    obtain ⟨n, v⟩ := a
    by_cases hn : n = name
    · simp [settle, hn]
    · rw [settle, if_neg (by simpa using hn), List.map_cons, ih, List.map_cons]
      by_cases hmem : name ∈ rest.map (·.1)
      · rw [if_pos hmem, if_pos (List.mem_cons_of_mem _ hmem)]
      · rw [if_neg hmem, if_neg (by simpa [Ne.symm hn] using hmem), List.cons_append]

/-- No two attributes have the same name. -/
def NamesOnce (e : Element) : Prop := (e.attributes.map (·.1)).Nodup

theorem NamesOnce.setAttribute {e : Element} (h : e.NamesOnce) (name value : String) :
    (e.setAttribute name value).NamesOnce := by
  show ((settle name value e.attributes).map (·.1)).Nodup
  rw [names_settle]
  by_cases hmem : name ∈ e.attributes.map (·.1)
  · rw [if_pos hmem]
    exact h
  · rw [if_neg hmem]
    rw [← List.concat_eq_append]
    exact h.concat hmem

end Element

/-! ## Single calls -/

namespace Document

variable {d d' : Document} {id parent x : ElementId} {name value n : String}

theorem exists_element?_iff : (∃ element, d.element? x = some element) ↔ x.index < d.elements.size := by
  rw [element?, ← Option.isSome_iff_exists]
  exact Iff.of_eq (isSome_getElem? d.elements x.index)

theorem element?_eq_none (h : d.elements.size ≤ x.index) : d.element? x = none := Array.getElem?_eq_none h

theorem element?_modify (f : Element → Element) (x : ElementId) :
    element? ⟨d.elements.modify id.index f⟩ x = if x = id then (d.element? x).map f else d.element? x := by
  have hx : id.index = x.index ↔ x = id := by
    obtain ⟨i⟩ := id
    obtain ⟨j⟩ := x
    simp [eq_comm]
  simp only [element?, Array.getElem?_modify, hx]

/-- `d'` is `d` with an attribute set. -/
structure IsSet (d : Document) (id : ElementId) (name value : String) (d' : Document) : Prop where
  size_eq : d'.elements.size = d.elements.size
  element?_eq : ∀ x, d'.element? x = if x = id then (d.element? x).map (·.setAttribute name value) else d.element? x

/-- `d'` is `d` with a new element, the last child of `parent`. -/
structure Grows (d : Document) (parent : ElementId) (name : String) (id : ElementId) (d' : Document) : Prop where
  id_eq : id = ⟨d.elements.size⟩
  size_eq : d'.elements.size = d.elements.size + 1
  element?_new : d'.element? id = some ⟨name, [], some parent, []⟩
  element?_eq : ∀ x, x ≠ id → d'.element? x = if x = parent then (d.element? x).map (·.addChild id) else d.element? x

/-- Setting an attribute succeeds on an element that is there, and on no other. -/
theorem setAttribute_of_lt (h : id.index < d.elements.size) (name value : String) :
    ∃ d', d.setAttribute id name value = some d' ∧ d.IsSet id name value d' :=
  ⟨_, if_pos h, Array.size_modify, element?_modify _⟩

/-- The new element is in a document of its own, `grown`, when its parent is looked up. So a parent is there up to
the number that the new element is given. -/
theorem exists_addElement (h : parent.index ≤ d.elements.size) (name : String) :
    ∃ grown d' : Document, d.addElement parent name = some (⟨d.elements.size⟩, d') ∧
      d'.elements.size = d.elements.size + 1 ∧
      (∀ x, grown.element? x = if x = ⟨d.elements.size⟩ then some ⟨name, [], some parent, []⟩ else d.element? x) ∧
      ∀ x, d'.element? x =
        if x = parent then (grown.element? x).map (·.addChild ⟨d.elements.size⟩) else grown.element? x := by
  let grown : Document := ⟨d.elements.push ⟨name, [], some parent, []⟩⟩
  have hlt : parent.index < grown.elements.size := by simpa [grown] using Nat.lt_succ_of_le h
  have hadd : d.addElement parent name =
      some (⟨d.elements.size⟩, ⟨grown.elements.modify parent.index (·.addChild ⟨d.elements.size⟩)⟩) := by
    simp only [addElement, modify?, if_pos hlt, Option.bind_eq_bind, Option.bind_some, Option.pure_def, grown]
  refine ⟨grown, _, hadd, by simp [grown], fun x => ?_, element?_modify _⟩
  have hx : x.index = d.elements.size ↔ x = ⟨d.elements.size⟩ := by
    obtain ⟨j⟩ := x
    simp
  simp only [grown, element?, Array.getElem?_push, hx]

theorem addElement_of_lt (h : parent.index < d.elements.size) (name : String) :
    ∃ id d', d.addElement parent name = some (id, d') ∧ d.Grows parent name id d' := by
  obtain ⟨grown, d', hadd, hsize, hgrown, helement⟩ := exists_addElement (Nat.le_of_lt h) name
  have hid : ⟨d.elements.size⟩ ≠ parent := by
    intro heq
    rw [← heq] at h
    exact Nat.lt_irrefl _ h
  refine ⟨_, d', hadd, rfl, hsize, ?_, ?_⟩
  · rw [helement, if_neg hid, hgrown, if_pos rfl]
  · intro x hx
    rw [helement, hgrown, if_neg hx]

/-! ## What the accessors say afterwards -/

/-- What an element says its parent is; none if there is no such element. -/
def link? (d : Document) (x : ElementId) : Option (Option ElementId) := (d.element? x).map (·.parent?)

theorem parent?_eq (d : Document) (x : ElementId) : d.parent? x = (d.link? x).join := by
  rw [parent?, link?]
  cases d.element? x <;> rfl

theorem exists_link?_iff : (∃ link, d.link? x = some link) ↔ x.index < d.elements.size := by
  rw [← exists_element?_iff, link?]
  cases d.element? x <;> simp

theorem attribute?_eq (d : Document) (x : ElementId) (n : String) :
    d.attribute? x n = ((d.element? x).map (·.attribute? n)).join := by
  rw [attribute?]
  cases d.element? x <;> rfl

/-- In `d'` the element is what it is in `d`, apart from its children. -/
def KeepsAt (d d' : Document) (x : ElementId) : Prop :=
  (d'.element? x).map ({ · with children := [] }) = (d.element? x).map ({ · with children := [] })

section
variable (h : d.KeepsAt d' x)
include h

theorem KeepsAt.map_element? {α : Type} {f : Element → α} (hf : ∀ e : Element, f { e with children := [] } = f e) :
    (d'.element? x).map f = (d.element? x).map f := by
  have hcomp : f = f ∘ ({ · with children := [] }) := funext fun e => (hf e).symm
  rw [hcomp, ← Option.map_map, ← Option.map_map, h]

theorem KeepsAt.name_eq : d'.name x = d.name x := by
  rw [Document.name, h.map_element? fun _ => rfl, Document.name]

theorem KeepsAt.link? : d'.link? x = d.link? x := h.map_element? fun _ => rfl

theorem KeepsAt.parent? : d'.parent? x = d.parent? x := by
  rw [parent?_eq, h.link?, parent?_eq]

theorem KeepsAt.attribute? (n : String) : d'.attribute? x n = d.attribute? x n := by
  rw [attribute?_eq, h.map_element? fun _ => rfl, attribute?_eq]

theorem KeepsAt.trans {d'' : Document} (h' : d'.KeepsAt d'' x) : d.KeepsAt d'' x := Eq.trans h' h

end

section
variable (h : d.IsSet id name value d')
include h

theorem IsSet.keepsAt (hx : x ≠ id) : d.KeepsAt d' x := by
  rw [KeepsAt, h.element?_eq, if_neg hx]

theorem IsSet.map_element? {α : Type} {f : Element → α} (hf : ∀ e : Element, f (e.setAttribute name value) = f e)
    (x : ElementId) : (d'.element? x).map f = (d.element? x).map f := by
  rw [h.element?_eq]
  by_cases hx : x = id
  · rw [if_pos hx, Option.map_map]
    exact congrArg (Option.map · _) (funext hf)
  · rw [if_neg hx]

theorem IsSet.link? (x : ElementId) : d'.link? x = d.link? x := h.map_element? (fun _ => rfl) x

theorem IsSet.parent? (x : ElementId) : d'.parent? x = d.parent? x := by
  rw [parent?_eq, h.link?, parent?_eq]

theorem IsSet.children (x : ElementId) : d'.children x = d.children x := by
  rw [Document.children, h.map_element? fun _ => rfl, Document.children]

theorem IsSet.attribute? (hid : id.index < d.elements.size) (x : ElementId) (n : String) :
    d'.attribute? x n = if x = id ∧ n = name then some value else d.attribute? x n := by
  by_cases hx : x = id
  · subst hx
    obtain ⟨element, helement⟩ := exists_element?_iff.mpr hid
    rw [Document.attribute?, h.element?_eq, if_pos rfl, Document.attribute?]
    simp [helement, Element.attribute?_setAttribute]
  · rw [(h.keepsAt hx).attribute?, if_neg fun hboth => hx hboth.1]

end

section
variable (h : d.Grows parent name id d')
include h

theorem Grows.element?_old : d.element? id = none := by
  rw [h.id_eq]
  exact element?_eq_none (Nat.le_refl _)

theorem Grows.ne_of_lt (hx : x.index < d.elements.size) : x ≠ id := by
  rw [h.id_eq]
  rintro rfl
  exact Nat.lt_irrefl _ hx

theorem Grows.keepsAt (hx : x ≠ id) : d.KeepsAt d' x := by
  rw [KeepsAt, h.element?_eq x hx]
  by_cases hp : x = parent
  · rw [if_pos hp, Option.map_map]
    rfl
  · rw [if_neg hp]

theorem Grows.parent? (x : ElementId) : d'.parent? x = if x = id then some parent else d.parent? x := by
  by_cases hx : x = id
  · rw [if_pos hx, hx, parent?_eq, Document.link?, h.element?_new]
    rfl
  · rw [if_neg hx, (h.keepsAt hx).parent?]

theorem Grows.children (hparent : parent.index < d.elements.size) (x : ElementId) :
    d'.children x = if x = parent then d.children x ++ [id] else d.children x := by
  by_cases hx : x = id
  · have hne : id ≠ parent := (h.ne_of_lt hparent).symm
    rw [hx, if_neg hne, Document.children, h.element?_new, Document.children, h.element?_old]
    rfl
  · rw [Document.children, h.element?_eq x hx, Document.children]
    by_cases hp : x = parent
    · subst hp
      obtain ⟨element, helement⟩ := exists_element?_iff.mpr hparent
      simp [helement, Element.addChild]
    · rw [if_neg hp, if_neg hp]

/-- The new element has no attributes, as when it was not there. -/
theorem Grows.attribute? (x : ElementId) (n : String) : d'.attribute? x n = d.attribute? x n := by
  by_cases hx : x = id
  · rw [hx, attribute?_eq, h.element?_new, attribute?_eq, h.element?_old]
    rfl
  · exact (h.keepsAt hx).attribute? n

end

end Document

/-! ## Drafts -/

/-- An attribute that was set. -/
structure Setting where
  element : ElementId
  name : String
  value : String
  deriving DecidableEq

/-- A document with the ids that it has given out and what was set, in order. -/
structure Draft where
  document : Document
  issued : List ElementId
  settings : List Setting
  deriving DecidableEq

namespace Draft

variable {d d' : Draft} {parent id : ElementId} {name n v : String} {attributes : List (String × String)}

def ofRoot (name : String) : Draft := ⟨.ofRoot name, [Document.root], []⟩

def add? (d : Draft) (parent : ElementId) (name : String) : Option Draft := do
  let (id, grown) ← d.document.addElement parent name
  return ⟨grown, d.issued ++ [id], d.settings⟩

def set? (d : Draft) (id : ElementId) (name value : String) : Option Draft := do
  let changed ← d.document.setAttribute id name value
  return ⟨changed, d.issued, d.settings ++ [⟨id, name, value⟩]⟩

def addWith? (d : Draft) (parent : ElementId) (name : String) (attributes : List (String × String)) : Option Draft := do
  let (id, grown) ← d.document.addElementWith parent name attributes
  return ⟨grown, d.issued ++ [id], d.settings ++ attributes.map fun (n, v) => ⟨id, n, v⟩⟩

/-- Drafts that are built from a root by calls at ids that were given out. -/
inductive Built : Draft → Prop
  | root (name : String) : Built (ofRoot name)
  | add {d d' : Draft} (parent : ElementId) (name : String) :
      Built d → parent ∈ d.issued → d.add? parent name = some d' → Built d'
  | addWith {d d' : Draft} (parent : ElementId) (name : String) (attributes : List (String × String)) :
      Built d → parent ∈ d.issued → d.addWith? parent name attributes = some d' → Built d'
  | set {d d' : Draft} (id : ElementId) (name value : String) :
      Built d → id ∈ d.issued → d.set? id name value = some d' → Built d'
  | setRoot {d d' : Draft} (name value : String) :
      Built d → d.set? Document.root name value = some d' → Built d'

/-! ## Single steps -/

theorem add?_of_lt (h : parent.index < d.document.elements.size) (name : String) :
    ∃ id grown, d.add? parent name = some ⟨grown, d.issued ++ [id], d.settings⟩ ∧ d.document.Grows parent name id grown := by
  obtain ⟨id, grown, hadd, hgrows⟩ := Document.addElement_of_lt h name
  exact ⟨id, grown, by simp [add?, hadd], hgrows⟩

theorem set?_of_lt (h : id.index < d.document.elements.size) (name value : String) :
    ∃ changed, d.set? id name value = some ⟨changed, d.issued, d.settings ++ [⟨id, name, value⟩]⟩ ∧
      d.document.IsSet id name value changed := by
  obtain ⟨changed, hset, hchanged⟩ := Document.setAttribute_of_lt h name value
  exact ⟨changed, by simp [set?, hset], hchanged⟩

theorem issued_set? (h : d.set? id name v = some d') : d'.issued = d.issued := by
  obtain ⟨changed, -, hd'⟩ := Option.bind_eq_some_iff.mp h
  cases hd'
  rfl

theorem issued_add? (h : d.add? parent name = some d') : d'.issued = d.issued ++ [⟨d.document.elements.size⟩] := by
  obtain ⟨⟨id, grown⟩, hadd, hd'⟩ := Option.bind_eq_some_iff.mp h
  obtain ⟨_, -, hgrown⟩ := Option.bind_eq_some_iff.mp hadd
  cases hgrown
  cases hd'
  rfl

theorem issued_addWith? (h : d.addWith? parent name attributes = some d') : ∃ id, d'.issued = d.issued ++ [id] := by
  obtain ⟨⟨id, grown⟩, -, hd'⟩ := Option.bind_eq_some_iff.mp h
  cases hd'
  exact ⟨id, rfl⟩

theorem Built.root_mem (h : Built d) : Document.root ∈ d.issued := by
  induction h with
  | root name => exact List.mem_singleton_self _
  | add _ _ _ _ hadd ih =>
    rw [issued_add? hadd]
    exact List.mem_append_left _ ih
  | addWith _ _ _ _ _ hadd ih =>
    obtain ⟨id, hissued⟩ := issued_addWith? hadd
    rw [hissued]
    exact List.mem_append_left _ ih
  | set _ _ _ _ _ hset ih =>
    rw [issued_set? hset]
    exact ih
  | setRoot _ _ _ hset ih =>
    rw [issued_set? hset]
    exact ih

/-! ## Adding with attributes -/

def setAll? (d : Draft) (id : ElementId) : List (String × String) → Option Draft
  | [] => some d
  | (n, v) :: rest => d.set? id n v >>= (·.setAll? id rest)

theorem setAll?_eq (d : Draft) (id : ElementId) (attributes : List (String × String)) :
    d.setAll? id attributes = (d.document.setAttributes id attributes).map fun changed =>
      ⟨changed, d.issued, d.settings ++ attributes.map fun (n, v) => ⟨id, n, v⟩⟩ := by
  induction attributes generalizing d with
  | nil => simp [setAll?, Document.setAttributes]
  | cons a rest ih =>
    obtain ⟨n, v⟩ := a
    simp only [setAll?, set?, Document.setAttributes]
    cases d.document.setAttribute id n v with
    | none => rfl
    | some changed => simp [ih]

theorem setAll?_of_lt (attributes : List (String × String)) (h : id.index < d.document.elements.size) :
    ∃ d', d.setAll? id attributes = some d' ∧ ∀ x, x ≠ id → d.document.KeepsAt d'.document x := by
  induction attributes generalizing d with
  | nil => exact ⟨d, rfl, fun _ _ => rfl⟩
  | cons a rest ih =>
    obtain ⟨changed, hset, hisSet⟩ := set?_of_lt h a.1 a.2
    obtain ⟨d', hrest, hkeeps⟩ := ih (d := ⟨changed, d.issued, d.settings ++ [⟨id, a.1, a.2⟩]⟩) (hisSet.size_eq ▸ h)
    refine ⟨d', ?_, fun x hx => (hisSet.keepsAt hx).trans (hkeeps x hx)⟩
    rw [setAll?, hset]
    exact hrest

/-- The attributes of a new element are set one after the other. -/
theorem addWith?_eq (d : Draft) (parent : ElementId) (name : String) (attributes : List (String × String)) :
    d.addWith? parent name attributes =
      d.add? parent name >>= fun grown => grown.setAll? ⟨d.document.elements.size⟩ attributes := by
  simp only [addWith?, add?, Document.addElementWith, Document.addElement, Option.bind_eq_bind, Option.pure_def,
    Option.bind_assoc, Option.bind_some, setAll?_eq, Option.map_eq_bind, Function.comp_def]

theorem addWith?_of_lt (h : parent.index < d.document.elements.size) (name : String)
    (attributes : List (String × String)) :
    ∃ d', d.addWith? parent name attributes = some d' ∧
      ∀ x : ElementId, x.index < d.document.elements.size → d.document.KeepsAt d'.document x := by
  obtain ⟨id, grown, hadd, hgrows⟩ := add?_of_lt h name
  have hlt : id.index < grown.elements.size := by
    rw [hgrows.size_eq, hgrows.id_eq]
    exact Nat.lt_succ_self _
  obtain ⟨d', hset, hkeeps⟩ := setAll?_of_lt (d := ⟨grown, d.issued ++ [id], d.settings⟩) attributes hlt
  refine ⟨d', ?_, fun x hx => (hgrows.keepsAt (hgrows.ne_of_lt hx)).trans (hkeeps x (hgrows.ne_of_lt hx))⟩
  rw [addWith?_eq, hadd, ← hgrows.id_eq]
  exact hset

/-- What adding an element and setting one attribute keep, all calls keep. -/
theorem Built.induct {P : Draft → Prop} (root : ∀ name, P (ofRoot name))
    (add : ∀ d parent name d', Built d → P d → parent ∈ d.issued → d.add? parent name = some d' → P d')
    (set : ∀ d id name value d', Built d → P d → id ∈ d.issued → d.set? id name value = some d' → P d') (h : Built d) :
    P d := by
  have setAll : ∀ attributes (d : Draft) id d', Built d → P d → id ∈ d.issued → d.setAll? id attributes = some d' → P d' := by
    intro attributes
    induction attributes with
    | nil =>
      intro d id d' _ hd _ hset
      cases hset
      exact hd
    | cons a rest ih =>
      intro d id d' hbuilt hd hid hset
      obtain ⟨changed, hchanged, hrest⟩ := Option.bind_eq_some_iff.mp hset
      refine ih changed id d' (hbuilt.set id a.1 a.2 hid hchanged) (set d id a.1 a.2 changed hbuilt hd hid hchanged) ?_ hrest
      rw [issued_set? hchanged]
      exact hid
  induction h with
  | root name => exact root name
  | add parent name hbuilt hparent hadd ih => exact add _ parent name _ hbuilt ih hparent hadd
  | addWith parent name attributes hbuilt hparent hadd ih =>
    rw [addWith?_eq] at hadd
    obtain ⟨grown, hgrown, hset⟩ := Option.bind_eq_some_iff.mp hadd
    refine setAll attributes grown _ _ (hbuilt.add parent name hparent hgrown)
      (add _ parent name grown hbuilt ih hparent hgrown) ?_ hset
    rw [issued_add? hgrown]
    exact List.mem_append_right _ (List.mem_singleton_self _)
  | set id name value hbuilt hid hset ih => exact set _ id name value _ hbuilt ih hid hset
  | setRoot name value hbuilt hset ih => exact set _ Document.root name value _ hbuilt ih hbuilt.root_mem hset

/-- A group with a path in it and one beside it. The group's fill was set twice. -/
def grouped : Draft where
  document := ⟨#[⟨"svg", [("fill", "red")], none, [⟨1⟩, ⟨3⟩]⟩, ⟨"g", [("fill", "lime"), ("id", "a")], some ⟨0⟩, [⟨2⟩]⟩,
    ⟨"path", [], some ⟨1⟩, []⟩, ⟨"path", [], some ⟨0⟩, []⟩]⟩
  issued := [⟨0⟩, ⟨1⟩, ⟨2⟩, ⟨3⟩]
  settings := [⟨⟨1⟩, "fill", "blue"⟩, ⟨⟨1⟩, "id", "a"⟩, ⟨⟨0⟩, "fill", "red"⟩, ⟨⟨1⟩, "fill", "lime"⟩]

theorem built_grouped : Built grouped := by
  have hgroup := Built.addWith ⟨0⟩ "g" [("fill", "blue"), ("id", "a")] (.root "svg") (by decide) rfl
  have hpath := Built.add ⟨1⟩ "path" (hgroup.setRoot "fill" "red" rfl) (by decide) rfl
  exact .add ⟨0⟩ "path" (hpath.set ⟨1⟩ "fill" "lime" (by decide) rfl) (by decide) rfl

end Draft

end VectorRaster
