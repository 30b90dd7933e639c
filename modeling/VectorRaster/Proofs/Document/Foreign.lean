/-
  VectorRaster.Proofs.Document.Foreign — calls with ids that a document has not given out.

  Nothing tells whose an id is: it is a number, and a document with more elements gives out
  greater ones. Attributes are set at ids that have an element, and at no others. An element can
  be added below one more id. The new element is there before its parent is looked up, so a call
  with the id that it is about to give out returns, and the new element is its own parent and its
  own child (`GrowsLoop`). Going outwards from it has no end (`CirclesAt`).

  Calls are data here, with any ids (`Edit`). A run of calls returns only if each parent is there
  already or is the new element itself, and the links of the elements are the parents asked for
  (`Filed`, kept by every call).

  Main statement: `parents_foreign`. It says which ids add an element, and that what a run leaves
  is a tree exactly if no call has asked for the element that it adds.
-/

import VectorRaster.Proofs.Document.Lineage

namespace VectorRaster

namespace Document

variable {d d' : Document} {id parent e x : ElementId} {name value : String} {attributes : List (String × String)}

/-! ## Single calls -/

theorem modify?_of_le (h : d.elements.size ≤ id.index) (f : Element → Element) : d.modify? id f = none :=
  if_neg (Nat.not_lt.mpr h)

theorem lt_of_setAttribute (h : d.setAttribute id name value = some d') : id.index < d.elements.size := by
  by_contra hle
  rw [setAttribute, modify?_of_le (Nat.le_of_not_lt hle)] at h
  cases h

theorem isSet_of_setAttribute (h : d.setAttribute id name value = some d') : d.IsSet id name value d' := by
  obtain ⟨changed, hset, hisSet⟩ := setAttribute_of_lt (lt_of_setAttribute h) name value
  cases hset.symm.trans h
  exact hisSet

/-- `d'` is `d` with a new element that is its own parent and its own child. -/
structure GrowsLoop (d : Document) (name : String) (id : ElementId) (d' : Document) : Prop where
  id_eq : id = ⟨d.elements.size⟩
  size_eq : d'.elements.size = d.elements.size + 1
  element?_new : d'.element? id = some ⟨name, [], some id, [id]⟩
  element?_eq : ∀ x, x ≠ id → d'.element? x = d.element? x

/-- An element can be added below the id that it is given. -/
theorem addElement_of_eq (h : id = ⟨d.elements.size⟩) (name : String) :
    ∃ d', d.addElement id name = some (id, d') ∧ d.GrowsLoop name id d' := by
  obtain ⟨grown, d', hadd, hsize, hgrown, helement⟩ :=
    exists_addElement (Nat.le_of_eq (congrArg ElementId.index h)) name
  rw [← h] at hadd hgrown helement
  refine ⟨d', hadd, h, hsize, ?_, ?_⟩
  · rw [helement, if_pos rfl, hgrown, if_pos rfl]
    rfl
  · intro x hx
    rw [helement, if_neg hx, hgrown, if_neg hx]

/-- Below an id past that one no element can be added. -/
theorem addElement_of_lt_index (h : d.elements.size < id.index) (name : String) : d.addElement id name = none := by
  have hnone :
      (Document.mk (d.elements.push ⟨name, [], some id, []⟩)).modify? id (·.addChild ⟨d.elements.size⟩) = none :=
    modify?_of_le (by rw [Array.size_push]; exact h) _
  simp only [addElement, hnone, Option.bind_eq_bind, Option.bind_none]

theorem addElementWith_of_addElement_eq_none (h : d.addElement id name = none) (attributes : List (String × String)) :
    d.addElementWith id name attributes = none := by
  simp only [addElementWith, h, Option.bind_eq_bind, Option.bind_none]

/-- Setting attributes leaves the links as they are. -/
theorem exists_setAttributes (h : id.index < d.elements.size) (attributes : List (String × String)) :
    ∃ d', d.setAttributes id attributes = some d' ∧ ∀ x, d'.link? x = d.link? x := by
  induction attributes generalizing d with
  | nil => exact ⟨d, rfl, fun _ => rfl⟩
  | cons a rest ih =>
    obtain ⟨changed, hset, hisSet⟩ := setAttribute_of_lt h a.1 a.2
    obtain ⟨d', hrest, hlink⟩ := ih (d := changed) (hisSet.size_eq ▸ h)
    refine ⟨d', ?_, fun x => (hlink x).trans (hisSet.link? x)⟩
    simp only [setAttributes, hset, hrest, Option.bind_eq_bind, Option.bind_some]

/-- A call that adds an element gives it the parent asked for and leaves all other links as they are. -/
theorem link?_of_addElement (h : d.addElement parent name = some (id, d')) :
    parent.index ≤ d.elements.size ∧ id = ⟨d.elements.size⟩ ∧ d'.elements.size = d.elements.size + 1 ∧
      ∀ x, d'.link? x = if x = id then some (some parent) else d.link? x := by
  rcases Nat.lt_trichotomy parent.index d.elements.size with hlt | heq | hgt
  · obtain ⟨new, grown, hadd, hgrows⟩ := addElement_of_lt hlt name
    cases hadd.symm.trans h
    refine ⟨Nat.le_of_lt hlt, hgrows.id_eq, hgrows.size_eq, fun x => ?_⟩
    by_cases hx : x = id
    · rw [if_pos hx, hx, link?, hgrows.element?_new]
      rfl
    · rw [if_neg hx, (hgrows.keepsAt hx).link?]
  · have hparent : parent = ⟨d.elements.size⟩ := by
      rw [← heq]
    obtain ⟨grown, hadd, hloop⟩ := addElement_of_eq hparent name
    cases hadd.symm.trans h
    refine ⟨Nat.le_of_eq heq, hloop.id_eq, hloop.size_eq, fun x => ?_⟩
    by_cases hx : x = id
    · rw [if_pos hx, hx, link?, hloop.element?_new]
      rfl
    · rw [if_neg hx, link?, hloop.element?_eq x hx, link?]
  · rw [addElement_of_lt_index hgt] at h
    cases h

/-! ## Elements that are their own parents -/

/-- Going outwards from `e` meets `e` at every step. -/
structure CirclesAt (d : Document) (e : ElementId) : Prop where
  parent?_eq : d.parent? e = some e
  not_climbs : ∀ line, ¬Climbs d e line
  ancestorsUpTo_eq : ∀ steps, d.ancestorsUpTo steps e = List.replicate steps e

theorem not_climbs_of_link?_self {line : List ElementId} (h : d.link? e = some (some e)) : ¬Climbs d e line := by
  intro hclimbs
  induction hclimbs with
  | top hlink => cases hlink.symm.trans h
  | up hlink _ ih =>
    cases hlink.symm.trans h
    exact ih h

theorem circlesAt_of_link?_self (h : d.link? e = some (some e)) : d.CirclesAt e where
  parent?_eq := by
    rw [parent?_eq, h]
    rfl
  not_climbs _ := not_climbs_of_link?_self h
  ancestorsUpTo_eq steps := by
    have hlt : e.index < d.elements.size := exists_link?_iff.mp ⟨_, h⟩
    have hparent : d.parent? e = some e := by
      rw [parent?_eq, h]
      rfl
    induction steps with
    | zero => rfl
    | succ steps ih => simp only [ancestorsUpTo, if_pos hlt, hparent, ih, List.replicate_succ]

theorem addElement_circlesAt (h : id = ⟨d.elements.size⟩) (name : String) :
    ∃ d', d.addElement id name = some (id, d') ∧ d.GrowsLoop name id d' ∧ d'.CirclesAt id := by
  obtain ⟨d', hadd, hloop⟩ := addElement_of_eq h name
  obtain ⟨-, -, -, hlink⟩ := link?_of_addElement hadd
  exact ⟨d', hadd, hloop, circlesAt_of_link?_self (by rw [hlink, if_pos rfl])⟩

theorem addElementWith_circlesAt (h : id = ⟨d.elements.size⟩) (name : String) (attributes : List (String × String)) :
    ∃ d', d.addElementWith id name attributes = some (id, d') ∧ d'.CirclesAt id := by
  obtain ⟨grown, hadd, hloop⟩ := addElement_of_eq h name
  obtain ⟨-, -, hsize, hlink⟩ := link?_of_addElement hadd
  have hlt : id.index < grown.elements.size := by
    rw [hsize, h]
    exact Nat.lt_succ_self _
  obtain ⟨d', hset, hsame⟩ := exists_setAttributes hlt attributes
  refine ⟨d', ?_, circlesAt_of_link?_self (by rw [hsame, hlink, if_pos rfl])⟩
  simp only [addElementWith, hadd, hset, Option.bind_eq_bind, Option.bind_some, Option.pure_def]

end Document

/-! ## Runs of calls -/

/-- A call that changes a document, at any ids. -/
inductive Edit where
  | add (parent : ElementId) (name : String)
  | addWith (parent : ElementId) (name : String) (attributes : List (String × String))
  | set (id : ElementId) (name value : String)
  | setRoot (name value : String)
  deriving DecidableEq

/-- The parent asked for; none if the call adds no element. -/
def Edit.parent? : Edit → Option ElementId
  | .add parent _ => some parent
  | .addWith parent _ _ => some parent
  | .set _ _ _ => none
  | .setRoot _ _ => none

namespace Draft

variable {d d' : Draft} {id parent : ElementId} {name n v : String} {attributes : List (String × String)} {edit : Edit}
  {edits : List Edit} {parents : List ElementId}

def edit? (d : Draft) : Edit → Option Draft
  | .add parent name => d.add? parent name
  | .addWith parent name attributes => d.addWith? parent name attributes
  | .set id name value => d.set? id name value
  | .setRoot name value => d.set? Document.root name value

/-- None if a call does not return. -/
def run? (d : Draft) (edits : List Edit) : Option Draft := edits.foldlM edit? d

/-- The call number `i` of those that add an element asks for the element that it adds. -/
def AsksForItself (edits : List Edit) (i : Nat) : Prop := (edits.filterMap Edit.parent?)[i]? = some ⟨i + 1⟩

instance (edits : List Edit) (i : Nat) : Decidable (AsksForItself edits i) := inferInstanceAs (Decidable (_ = _))

/-- The elements after the root were added below `parents`, in order. -/
structure Filed (parents : List ElementId) (d : Draft) : Prop where
  size_eq : d.document.elements.size = parents.length + 1
  issued_eq : d.issued = (List.range d.document.elements.size).map ElementId.mk
  link?_eq : ∀ i parent, parents[i]? = some parent → d.document.link? ⟨i + 1⟩ = some (some parent)

theorem Filed.mem_issued_iff (h : d.Filed parents) : id ∈ d.issued ↔ id.index < d.document.elements.size := by
  obtain ⟨i⟩ := id
  simp [h.issued_eq]

theorem filed_ofRoot (name : String) : (ofRoot name).Filed [] := ⟨rfl, rfl, by simp⟩

theorem isSet_of_set? (h : d.set? id n v = some d') : d.document.IsSet id n v d'.document := by
  obtain ⟨changed, hset, hd'⟩ := Option.bind_eq_some_iff.mp h
  cases hd'
  exact Document.isSet_of_setAttribute hset

theorem lt_of_set? (h : d.set? id n v = some d') : id.index < d.document.elements.size := by
  obtain ⟨changed, hset, -⟩ := Option.bind_eq_some_iff.mp h
  exact Document.lt_of_setAttribute hset

theorem Filed.set? (h : d.Filed parents) (hset : d.set? id n v = some d') : d'.Filed parents where
  size_eq := by
    rw [(isSet_of_set? hset).size_eq]
    exact h.size_eq
  issued_eq := by
    rw [issued_set? hset, (isSet_of_set? hset).size_eq]
    exact h.issued_eq
  link?_eq := by
    intro i parent hparent
    rw [(isSet_of_set? hset).link?]
    exact h.link?_eq i parent hparent

theorem link?_of_add? (h : d.add? parent name = some d') :
    parent.index ≤ d.document.elements.size ∧ d'.document.elements.size = d.document.elements.size + 1 ∧
      ∀ x, d'.document.link? x = if x = ⟨d.document.elements.size⟩ then some (some parent) else d.document.link? x := by
  obtain ⟨⟨id, grown⟩, hadd, hd'⟩ := Option.bind_eq_some_iff.mp h
  cases hd'
  obtain ⟨hle, rfl, hsize, hlink⟩ := Document.link?_of_addElement hadd
  exact ⟨hle, hsize, hlink⟩

theorem Filed.add? (h : d.Filed parents) (hadd : d.add? parent name = some d') : d'.Filed (parents ++ [parent]) := by
  obtain ⟨-, hsize, hlink⟩ := link?_of_add? hadd
  refine ⟨?_, ?_, ?_⟩
  · rw [hsize, h.size_eq, List.length_append, List.length_singleton]
  · rw [issued_add? hadd, hsize, List.range_succ, List.map_append, ← h.issued_eq]
    rfl
  · intro i asked hasked
    have hi : i < (parents ++ [parent]).length := (List.getElem?_eq_some_iff.mp hasked).1
    rw [List.length_append, List.length_singleton] at hi
    rw [hlink, h.size_eq]
    by_cases hlast : i = parents.length
    · rw [hlast, List.getElem?_concat_length] at hasked
      rw [if_pos (by rw [hlast]), hasked]
    · rw [List.getElem?_append_left (by omega)] at hasked
      rw [if_neg (by simpa using hlast)]
      exact h.link?_eq i asked hasked

theorem Filed.setAll? (h : d.Filed parents) (hset : d.setAll? id attributes = some d') : d'.Filed parents := by
  induction attributes generalizing d with
  | nil =>
    cases hset
    exact h
  | cons a rest ih =>
    obtain ⟨changed, hchanged, hrest⟩ := Option.bind_eq_some_iff.mp hset
    exact ih (h.set? hchanged) hrest

theorem Filed.edit? (h : d.Filed parents) (hedit : d.edit? edit = some d') :
    d'.Filed (parents ++ edit.parent?.toList) := by
  cases edit with
  | add parent name => exact h.add? hedit
  | addWith parent name attributes =>
    replace hedit : d.addWith? parent name attributes = some d' := hedit
    rw [addWith?_eq] at hedit
    obtain ⟨grown, hgrown, hset⟩ := Option.bind_eq_some_iff.mp hedit
    exact (h.add? hgrown).setAll? hset
  | set id name value =>
    rw [Edit.parent?, Option.toList_none, List.append_nil]
    exact h.set? hedit
  | setRoot name value =>
    rw [Edit.parent?, Option.toList_none, List.append_nil]
    exact h.set? hedit

theorem Filed.run? (h : d.Filed parents) (hrun : d.run? edits = some d') :
    d'.Filed (parents ++ edits.filterMap Edit.parent?) := by
  induction edits generalizing d parents with
  | nil =>
    cases hrun
    rw [List.filterMap_nil, List.append_nil]
    exact h
  | cons edit edits ih =>
    obtain ⟨next, hnext, hrest⟩ := Option.bind_eq_some_iff.mp hrun
    have hfiled := ih (h.edit? hnext) hrest
    rw [List.append_assoc] at hfiled
    have hcons : (edit :: edits).filterMap Edit.parent? = edit.parent?.toList ++ edits.filterMap Edit.parent? := by
      rw [List.filterMap_cons]
      cases edit.parent? <;> rfl
    rw [hcons]
    exact hfiled

/-! ## Runs that leave a tree -/

theorem index_le_of_edit? (hedit : d.edit? edit = some d') (hparent : edit.parent? = some parent) :
    parent.index ≤ d.document.elements.size := by
  cases edit with
  | add asked name =>
    cases hparent
    exact (link?_of_add? hedit).1
  | addWith asked name attributes =>
    cases hparent
    replace hedit : d.addWith? parent name attributes = some d' := hedit
    rw [addWith?_eq] at hedit
    obtain ⟨grown, hgrown, -⟩ := Option.bind_eq_some_iff.mp hedit
    exact (link?_of_add? hgrown).1
  | set id name value => cases hparent
  | setRoot name value => cases hparent

/-- A call that returns and does not ask for the element that it adds has used ids that were given out. -/
theorem Built.edit? (h : d.Built) (hfiled : d.Filed parents) (hedit : d.edit? edit = some d')
    (hself : edit.parent? ≠ some ⟨parents.length + 1⟩) : d'.Built := by
  have hissued : ∀ parent, edit.parent? = some parent → parent ∈ d.issued := by
    intro parent hparent
    have hle := index_le_of_edit? hedit hparent
    have hne : parent.index ≠ d.document.elements.size := by
      intro heq
      rw [hfiled.size_eq] at heq
      exact hself (by rw [hparent, ← heq])
    exact hfiled.mem_issued_iff.mpr (Nat.lt_of_le_of_ne hle hne)
  cases edit with
  | add parent name => exact h.add parent name (hissued parent rfl) hedit
  | addWith parent name attributes => exact h.addWith parent name attributes (hissued parent rfl) hedit
  | set id name value => exact h.set id name value (hfiled.mem_issued_iff.mpr (lt_of_set? hedit)) hedit
  | setRoot name value => exact h.setRoot name value hedit

theorem Built.run? (h : d.Built) (hfiled : d.Filed parents) (hrun : d.run? edits = some d')
    (hself : ∀ i, (parents ++ edits.filterMap Edit.parent?)[i]? = some ⟨i + 1⟩ → i < parents.length) : d'.Built := by
  induction edits generalizing d parents with
  | nil =>
    cases hrun
    exact h
  | cons edit edits ih =>
    obtain ⟨next, hnext, hrest⟩ := Option.bind_eq_some_iff.mp hrun
    have hsplit : parents ++ (edit :: edits).filterMap Edit.parent? =
        parents ++ edit.parent?.toList ++ edits.filterMap Edit.parent? := by
      rw [List.filterMap_cons]
      cases edit.parent? <;> simp
    rw [hsplit] at hself
    have hbuilt : next.Built := by
      refine h.edit? hfiled hnext fun hparent => ?_
      have hlt := hself parents.length (by simp [hparent])
      exact Nat.lt_irrefl _ hlt
    refine ih hbuilt (hfiled.edit? hnext) hrest fun i hi => ?_
    have hlt := hself i hi
    rw [List.length_append]
    omega

/-- Which ids elements can be added below, apart from those of elements, and what comes of it.
- In any document, an id that names no element adds one exactly if it is the id that the new element is given. The
  new element is its own parent then, with or without attributes, and going outwards from it has no end. No attribute
  can be set at such an id.
- What a run of calls leaves, at any ids, is a tree exactly if no call has asked for the element that it adds. Where
  one has, that element is its own parent to the end. -/
theorem parents_foreign (d : Document) (id : ElementId) (name value : String) (attributes : List (String × String))
    (edits : List Edit) :
    (d.element? id = none →
      d.setAttribute id name value = none ∧
      (id ≠ ⟨d.elements.size⟩ → d.addElement id name = none ∧ d.addElementWith id name attributes = none) ∧
      (id = ⟨d.elements.size⟩ →
        (∃ d', d.addElement id name = some (id, d') ∧ d.GrowsLoop name id d' ∧ d'.CirclesAt id) ∧
          ∃ d', d.addElementWith id name attributes = some (id, d') ∧ d'.CirclesAt id)) ∧
    ∀ built, (ofRoot name).run? edits = some built →
      (built.IsTree ↔ ∀ i, ¬AsksForItself edits i) ∧ ∀ i, AsksForItself edits i → built.document.CirclesAt ⟨i + 1⟩ := by
  refine ⟨fun hnone => ?_, fun built hrun => ?_⟩
  · have hle : d.elements.size ≤ id.index := by
      by_contra hlt
      obtain ⟨element, helement⟩ := Document.exists_element?_iff.mpr (Nat.lt_of_not_le hlt)
      cases hnone.symm.trans helement
    refine ⟨Document.modify?_of_le hle _, fun hne => ?_, fun heq => ?_⟩
    · have hlt : d.elements.size < id.index := Nat.lt_of_le_of_ne hle fun heq => hne (by rw [heq])
      have hadd := Document.addElement_of_lt_index hlt name
      exact ⟨hadd, Document.addElementWith_of_addElement_eq_none hadd attributes⟩
    · exact ⟨Document.addElement_circlesAt heq name, Document.addElementWith_circlesAt heq name attributes⟩
  · have hfiled := (filed_ofRoot name).run? hrun
    rw [List.nil_append] at hfiled
    have hcircles : ∀ i, AsksForItself edits i → built.document.CirclesAt ⟨i + 1⟩ := fun i hi =>
      Document.circlesAt_of_link?_self (hfiled.link?_eq i _ hi)
    refine ⟨⟨fun htree i hi => ?_, fun hself => ?_⟩, hcircles⟩
    · have hlink := hfiled.link?_eq i _ hi
      have hissued : ⟨i + 1⟩ ∈ built.issued := hfiled.mem_issued_iff.mpr (Document.exists_link?_iff.mp ⟨_, hlink⟩)
      exact (hcircles i hi).not_climbs _ (htree.climbs _ hissued)
    · refine ((Built.root name).run? (filed_ofRoot name) hrun fun i hi => ?_).isTree
      exact absurd hi (hself i)

/-- A document that is only a root gives out the id 1 next. -/
theorem parents_foreign_next :
    (Document.ofRoot "svg").element? ⟨1⟩ = none ∧ (Document.ofRoot "svg").addElement ⟨2⟩ "svg" = none ∧
      (∃ d', (Document.ofRoot "svg").addElement ⟨1⟩ "g" = some (⟨1⟩, d') ∧ d'.CirclesAt ⟨1⟩) ∧
      ∃ d, (ofRoot "svg").run? [.add ⟨0⟩ "g", .add ⟨2⟩ "path", .set ⟨2⟩ "d" "M0 0", .add ⟨2⟩ "path"] = some d ∧
        ¬d.IsTree ∧ d.document.CirclesAt ⟨2⟩ := by
  obtain ⟨hnext, -⟩ := parents_foreign (.ofRoot "svg") ⟨1⟩ "g" "" [] []
  obtain ⟨-, -, hown⟩ := hnext (by decide)
  obtain ⟨⟨d', hadd, -, hcircles⟩, -⟩ := hown (by decide)
  obtain ⟨hpast, hruns⟩ := parents_foreign (.ofRoot "svg") ⟨2⟩ "svg" "" []
    [.add ⟨0⟩ "g", .add ⟨2⟩ "path", .set ⟨2⟩ "d" "M0 0", .add ⟨2⟩ "path"]
  obtain ⟨-, hbeyond, -⟩ := hpast (by decide)
  obtain ⟨htree, hcircle⟩ := hruns _ rfl
  refine ⟨by decide, (hbeyond (by decide)).1, ⟨d', hadd, hcircles⟩, _, rfl, ?_, hcircle 1 (by decide)⟩
  rw [htree]
  exact fun hself => hself 1 (by decide)

/-- The id 1 names no element of a document that is only a root, and an element can be added below it. -/
theorem added_below_itself :
    (Document.ofRoot "svg").element? ⟨1⟩ = none ∧
      ∃ d', (Document.ofRoot "svg").addElement ⟨1⟩ "g" = some (⟨1⟩, d') ∧ d'.elements.size = 2 ∧
        d'.parent? ⟨1⟩ = some ⟨1⟩ ∧ d'.children ⟨1⟩ = [⟨1⟩] :=
  ⟨by decide, _, rfl, by decide, by decide, by decide⟩

end Draft

end VectorRaster
