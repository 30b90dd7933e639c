/-
  VectorRaster.Proofs.Document.Inheritance — what an element inherits.

  Reading an attribute gives what it was set to last (`Built.attribute?_eq_some_iff`), and inheriting one
  gives that of the nearest element, going outwards, on which it was ever set.

  Proved, for documents that are built by calls at ids that they have given out (`Built.inherits`): adding
  elements changes nothing for those that are there; setting an attribute shows at an element only
  where it is on the way outwards and nothing nearer sets the same one. Both need that the way outwards
  stays as it is (`ancestors_eq_of_link?_eq`). Colours and styles are read off what is set on that way.
-/

import VectorRaster.Document.Style
import VectorRaster.Proofs.Document.Lineage

namespace VectorRaster

/-! ## What was set last -/

/-- The setting is of the attribute `n` of `x`. -/
def Setting.Sets (s : Setting) (x : ElementId) (n : String) : Prop := s.element = x ∧ s.name = n

/-- The attribute `n` of `x` was set to `v`, and not set again. -/
def SetLast (settings : List Setting) (x : ElementId) (n v : String) : Prop :=
  ∃ before after, settings = before ++ ⟨x, n, v⟩ :: after ∧ ∀ s ∈ after, ¬s.Sets x n

section
variable {settings : List Setting} {x y : ElementId} {m n v w : String}

theorem setLast_concat_of_sets : SetLast (settings ++ [⟨x, n, w⟩]) x n v ↔ v = w := by
  constructor
  · rintro ⟨before, after, hsplit, hafter⟩
    rcases List.eq_nil_or_concat after with rfl | ⟨after, s, rfl⟩
    · cases (List.append_inj' hsplit rfl).2
      rfl
    · have hlast : (⟨x, n, w⟩ : Setting) = s := by
        rw [List.concat_eq_append, ← List.cons_append, ← List.append_assoc] at hsplit
        cases (List.append_inj' hsplit rfl).2
        rfl
      exact absurd ⟨rfl, rfl⟩ (hlast ▸ hafter s (by simp))
  · rintro rfl
    exact ⟨settings, [], rfl, fun _ hs => nomatch hs⟩

theorem setLast_concat_of_not_sets {s : Setting} (hs : ¬s.Sets x n) :
    SetLast (settings ++ [s]) x n v ↔ SetLast settings x n v := by
  constructor
  · rintro ⟨before, after, hsplit, hafter⟩
    rcases List.eq_nil_or_concat after with rfl | ⟨after, s', rfl⟩
    · cases (List.append_inj' hsplit rfl).2
      exact absurd ⟨rfl, rfl⟩ hs
    · rw [List.concat_eq_append, ← List.cons_append, ← List.append_assoc] at hsplit
      exact ⟨before, after, (List.append_inj' hsplit rfl).1, fun t ht => hafter t (by simp [ht])⟩
  · rintro ⟨before, after, rfl, hafter⟩
    refine ⟨before, after ++ [s], by simp, fun t ht => ?_⟩
    rcases List.mem_append.mp ht with ht | ht
    · exact hafter t ht
    · rw [List.mem_singleton.mp ht]
      exact hs

/-- What was set at all was set to something last. -/
theorem exists_setLast_iff : (∃ v, SetLast settings x n v) ↔ ∃ s ∈ settings, s.Sets x n := by
  constructor
  · rintro ⟨v, before, after, rfl, -⟩
    exact ⟨⟨x, n, v⟩, by simp, rfl, rfl⟩
  · rintro ⟨s, hs, hsets⟩
    induction settings using List.reverseRecOn with
    | nil => cases hs
    | append_singleton settings t ih =>
      by_cases ht : t.Sets x n
      · obtain ⟨e, m, w⟩ := t
        obtain ⟨rfl, rfl⟩ := ht
        exact ⟨w, setLast_concat_of_sets.mpr rfl⟩
      · rcases List.mem_append.mp hs with hs | hs
        · obtain ⟨v, hv⟩ := ih hs
          exact ⟨v, (setLast_concat_of_not_sets ht).mpr hv⟩
        · rw [List.mem_singleton.mp hs] at hsets
          exact absurd hsets ht

end

/-! ## Reading -/

namespace Draft

variable {d d' : Draft} {e x id parent : ElementId} {name value m n v : String} {attributes : List (String × String)}

/-- An attribute reads as what it was set to last. -/
theorem Built.attribute?_eq_some_iff (h : d.Built) :
    ∀ x n v, d.document.attribute? x n = some v ↔ SetLast d.settings x n v := by
  refine h.induct (P := fun d => ∀ x n v, d.document.attribute? x n = some v ↔ SetLast d.settings x n v) ?_ ?_ ?_
  · intro name x n v
    have hnone : (ofRoot name).document.attribute? x n = none := by
      obtain ⟨i⟩ := x
      cases i <;> simp [ofRoot, Document.ofRoot, Document.attribute?, Document.element?, Element.attribute?]
    have hempty : ¬SetLast (ofRoot name).settings x n v := by
      rintro ⟨before, after, hsplit, -⟩
      cases before <;> cases hsplit
    simp [hnone, hempty]
  · intro d parent name d' hbuilt ih hparent hadd x n v
    obtain ⟨id, grown, hgrown, hgrows⟩ := add?_of_lt (hbuilt.sound.mem_issued_iff.mp hparent) name
    cases hgrown.symm.trans hadd
    rw [hgrows.attribute?]
    exact ih x n v
  · intro d id name value d' hbuilt ih hid hset x n v
    have hlt : id.index < d.document.elements.size := hbuilt.sound.mem_issued_iff.mp hid
    obtain ⟨changed, hchanged, hisSet⟩ := set?_of_lt hlt name value
    cases hchanged.symm.trans hset
    rw [hisSet.attribute? hlt]
    by_cases hsets : x = id ∧ n = name
    · obtain ⟨rfl, rfl⟩ := hsets
      rw [if_pos ⟨rfl, rfl⟩, setLast_concat_of_sets, Option.some.injEq]
      exact eq_comm
    · rw [if_neg hsets, setLast_concat_of_not_sets fun hs => hsets ⟨hs.1.symm, hs.2.symm⟩]
      exact ih x n v

theorem Built.attribute?_eq_none_iff (h : d.Built) : d.document.attribute? x n = none ↔ ∀ s ∈ d.settings, ¬s.Sets x n := by
  rw [Option.eq_none_iff_forall_ne_some]
  simp only [ne_eq, h.attribute?_eq_some_iff]
  rw [← not_exists, exists_setLast_iff]
  simp

end Draft

/-! ## What an element sees outwards -/

namespace Document

variable {d d' : Document} {e e' x : ElementId} {m n v : String}

/-- An element is what it was, apart from its children, and inherits what it did. -/
structure Unchanged (d d' : Document) (e : ElementId) : Prop where
  name : d'.name e = d.name e
  attributes : (d'.element? e).map (·.attributes) = (d.element? e).map (·.attributes)
  parent? : d'.parent? e = d.parent? e
  ancestors : d'.ancestors e = d.ancestors e
  inherited? : ∀ n, d'.inherited? e n = d.inherited? e n

/-- Going outwards from `e`, nothing sets `m` before `x` comes. -/
def Uncovered (d : Document) (e x : ElementId) (m : String) : Prop :=
  ∃ near far, d.ancestors e = near ++ x :: far ∧ ∀ y ∈ near, d.attribute? y m = none

/-- What `e` and the elements around it set, inside out. -/
def chain (d : Document) (e : ElementId) : List (String → Option String) := (d.ancestors e).map d.attribute?

theorem inherited?_eq_chain (d : Document) (e : ElementId) (n : String) :
    d.inherited? e n = (d.chain e).findSome? (· n) := by
  rw [chain, List.findSome?_map]
  rfl

theorem inherited?_set_of_uncovered (h : d.Uncovered e x m) (hline : d'.ancestors e = d.ancestors e)
    (hset : ∀ y, d'.attribute? y m = if y = x then some v else d.attribute? y m) : d'.inherited? e m = some v := by
  obtain ⟨near, far, hsplit, hnear⟩ := h
  rw [inherited?, hline, hsplit]
  clear hsplit
  induction near with
  | nil => simp [hset]
  | cons y near ih =>
    rw [List.cons_append, List.findSome?_cons, hset, hnear y List.mem_cons_self]
    by_cases hy : y = x
    · rw [if_pos hy]
    · rw [if_neg hy]
      exact ih fun z hz => hnear z (List.mem_cons_of_mem _ hz)

theorem inherited?_set_of_covered (h : ¬d.Uncovered e x m) (hline : d'.ancestors e = d.ancestors e)
    (hset : ∀ y, d'.attribute? y m = if y = x then some v else d.attribute? y m) :
    d'.inherited? e m = d.inherited? e m := by
  have hcovered : ∀ near far, d.ancestors e = near ++ x :: far → ∃ y ∈ near, d.attribute? y m ≠ none := by
    intro near far hsplit
    by_contra hnear
    exact h ⟨near, far, hsplit, fun y hy => by_contra fun hy' => hnear ⟨y, hy, hy'⟩⟩
  rw [inherited?, inherited?, hline]
  generalize d.ancestors e = line at hcovered
  clear hline
  induction line with
  | nil => rfl
  | cons y line ih =>
    have hy : y ≠ x := by
      rintro rfl
      obtain ⟨z, hz, -⟩ := hcovered [] line rfl
      cases hz
    rw [List.findSome?_cons, List.findSome?_cons, hset, if_neg hy]
    cases hvalue : d.attribute? y m with
    | some w => rfl
    | none =>
      refine ih fun near far hsplit => ?_
      obtain ⟨z, hz, hsets⟩ := hcovered (y :: near) far (by rw [hsplit, List.cons_append])
      rcases List.mem_cons.mp hz with rfl | hz
      · exact absurd hvalue hsets
      · exact ⟨z, hz, hsets⟩

end Document

namespace Style

variable {d d' : Document} {e e' : ElementId}

theorem currentColor?_eq_chain (d : Document) (e : ElementId) :
    currentColor? d e = ((d.chain e).filterMap (· "color")).find? (!isCurrentColor ·) := by
  rw [Document.chain, List.filterMap_map]
  rfl

/-- A colour is read off what is set on the way outwards. -/
theorem resolveColor_congr (h : d'.chain e' = d.chain e) (property : String) (default : Color) :
    resolveColor d' e' property default = resolveColor d e property default := by
  simp only [resolveColor, Document.inherited?_eq_chain, currentColor?_eq_chain, h]

theorem ofElement_congr (h : d'.chain e' = d.chain e) (referenceLength : Float) (defaults : StyleDefaults) :
    ofElement d' e' referenceLength defaults = ofElement d e referenceLength defaults := by
  simp only [ofElement, Document.inherited?_eq_chain, resolveColor_congr h, h]

end Style

/-! ## Calls -/

namespace Draft

variable {d d' : Draft} {e x parent : ElementId} {name m n v : String}

/-- Where links are kept, the way outwards is kept. -/
theorem ancestors_eq_of_link?_eq (h : d.Sound) (h' : d'.Sound) (he : e ∈ d.issued)
    (hlink : ∀ x ∈ d.issued, d'.document.link? x = d.document.link? x) :
    d'.document.ancestors e = d.document.ancestors e := by
  have hline := h.climbs_ancestors he
  have hline' : Climbs d'.document e (d.document.ancestors e) :=
    hline.congr fun a ha => hlink a (h.mem_issued_of_climbs hline a ha)
  have he' : e ∈ d'.issued := h'.mem_issued_iff.mpr (hline'.lt_size e (List.mem_of_head? hline'.head?))
  exact hline'.unique (h'.climbs_ancestors he')

theorem unchanged_of_keepsAt (h : d.Sound) (h' : d'.Sound) (he : e ∈ d.issued)
    (hkeeps : ∀ x ∈ d.issued, d.document.KeepsAt d'.document x) : d.document.Unchanged d'.document e := by
  have hline : d'.document.ancestors e = d.document.ancestors e :=
    ancestors_eq_of_link?_eq h h' he fun x hx => (hkeeps x hx).link?
  refine ⟨(hkeeps e he).name_eq, (hkeeps e he).map_element? fun _ => rfl, (hkeeps e he).parent?, hline, fun n => ?_⟩
  have hissued := h.mem_issued_of_climbs (h.climbs_ancestors he)
  have hchain : d'.document.chain e = d.document.chain e := by
    rw [Document.chain, hline, Document.chain]
    exact List.map_congr_left fun x hx => funext fun n => (hkeeps x (hissued x hx)).attribute? n
  rw [Document.inherited?_eq_chain, hchain, Document.inherited?_eq_chain]

theorem Built.exists_addElement_unchanged (h : d.Built) (he : e ∈ d.issued) (hparent : parent ∈ d.issued) (name : String) :
    ∃ id grown, d.document.addElement parent name = some (id, grown) ∧ d.document.Unchanged grown e := by
  obtain ⟨id, grown, hadd, hgrows⟩ := Document.addElement_of_lt (h.sound.mem_issued_iff.mp hparent) name
  have hadd' : d.add? parent name = some ⟨grown, d.issued ++ [id], d.settings⟩ := by simp [add?, hadd]
  refine ⟨id, grown, hadd, unchanged_of_keepsAt h.sound (h.add parent name hparent hadd').sound he fun x hx => ?_⟩
  exact hgrows.keepsAt (hgrows.ne_of_lt (h.sound.mem_issued_iff.mp hx))

theorem Built.exists_addElementWith_unchanged (h : d.Built) (he : e ∈ d.issued) (hparent : parent ∈ d.issued) (name : String)
    (attributes : List (String × String)) :
    ∃ id grown, d.document.addElementWith parent name attributes = some (id, grown) ∧ d.document.Unchanged grown e := by
  obtain ⟨d', hadd, hkeeps⟩ := addWith?_of_lt (h.sound.mem_issued_iff.mp hparent) name attributes
  have hsound : d'.Sound := (h.addWith parent name attributes hparent hadd).sound
  obtain ⟨⟨id, grown⟩, hgrown, hd'⟩ := Option.bind_eq_some_iff.mp hadd
  cases hd'
  exact ⟨id, grown, hgrown, unchanged_of_keepsAt h.sound hsound he fun x hx => hkeeps x (h.sound.mem_issued_iff.mp hx)⟩

/-- A set attribute shows where nothing nearer sets it, and nothing else changes. -/
theorem Built.exists_setAttribute_inherited (h : d.Built) (he : e ∈ d.issued) (hx : x ∈ d.issued) (m v : String) :
    ∃ changed, d.document.setAttribute x m v = some changed ∧ changed.ancestors e = d.document.ancestors e ∧
      ∀ n, (n = m ∧ d.document.Uncovered e x m → changed.inherited? e n = some v) ∧
        (¬(n = m ∧ d.document.Uncovered e x m) → changed.inherited? e n = d.document.inherited? e n) := by
  have hlt : x.index < d.document.elements.size := h.sound.mem_issued_iff.mp hx
  obtain ⟨changed, hset, hisSet⟩ := Document.setAttribute_of_lt hlt m v
  have hset' : d.set? x m v = some ⟨changed, d.issued, d.settings ++ [⟨x, m, v⟩]⟩ := by simp [set?, hset]
  have hline : changed.ancestors e = d.document.ancestors e :=
    ancestors_eq_of_link?_eq h.sound (h.set x m v hx hset').sound he fun y _ => hisSet.link? y
  have hm : ∀ y, changed.attribute? y m = if y = x then some v else d.document.attribute? y m := by
    intro y
    simp [hisSet.attribute? hlt]
  refine ⟨changed, hset, hline, fun n => ⟨?_, fun hnot => ?_⟩⟩
  · rintro ⟨rfl, huncovered⟩
    exact Document.inherited?_set_of_uncovered huncovered hline hm
  · by_cases hn : n = m
    · subst hn
      exact Document.inherited?_set_of_covered (fun huncovered => hnot ⟨rfl, huncovered⟩) hline hm
    · have hattribute : (changed.attribute? · n) = (d.document.attribute? · n) := by
        funext y
        simp [hisSet.attribute? hlt, hn]
      rw [Document.inherited?, hline, hattribute, Document.inherited?]

/-- What the element `e` of a draft inherits, and which calls change that. -/
structure Inherits (d : Draft) (e : ElementId) : Prop where
  /-- The value set last on the nearest element where the attribute was ever set. -/
  inherited?_eq_some_iff : ∀ n v, d.document.inherited? e n = some v ↔ ∃ near x far,
    d.document.ancestors e = near ++ x :: far ∧ SetLast d.settings x n v ∧ ∀ y ∈ near, ∀ s ∈ d.settings, ¬s.Sets y n
  inherited?_eq_none_iff : ∀ n, d.document.inherited? e n = none ↔
    ∀ x ∈ d.document.ancestors e, ∀ s ∈ d.settings, ¬s.Sets x n
  addElement : ∀ parent ∈ d.issued, ∀ name, ∃ id grown,
    d.document.addElement parent name = some (id, grown) ∧ d.document.Unchanged grown e
  addElementWith : ∀ parent ∈ d.issued, ∀ name attributes, ∃ id grown,
    d.document.addElementWith parent name attributes = some (id, grown) ∧ d.document.Unchanged grown e
  setAttribute : ∀ x ∈ d.issued, ∀ m v, ∃ changed, d.document.setAttribute x m v = some changed ∧
    changed.ancestors e = d.document.ancestors e ∧
    ∀ n, (n = m ∧ d.document.Uncovered e x m → changed.inherited? e n = some v) ∧
      (¬(n = m ∧ d.document.Uncovered e x m) → changed.inherited? e n = d.document.inherited? e n)
  resolveColor : ∀ (d' : Document) e', d'.chain e' = d.document.chain e → ∀ property default,
    Style.resolveColor d' e' property default = Style.resolveColor d.document e property default
  ofElement : ∀ (d' : Document) e', d'.chain e' = d.document.chain e → ∀ referenceLength defaults,
    Style.ofElement d' e' referenceLength defaults = Style.ofElement d.document e referenceLength defaults

/-- Attributes are looked up outwards, whatever was built in whatever order. -/
theorem Built.inherits (h : d.Built) (he : e ∈ d.issued) : d.Inherits e where
  inherited?_eq_some_iff := by
    intro n v
    rw [Document.inherited?, List.findSome?_eq_some_iff]
    simp only [h.attribute?_eq_some_iff, h.attribute?_eq_none_iff]
  inherited?_eq_none_iff := by
    intro n
    rw [Document.inherited?, List.findSome?_eq_none_iff]
    simp only [h.attribute?_eq_none_iff]
  addElement := fun _ hparent name => h.exists_addElement_unchanged he hparent name
  addElementWith := fun _ hparent name attributes => h.exists_addElementWith_unchanged he hparent name attributes
  setAttribute := fun _ hx m v => h.exists_setAttribute_inherited he hx m v
  resolveColor := fun _ _ hchain property default => Style.resolveColor_congr hchain property default
  ofElement := fun _ _ hchain referenceLength defaults => Style.ofElement_congr hchain referenceLength defaults

theorem inherits_grouped : grouped.Built ∧ ⟨2⟩ ∈ grouped.issued ∧ grouped.Inherits ⟨2⟩ ∧
    grouped.document.inherited? ⟨2⟩ "fill" = some "lime" ∧ grouped.document.inherited? ⟨3⟩ "fill" = some "red" :=
  ⟨built_grouped, by decide, built_grouped.inherits (by decide), by decide, by decide⟩

end Draft

end VectorRaster
