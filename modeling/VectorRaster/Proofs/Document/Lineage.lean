/-
  VectorRaster.Proofs.Document.Lineage — the elements of a document are a tree.

  Parents and children say the same thing twice, and nothing in a document checks that they agree,
  or that going from parent to parent comes to an end. Both hold because a document can only grow:
  a new element is numbered after all others, its parent among them (`Sound`).

  Proved: in every document that is built by calls at ids that it has given out, those ids have
  elements, all but the root with a parent of a smaller number; the children of an element are
  those whose parent it is, in the order they were added; and going outwards from an element,
  without counting steps, ends at the root and is what `ancestors` lists (`Built.isTree`).
-/

import Mathlib.Data.List.Chain
import Mathlib.Data.Nat.Init
import VectorRaster.Proofs.Document.Edits

namespace VectorRaster

/-! ## Going outwards -/

/-- From `e` outwards, from parent to parent, the elements are `line`: each of them is there, and the last
one has no parent. -/
inductive Climbs (d : Document) : ElementId → List ElementId → Prop
  | top {e : ElementId} : d.link? e = some none → Climbs d e [e]
  | up {e p : ElementId} {line : List ElementId} : d.link? e = some (some p) → Climbs d p line → Climbs d e (e :: line)

namespace Climbs

variable {d d' : Document} {e : ElementId} {line line' : List ElementId}

theorem head? (h : Climbs d e line) : line.head? = some e := by
  cases h with
  | top => rfl
  | up => rfl

/-- One way leads outwards. -/
theorem unique (h : Climbs d e line) (h' : Climbs d e line') : line' = line := by
  induction h generalizing line' with
  | top hlink =>
    cases h' with
    | top => rfl
    | up hlink' => cases hlink.symm.trans hlink'
  | up hlink _ ih =>
    cases h' with
    | top hlink' => cases hlink.symm.trans hlink'
    | up hlink' hrest =>
      cases hlink.symm.trans hlink'
      rw [ih hrest]

/-- The way outwards depends on the links of those that are on it. -/
theorem congr (h : Climbs d e line) (hsame : ∀ a ∈ line, d'.link? a = d.link? a) : Climbs d' e line := by
  induction h with
  | top hlink => exact .top ((hsame _ List.mem_cons_self).trans hlink)
  | up hlink _ ih =>
    exact .up ((hsame _ List.mem_cons_self).trans hlink) (ih fun a ha => hsame a (List.mem_cons_of_mem _ ha))

theorem isChain (h : Climbs d e line) : line.IsChain fun a b => d.parent? a = some b := by
  induction h with
  | top => exact List.isChain_singleton _
  | @up e p line hlink hrest ih =>
    have hfirst : d.parent? e = some p := by
      rw [Document.parent?_eq, hlink]
      rfl
    cases hrest with
    | top => exact List.isChain_cons_cons.mpr ⟨hfirst, ih⟩
    | up => exact List.isChain_cons_cons.mpr ⟨hfirst, ih⟩

theorem link?_getLast (h : Climbs d e line) : ∃ top, line.getLast? = some top ∧ d.link? top = some none := by
  induction h with
  | @top e hlink => exact ⟨e, rfl, hlink⟩
  | up _ _ ih =>
    obtain ⟨top, htop, hlink⟩ := ih
    exact ⟨top, by simp [List.getLast?_cons, htop], hlink⟩

theorem lt_size (h : Climbs d e line) : ∀ a ∈ line, a.index < d.elements.size := by
  induction h with
  | top hlink =>
    intro a ha
    rw [List.mem_singleton.mp ha]
    exact Document.exists_link?_iff.mp ⟨_, hlink⟩
  | up hlink _ ih =>
    intro a ha
    rcases List.mem_cons.mp ha with rfl | ha
    · exact Document.exists_link?_iff.mp ⟨_, hlink⟩
    · exact ih a ha

/-- Enough steps take all of the way. -/
theorem ancestorsUpTo_eq (h : Climbs d e line) {steps : Nat} (hsteps : line.length ≤ steps) :
    d.ancestorsUpTo steps e = line := by
  induction h generalizing steps with
  | @top e hlink =>
    obtain ⟨steps, rfl⟩ := Nat.exists_eq_succ_of_ne_zero (Nat.ne_of_gt hsteps)
    have hlt : e.index < d.elements.size := Document.exists_link?_iff.mp ⟨_, hlink⟩
    simp [Document.ancestorsUpTo, hlt, Document.parent?_eq, hlink]
  | @up e p line hlink hrest ih =>
    obtain ⟨steps, rfl⟩ := Nat.exists_eq_succ_of_ne_zero (Nat.ne_zero_of_lt hsteps)
    have hlt : e.index < d.elements.size := Document.exists_link?_iff.mp ⟨_, hlink⟩
    simp [Document.ancestorsUpTo, hlt, Document.parent?_eq, hlink, ih (Nat.le_of_succ_le_succ hsteps)]

end Climbs

/-! ## What every call keeps -/

namespace Draft

variable {d d' : Draft} {e id parent : ElementId} {name value : String}

structure Sound (d : Draft) : Prop where
  nonempty : 0 < d.document.elements.size
  issued_eq : d.issued = (List.range d.document.elements.size).map ElementId.mk
  parent?_root : d.document.parent? Document.root = none
  parent_lt : ∀ e ∈ d.issued, e ≠ Document.root → ∃ p, d.document.parent? e = some p ∧ p.index < e.index
  children_eq : ∀ p, d.document.children p = d.issued.filter fun c => d.document.parent? c = some p
  namesOnce : ∀ e element, d.document.element? e = some element → element.NamesOnce

theorem Sound.mem_issued_iff (h : d.Sound) : e ∈ d.issued ↔ e.index < d.document.elements.size := by
  obtain ⟨i⟩ := e
  simp [h.issued_eq]

theorem sound_ofRoot (name : String) : (ofRoot name).Sound where
  nonempty := Nat.one_pos
  issued_eq := rfl
  parent?_root := rfl
  parent_lt := by
    intro e he hne
    exact absurd (List.mem_singleton.mp he) hne
  children_eq := by
    intro p
    obtain ⟨i⟩ := p
    cases i <;> simp [ofRoot, Document.children, Document.element?, Document.ofRoot, Document.parent?, Document.root]
  namesOnce := by
    intro e element helement
    obtain ⟨i⟩ := e
    cases i with
    | zero =>
      cases helement
      exact List.nodup_nil
    | succ i => simp [ofRoot, Document.element?, Document.ofRoot] at helement

theorem Sound.set? (h : d.Sound) (hid : id ∈ d.issued) (hset : d.set? id name value = some d') : d'.Sound := by
  obtain ⟨changed, hchanged, hisSet⟩ := set?_of_lt (h.mem_issued_iff.mp hid) name value
  cases hchanged.symm.trans hset
  exact {
    nonempty := by
      rw [hisSet.size_eq]
      exact h.nonempty
    issued_eq := by
      rw [hisSet.size_eq]
      exact h.issued_eq
    parent?_root := by
      rw [hisSet.parent?]
      exact h.parent?_root
    parent_lt := by
      intro e he hne
      rw [hisSet.parent?]
      exact h.parent_lt e he hne
    children_eq := by
      intro p
      simp only [hisSet.parent?, hisSet.children]
      exact h.children_eq p
    namesOnce := by
      intro e element helement
      rw [hisSet.element?_eq] at helement
      by_cases he : e = id
      · rw [if_pos he] at helement
        obtain ⟨before, hbefore, rfl⟩ := Option.map_eq_some_iff.mp helement
        exact (h.namesOnce e before hbefore).setAttribute name value
      · rw [if_neg he] at helement
        exact h.namesOnce e element helement }

/-- A new element comes after all others, so nothing that was said of these changes, but for one more child. -/
theorem Sound.add? (h : d.Sound) (hparent : parent ∈ d.issued) (hadd : d.add? parent name = some d') : d'.Sound := by
  have hlt : parent.index < d.document.elements.size := h.mem_issued_iff.mp hparent
  obtain ⟨id, grown, hgrown, hgrows⟩ := add?_of_lt hlt name
  cases hgrown.symm.trans hadd
  have hold : ∀ e ∈ d.issued, e ≠ id := fun e he => hgrows.ne_of_lt (h.mem_issued_iff.mp he)
  exact {
    nonempty := by
      rw [hgrows.size_eq]
      exact Nat.succ_pos _
    issued_eq := by
      rw [hgrows.size_eq, List.range_succ, List.map_append, ← h.issued_eq, hgrows.id_eq]
      rfl
    parent?_root := by
      have hroot : Document.root ≠ id := hgrows.ne_of_lt h.nonempty
      rw [hgrows.parent?, if_neg hroot]
      exact h.parent?_root
    parent_lt := by
      intro e he hne
      rw [hgrows.parent?]
      rcases List.mem_append.mp he with he | he
      · rw [if_neg (hold e he)]
        exact h.parent_lt e he hne
      · rw [if_pos (List.mem_singleton.mp he), List.mem_singleton.mp he]
        exact ⟨parent, rfl, by rw [hgrows.id_eq]; exact hlt⟩
    children_eq := by
      intro p
      have hfilter : (d.issued.filter fun c => grown.parent? c = some p) = d.document.children p := by
        rw [h.children_eq]
        refine List.filter_congr fun c hc => ?_
        rw [hgrows.parent?, if_neg (hold c hc)]
      rw [List.filter_append, hfilter, hgrows.children hlt, List.filter_singleton, hgrows.parent?, if_pos rfl]
      by_cases hp : p = parent
      · simp [hp]
      · simp [hp, Ne.symm hp]
    namesOnce := by
      intro e element helement
      by_cases he : e = id
      · rw [he, hgrows.element?_new] at helement
        cases helement
        exact List.nodup_nil
      · rw [hgrows.element?_eq e he] at helement
        by_cases hp : e = parent
        · rw [if_pos hp] at helement
          obtain ⟨before, hbefore, rfl⟩ := Option.map_eq_some_iff.mp helement
          exact h.namesOnce e before hbefore
        · rw [if_neg hp] at helement
          exact h.namesOnce e element helement }

theorem Built.sound (h : d.Built) : d.Sound :=
  h.induct sound_ofRoot (fun _ _ _ _ _ hd hparent hadd => hd.add? hparent hadd)
    fun _ _ _ _ _ _ hd hid hset => hd.set? hid hset

/-! ## Ways to the root -/

namespace Sound

variable {line : List ElementId}

/-- Outwards the numbers fall, so there is an end, after no more steps than the number says. -/
theorem exists_climbs (h : d.Sound) (he : e ∈ d.issued) :
    ∃ line, Climbs d.document e line ∧ line.length ≤ e.index + 1 := by
  induction hi : e.index using Nat.strong_induction_on generalizing e with
  | _ i ih =>
    obtain ⟨link, hlink⟩ := Document.exists_link?_iff.mpr (h.mem_issued_iff.mp he)
    have hparent : d.document.parent? e = link := by
      rw [Document.parent?_eq, hlink]
      rfl
    by_cases hroot : e = Document.root
    · rw [hroot, h.parent?_root] at hparent
      rw [← hparent] at hlink
      exact ⟨[e], .top hlink, Nat.le_add_left 1 i⟩
    · obtain ⟨p, hp, hlt⟩ := h.parent_lt e he hroot
      rw [hp] at hparent
      rw [← hparent] at hlink
      have hissued : p ∈ d.issued := h.mem_issued_iff.mpr (Nat.lt_trans hlt (h.mem_issued_iff.mp he))
      obtain ⟨line, hline, hlength⟩ := ih p.index (hi ▸ hlt) hissued rfl
      refine ⟨e :: line, .up hlink hline, ?_⟩
      rw [List.length_cons]
      omega

theorem climbs_ancestors (h : d.Sound) (he : e ∈ d.issued) : Climbs d.document e (d.document.ancestors e) := by
  obtain ⟨line, hline, hlength⟩ := h.exists_climbs he
  have hsteps : line.length ≤ d.document.elements.size := Nat.le_trans hlength (h.mem_issued_iff.mp he)
  rw [Document.ancestors, hline.ancestorsUpTo_eq hsteps]
  exact hline

theorem mem_issued_of_climbs (h : d.Sound) (hline : Climbs d.document e line) : ∀ a ∈ line, a ∈ d.issued :=
  fun a ha => h.mem_issued_iff.mpr (hline.lt_size a ha)

theorem parent?_eq_none_iff (h : d.Sound) (he : e ∈ d.issued) : d.document.parent? e = none ↔ e = Document.root := by
  constructor
  · intro hnone
    by_contra hne
    obtain ⟨p, hparent, -⟩ := h.parent_lt e he hne
    cases hnone.symm.trans hparent
  · rintro rfl
    exact h.parent?_root

theorem pairwise_of_climbs (h : d.Sound) (hline : Climbs d.document e line) : line.Pairwise fun a b => b.index < a.index := by
  have htrans : Trans (fun a b : ElementId => b.index < a.index) (fun a b : ElementId => b.index < a.index)
      (fun a b : ElementId => b.index < a.index) := ⟨fun hab hbc => Nat.lt_trans hbc hab⟩
  refine List.isChain_iff_pairwise.mp (hline.isChain.imp_of_mem_imp fun a b ha _ hparent => ?_)
  have hne : a ≠ Document.root := by
    rintro rfl
    cases h.parent?_root.symm.trans hparent
  obtain ⟨p, hp, hlt⟩ := h.parent_lt a (h.mem_issued_of_climbs hline a ha) hne
  cases hp.symm.trans hparent
  exact hlt

theorem getLast?_of_climbs (h : d.Sound) (hline : Climbs d.document e line) : line.getLast? = some Document.root := by
  obtain ⟨top, htop, hlink⟩ := hline.link?_getLast
  have hissued : top ∈ d.issued := h.mem_issued_of_climbs hline top (List.mem_of_getLast? htop)
  have hnone : d.document.parent? top = none := by
    rw [Document.parent?_eq, hlink]
    rfl
  rw [htop, (h.parent?_eq_none_iff hissued).mp hnone]

theorem mem_children_iff (h : d.Sound) {p c : ElementId} : c ∈ d.document.children p ↔ d.document.parent? c = some p := by
  rw [h.children_eq, List.mem_filter, decide_eq_true_iff]
  refine ⟨And.right, fun hparent => ⟨?_, hparent⟩⟩
  obtain ⟨element, helement, -⟩ := Option.bind_eq_some_iff.mp hparent
  exact h.mem_issued_iff.mpr (Document.exists_element?_iff.mp ⟨element, helement⟩)

theorem issued_nodup (h : d.Sound) : d.issued.Nodup := by
  rw [h.issued_eq]
  refine List.Nodup.map (fun a b hab => ?_) List.nodup_range
  cases hab
  rfl

end Sound

/-! ## The tree -/

/-- The ids that a document has given out name the elements of a tree. -/
structure IsTree (d : Draft) : Prop where
  /-- In the order they were given out, each once. -/
  issued_nodup : d.issued.Nodup
  /-- Each id has its element, which every accessor reads, and no other id has one. -/
  exists_element?_iff : ∀ e, (∃ element, d.document.element? e = some element) ↔ e ∈ d.issued
  namesOnce : ∀ e ∈ d.issued, ∃ element, d.document.element? e = some element ∧ element.NamesOnce
  parent?_eq_none_iff : ∀ e ∈ d.issued, d.document.parent? e = none ↔ e = Document.root
  parent_lt : ∀ e ∈ d.issued, ∀ p, d.document.parent? e = some p → p ∈ d.issued ∧ p.index < e.index
  mem_children_iff : ∀ p c, c ∈ d.document.children p ↔ d.document.parent? c = some p
  /-- Children are in the order they were added, each once. -/
  children_sublist : ∀ p, (d.document.children p).Sublist d.issued
  climbs : ∀ e ∈ d.issued, Climbs d.document e (d.document.ancestors e)
  head?_ancestors : ∀ e ∈ d.issued, (d.document.ancestors e).head? = some e
  isChain_ancestors : ∀ e ∈ d.issued, (d.document.ancestors e).IsChain fun a b => d.document.parent? a = some b
  pairwise_ancestors : ∀ e ∈ d.issued, (d.document.ancestors e).Pairwise fun a b => b.index < a.index
  getLast?_ancestors : ∀ e ∈ d.issued, (d.document.ancestors e).getLast? = some Document.root
  mem_issued_of_mem_ancestors : ∀ e ∈ d.issued, ∀ a ∈ d.document.ancestors e, a ∈ d.issued

/-- Whatever elements are added and whatever attributes are set, in any order, the elements are a tree. -/
theorem Built.isTree (h : d.Built) : d.IsTree where
  issued_nodup := h.sound.issued_nodup
  exists_element?_iff := fun _ => Document.exists_element?_iff.trans h.sound.mem_issued_iff.symm
  namesOnce := by
    intro e he
    obtain ⟨element, helement⟩ := Document.exists_element?_iff.mpr (h.sound.mem_issued_iff.mp he)
    exact ⟨element, helement, h.sound.namesOnce e element helement⟩
  parent?_eq_none_iff := fun _ he => h.sound.parent?_eq_none_iff he
  parent_lt := by
    intro e he p hparent
    have hne : e ≠ Document.root := fun heq => by
      rw [(h.sound.parent?_eq_none_iff he).mpr heq] at hparent
      cases hparent
    obtain ⟨p', hp', hlt⟩ := h.sound.parent_lt e he hne
    cases hp'.symm.trans hparent
    exact ⟨h.sound.mem_issued_iff.mpr (Nat.lt_trans hlt (h.sound.mem_issued_iff.mp he)), hlt⟩
  mem_children_iff := fun _ _ => h.sound.mem_children_iff
  children_sublist := by
    intro p
    rw [h.sound.children_eq]
    exact List.filter_sublist
  climbs := fun _ he => h.sound.climbs_ancestors he
  head?_ancestors := fun _ he => (h.sound.climbs_ancestors he).head?
  isChain_ancestors := fun _ he => (h.sound.climbs_ancestors he).isChain
  pairwise_ancestors := fun _ he => h.sound.pairwise_of_climbs (h.sound.climbs_ancestors he)
  getLast?_ancestors := fun _ he => h.sound.getLast?_of_climbs (h.sound.climbs_ancestors he)
  mem_issued_of_mem_ancestors := fun _ he => h.sound.mem_issued_of_climbs (h.sound.climbs_ancestors he)

theorem isTree_grouped : grouped.Built ∧ grouped.IsTree ∧ grouped.document.ancestors ⟨2⟩ = [⟨2⟩, ⟨1⟩, ⟨0⟩] :=
  ⟨built_grouped, built_grouped.isTree, by decide⟩

end Draft

end VectorRaster
