/-
  VectorRaster.Proofs.Text.Slices — parts of a text, by byte positions.

  A text is kept as UTF-8, one to four bytes for each character, and a part of it is named by the byte
  it begins at and the byte it ends before. There is such a part only if both lie between characters
  (`slice?`). Positions that are counted off in whole characters do, and the part is then what stands
  between them (`slice?_of_toList_eq`). A search for a character gives such a position
  (`firstByte?_eq_some`).
-/

import Mathlib.Data.String.Basic

namespace VectorRaster.Text

open String (utf8Len)

/-! ## Slices -/

/-- The part of a text between two byte positions; none if one of them is inside a character or past
the end, or if they are the wrong way round. -/
def slice? (text : String) (start stop : Nat) : Option String := do
  let first ← text.pos? ⟨start⟩
  let last ← text.pos? ⟨stop⟩
  let part ← text.slice? first last
  return part.copy

theorem pos?_of_isValid {text : String} {p : String.Pos.Raw} (h : p.IsValid text) :
    text.pos? p = some (text.pos p h) := by
  unfold String.pos? String.Slice.pos?
  rw [dif_pos (String.Pos.Raw.isValidForSlice_eq_true_iff.mpr h.toSlice)]
  rfl

theorem slice?_append (a b c : String) :
    slice? (a ++ b ++ c) a.utf8ByteSize (a.utf8ByteSize + b.utf8ByteSize) = some b := by
  have hfirst : (⟨a.utf8ByteSize⟩ : String.Pos.Raw).IsValid (a ++ b ++ c) :=
    String.Pos.Raw.isValid_iff_exists_append.mpr ⟨a, b ++ c, String.append_assoc, rfl⟩
  have hlast : (⟨a.utf8ByteSize + b.utf8ByteSize⟩ : String.Pos.Raw).IsValid (a ++ b ++ c) := by
    refine String.Pos.Raw.isValid_iff_exists_append.mpr ⟨a ++ b, c, rfl, ?_⟩
    rw [String.rawEndPos, String.utf8ByteSize_append]
  have hle : (a ++ b ++ c).pos _ hfirst ≤ (a ++ b ++ c).pos _ hlast := Nat.le_add_right _ _
  have hpart : ((a ++ b ++ c).slice _ _ hle).copy = b := by
    apply String.toByteArray_inj.mp
    rw [String.toByteArray_copy_slice, String.toByteArray_append, String.toByteArray_append]
    show (a.toByteArray ++ b.toByteArray ++ c.toByteArray).extract a.toByteArray.size
      (a.toByteArray.size + b.toByteArray.size) = b.toByteArray
    rw [← ByteArray.size_append, ByteArray.extract_append_size_left, ByteArray.size_append]
    exact ByteArray.extract_append_eq_right rfl rfl
  simp only [slice?, pos?_of_isValid hfirst, pos?_of_isValid hlast, String.slice?, dif_pos hle, Option.bind_eq_bind,
    Option.bind_some, hpart, Option.pure_def]

/-- Between whole characters, a slice is what stands there. -/
theorem slice?_of_toList_eq {text : String} {before part after : List Char} (h : text.toList = before ++ (part ++ after)) :
    slice? text (utf8Len before) (utf8Len before + utf8Len part) = some (String.ofList part) := by
  have htext : text = String.ofList before ++ String.ofList part ++ String.ofList after := by
    rw [← String.ofList_append, ← String.ofList_append, List.append_assoc, ← h, String.ofList_toList]
  rw [htext, ← String.utf8ByteSize_ofList before, ← String.utf8ByteSize_ofList part, slice?_append]

theorem slice?_to_end {text : String} {before rest : List Char} (h : text.toList = before ++ rest) :
    slice? text (utf8Len before) text.utf8ByteSize = some (String.ofList rest) := by
  have hend : text.toList = before ++ (rest ++ []) := by rw [h, List.append_nil]
  rw [← String.utf8Len_toList, h, String.utf8Len_append]
  exact slice?_of_toList_eq hend

/-! ## Characters and where they begin -/

/-- Characters with the bytes they begin at, if the first one begins at `start`. -/
def indexed (start : Nat) : List Char → List (Nat × Char)
  | [] => []
  | c :: cs => (start, c) :: indexed (start + c.utf8Size) cs

/-- The byte that the first character with a property begins at. -/
def firstByte? (p : Char → Bool) (text : String) : Option Nat := ((indexed 0 text.toList).find? (p ·.2)).map (·.1)

variable {p : Char → Bool}

theorem find?_indexed {before : List Char} (h : ∀ c ∈ before, p c = false) (start : Nat) (cs : List Char) :
    (indexed start (before ++ cs)).find? (p ·.2) = (indexed (start + utf8Len before) cs).find? (p ·.2) := by
  induction before generalizing start with
  | nil => rfl
  | cons d before ih =>
    have hd : p d = false := h d List.mem_cons_self
    have hlen : start + utf8Len (d :: before) = start + d.utf8Size + utf8Len before := by
      rw [String.utf8Len_cons]
      omega
    simp only [List.cons_append, indexed, List.find?_cons, hd, hlen]
    exact ih (fun c hc => h c (List.mem_cons_of_mem d hc)) _

theorem firstByte?_eq_some {before after : List Char} {c : Char} (h : ∀ d ∈ before, p d = false) (hc : p c = true) :
    firstByte? p (String.ofList (before ++ c :: after)) = some (utf8Len before) := by
  simp only [firstByte?, String.toList_ofList, find?_indexed h, indexed, List.find?_cons, hc, Option.map_some, Nat.zero_add]

theorem firstByte?_eq_none {cs : List Char} (h : ∀ d ∈ cs, p d = false) : firstByte? p (String.ofList cs) = none := by
  have hfind := find?_indexed h 0 []
  rw [List.append_nil] at hfind
  rw [firstByte?, String.toList_ofList, hfind]
  rfl

end VectorRaster.Text
