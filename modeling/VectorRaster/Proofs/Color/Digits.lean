/-
  VectorRaster.Proofs.Color.Digits — colours in `#` notation, and reading them by byte positions.

  A colour is spelled by `#` and three or six hexadecimal digits (`Spells`). Two digits write a byte,
  and each of three stands for itself twice. Nothing else is read (`ofHex?_eq_some_iff`), and the short
  form is the long one with each digit doubled (`ofHex?_doubled`).

  A reader can also take its digits from slices of the text, named by bytes, and calculate in bytes.
  `scan?` does; it has no answer if a slice falls inside a character or a byte overflows. It slices only
  where all characters have been found to be digits, which are one byte long, so it has an answer for
  every text, and the same one (`scan?_eq`).

  Main statement: `ofHex?_reads`.
-/

import Mathlib.Data.List.Forall2
import VectorRaster.Proofs.Color.Casing
import VectorRaster.Proofs.Text.Slices

namespace VectorRaster.Color

open String (utf8Len)

/-! ## Digits -/

/-- The hexadecimal digit `c`, small or capital, has the value `v`. -/
def IsDigit (c : Char) (v : Nat) : Prop :=
  "0123456789abcdef".toList[v]? = some c ∨ "0123456789ABCDEF".toList[v]? = some c

instance (c : Char) (v : Nat) : Decidable (IsDigit c v) := inferInstanceAs (Decidable (_ ∨ _))

variable {c c' : Char} {v v' : Nat} {b b' : UInt8} {cs : List Char}

theorem IsDigit.lt (h : IsDigit c v) : v < 16 := by
  rcases h with h | h
  · exact (List.getElem?_eq_some_iff.mp h).1
  · exact (List.getElem?_eq_some_iff.mp h).1

theorem toNat_lt_of_hexDigit? (h : hexDigit? c = some b) : c.toNat < 128 := by
  by_contra hbig
  rw [hexDigit?_eq, if_neg (by omega), if_neg (by omega), if_neg (by omega)] at h
  cases h

theorem hexDigit?_of_isDigit (h : IsDigit c v) : hexDigit? c = some (UInt8.ofNat v) := by
  have hsmall : ∀ v < 16, "0123456789abcdef".toList[v]? >>= hexDigit? = some (UInt8.ofNat v) := by decide +kernel
  have hcapital : ∀ v < 16, "0123456789ABCDEF".toList[v]? >>= hexDigit? = some (UInt8.ofNat v) := by decide +kernel
  have hv := h.lt
  rcases h with hc | hc
  · have hvalue := hsmall v hv
    rwa [hc] at hvalue
  · have hvalue := hcapital v hv
    rwa [hc] at hvalue

theorem isDigit_of_hexDigit? (h : hexDigit? c = some b) : IsDigit c b.toNat := by
  have hascii : ∀ n < 128, (hexDigit? (Char.ofNat n)).all fun b => IsDigit (Char.ofNat n) b.toNat := by decide +kernel
  have hdigit := hascii c.toNat (toNat_lt_of_hexDigit? h)
  rw [Char.ofNat_toNat, h] at hdigit
  exact of_decide_eq_true hdigit

/-- The digit is read as this value. -/
def HasValue (c : Char) (b : UInt8) : Prop := hexDigit? c = some b

theorem mapM_hexDigit?_eq_some_iff {bs : List UInt8} :
    cs.mapM hexDigit? = some bs ↔ List.Forall₂ HasValue cs bs := by
  induction cs generalizing bs with
  | nil => simp [eq_comm]
  | cons c cs ih =>
    simp only [List.mapM_cons, List.forall₂_cons_left_iff, Option.bind_eq_bind, Option.bind_eq_some_iff, ih,
      Option.pure_def, Option.some.injEq]
    constructor
    · intro h
      obtain ⟨b, hb, bs', hbs, rfl⟩ := h
      exact ⟨b, bs', hb, hbs, rfl⟩
    · intro h
      obtain ⟨b, bs', hb, hbs, rfl⟩ := h
      exact ⟨b, hb, bs', hbs, rfl⟩

theorem exists_mapM_hexDigit?_iff : (∃ bs, cs.mapM hexDigit? = some bs) ↔ ∀ c ∈ cs, (hexDigit? c).isSome = true := by
  induction cs with
  | nil => simp
  | cons c cs ih =>
    rw [List.forall_mem_cons, ← ih, Option.isSome_iff_exists]
    simp only [mapM_hexDigit?_eq_some_iff, List.forall₂_cons_left_iff]
    constructor
    · intro h
      obtain ⟨_, b, bs, hb, hbs, rfl⟩ := h
      exact ⟨⟨b, hb⟩, bs, hbs⟩
    · intro h
      obtain ⟨⟨b, hb⟩, bs, hbs⟩ := h
      exact ⟨_, b, bs, hb, hbs, rfl⟩

theorem exists_three_digits {r g b : UInt8} (h : List.Forall₂ HasValue cs [r, g, b]) :
    ∃ c₁ c₂ c₃, cs = [c₁, c₂, c₃] ∧ HasValue c₁ r ∧ HasValue c₂ g ∧ HasValue c₃ b := by
  cases h with
  | cons h₁ h => cases h with
    | cons h₂ h => cases h with
      | cons h₃ h =>
        cases h
        exact ⟨_, _, _, rfl, h₁, h₂, h₃⟩

theorem exists_six_digits {r r' g g' b b' : UInt8} (h : List.Forall₂ HasValue cs [r, r', g, g', b, b']) :
    ∃ c₁ c₂ c₃ c₄ c₅ c₆, cs = [c₁, c₂, c₃, c₄, c₅, c₆] ∧ HasValue c₁ r ∧ HasValue c₂ r' ∧ HasValue c₃ g ∧
      HasValue c₄ g' ∧ HasValue c₅ b ∧ HasValue c₆ b' := by
  cases h with
  | cons h₁ h => cases h with
    | cons h₂ h => cases h with
      | cons h₃ h =>
        obtain ⟨c₄, c₅, c₆, rfl, h₄, h₅, h₆⟩ := exists_three_digits h
        exact ⟨_, _, _, c₄, c₅, c₆, rfl, h₁, h₂, h₃, h₄, h₅, h₆⟩

theorem ofDigits?_eq_none {bs : List UInt8} (hthree : bs.length ≠ 3) (hsix : bs.length ≠ 6) :
    ofDigits? bs = Option.none := by
  unfold ofDigits?
  split
  · exact absurd rfl hthree
  · exact absurd rfl hsix
  · rfl

theorem exists_of_length_six {α : Type} {l : List α} (h : l.length = 6) : ∃ a b c d e f, l = [a, b, c, d, e, f] :=
  match l, h with
  | [a, b, c, d, e, f], _ => ⟨a, b, c, d, e, f, rfl⟩

/-! ## The notation -/

/-- The byte that two digits write. -/
def byteOf (high low : Nat) : UInt8 := .ofNat (16 * high + low)

/-- The text is the colour, in `#` notation. -/
inductive Spells : List Char → Color → Prop where
  | short {c₁ c₂ c₃ : Char} {r g b : Nat} : IsDigit c₁ r → IsDigit c₂ g → IsDigit c₃ b →
    Spells ['#', c₁, c₂, c₃] (ofBytes (byteOf r r) (byteOf g g) (byteOf b b))
  | long {c₁ c₂ c₃ c₄ c₅ c₆ : Char} {r r' g g' b b' : Nat} : IsDigit c₁ r → IsDigit c₂ r' → IsDigit c₃ g →
    IsDigit c₄ g' → IsDigit c₅ b → IsDigit c₆ b' →
    Spells ['#', c₁, c₂, c₃, c₄, c₅, c₆] (ofBytes (byteOf r r') (byteOf g g') (byteOf b b'))

theorem toNat_byteOf (h : v < 16) (h' : v' < 16) : (byteOf v v').toNat = 16 * v + v' :=
  UInt8.toNat_ofNat_of_lt' (show 16 * v + v' < 256 by omega)

theorem byteOf_eq (v v' : Nat) : byteOf v v' = 16 * .ofNat v + .ofNat v' := by
  rw [byteOf, UInt8.ofNat_add, UInt8.ofNat_mul]
  rfl

theorem byteOf_self (v : Nat) : byteOf v v = 17 * .ofNat v := by
  rw [byteOf, ← Nat.succ_mul, UInt8.ofNat_mul]
  rfl

theorem ofHex?_hash (digits : List Char) : ofHex? ('#' :: digits) = digits.mapM hexDigit? >>= ofDigits? := rfl

theorem ofHex?_of_spells {color : Color} (h : Spells cs color) : ofHex? cs = some color := by
  cases h with
  | short h₁ h₂ h₃ =>
    have hdigits := mapM_hexDigit?_eq_some_iff.mpr (.cons (hexDigit?_of_isDigit h₁)
      (.cons (hexDigit?_of_isDigit h₂) (.cons (hexDigit?_of_isDigit h₃) .nil)))
    rw [ofHex?_hash, hdigits, byteOf_self, byteOf_self, byteOf_self]
    rfl
  | long h₁ h₂ h₃ h₄ h₅ h₆ =>
    have hdigits := mapM_hexDigit?_eq_some_iff.mpr (.cons (hexDigit?_of_isDigit h₁) (.cons (hexDigit?_of_isDigit h₂)
      (.cons (hexDigit?_of_isDigit h₃) (.cons (hexDigit?_of_isDigit h₄) (.cons (hexDigit?_of_isDigit h₅)
      (.cons (hexDigit?_of_isDigit h₆) .nil))))))
    rw [ofHex?_hash, hdigits, byteOf_eq, byteOf_eq, byteOf_eq]
    rfl

theorem spells_of_ofDigits? {bs : List UInt8} {color : Color}
    (hdigits : List.Forall₂ HasValue cs bs) (hcolor : ofDigits? bs = some color) :
    Spells ('#' :: cs) color := by
  unfold ofDigits? at hcolor
  split at hcolor
  · rename_i r g b
    cases hcolor
    obtain ⟨c₁, c₂, c₃, rfl, h₁, h₂, h₃⟩ := exists_three_digits hdigits
    have hshort := Spells.short (isDigit_of_hexDigit? h₁) (isDigit_of_hexDigit? h₂) (isDigit_of_hexDigit? h₃)
    simpa only [byteOf_self, UInt8.ofNat_toNat] using hshort
  · rename_i r r' g g' b b'
    cases hcolor
    obtain ⟨c₁, c₂, c₃, c₄, c₅, c₆, rfl, h₁, h₂, h₃, h₄, h₅, h₆⟩ := exists_six_digits hdigits
    have hlong := Spells.long (isDigit_of_hexDigit? h₁) (isDigit_of_hexDigit? h₂) (isDigit_of_hexDigit? h₃)
      (isDigit_of_hexDigit? h₄) (isDigit_of_hexDigit? h₅) (isDigit_of_hexDigit? h₆)
    simpa only [byteOf_eq, UInt8.ofNat_toNat] using hlong
  · cases hcolor

theorem ofHex?_eq_some_iff {color : Color} : ofHex? cs = some color ↔ Spells cs color := by
  refine ⟨fun h => ?_, ofHex?_of_spells⟩
  unfold ofHex? at h
  split at h
  · obtain ⟨bs, hbs, hcolor⟩ := Option.bind_eq_some_iff.mp h
    exact spells_of_ofDigits? (mapM_hexDigit?_eq_some_iff.mp hbs) hcolor
  · cases h

/-- Three digits are read as these digits doubled, in either case. -/
theorem ofHex?_doubled {c₁ c₂ c₃ d₁ d₁' d₂ d₂' d₃ d₃' : Char}
    (h : [d₁, d₁', d₂, d₂', d₃, d₃'].map Char.toLower = [c₁, c₁, c₂, c₂, c₃, c₃].map Char.toLower) :
    ofHex? ['#', c₁, c₂, c₃] = ofHex? ['#', d₁, d₁', d₂, d₂', d₃, d₃'] := by
  have hdoubled : ofHex? ['#', d₁, d₁', d₂, d₂', d₃, d₃'] = ofHex? ['#', c₁, c₁, c₂, c₂, c₃, c₃] := by
    rw [← ofHex?_lower, List.map_cons, h, ← List.map_cons, ofHex?_lower]
  rw [hdoubled, ofHex?_hash, ofHex?_hash]
  cases h₁ : hexDigit? c₁ with
  | none => simp [h₁]
  | some r =>
    cases h₂ : hexDigit? c₂ with
    | none => simp [h₁, h₂]
    | some g =>
      cases h₃ : hexDigit? c₃ with
      | none => simp [h₁, h₂, h₃]
      | some b =>
        have hself : ∀ b : UInt8, 17 * b = 16 * b + b := by
          intro b
          rw [← @UInt8.ofNat_toNat b, ← byteOf_self, byteOf_eq]
        simp [h₁, h₂, h₃, ofDigits?, hself]

/-! ## Reading by byte positions -/

/-- The byte with this value; none if it overflows. -/
def byte? (n : Nat) : Option UInt8 := if n < 256 then some (.ofNat n) else Option.none

/-- The byte that some digits write; none if there are none of them, or others, or if it overflows. -/
def byteOfDigits? (digits : List Char) : Option UInt8 :=
  if digits.isEmpty then Option.none
  else digits.foldlM (fun b c => do byte? (16 * b.toNat + (← hexDigit? c).toNat)) 0

/-- The same, where a plus sign may stand before the digits. -/
def readByte? (text : String) : Option UInt8 :=
  match text.toList with
  | '+' :: digits => byteOfDigits? digits
  | digits => byteOfDigits? digits

/-- The colour of three digits; no answer if a slice falls inside a character or a byte overflows. -/
def scanShort? (digits : String) : Option (Option Color) := do
  let red ← Text.slice? digits 0 1
  let green ← Text.slice? digits 1 2
  let blue ← Text.slice? digits 2 3
  match readByte? red, readByte? green, readByte? blue with
  | some r, some g, some b =>
    return some (ofBytes (← byte? (r.toNat * 17)) (← byte? (g.toNat * 17)) (← byte? (b.toNat * 17)))
  | _, _, _ => return Option.none

/-- The colour of six digits; no answer if a slice falls inside a character. -/
def scanLong? (digits : String) : Option (Option Color) := do
  let red ← Text.slice? digits 0 2
  let green ← Text.slice? digits 2 4
  let blue ← Text.slice? digits 4 6
  match readByte? red, readByte? green, readByte? blue with
  | some r, some g, some b => return some (ofBytes r g b)
  | _, _, _ => return Option.none

/-- The colour of a text; no answer if a slice of it falls inside a character or a byte overflows. -/
def scan? (text : String) : Option (Option Color) :=
  if text.toList.head? = some '#' then do
    let digits ← Text.slice? text 1 text.utf8ByteSize
    if !digits.toList.all fun c => (hexDigit? c).isSome then return Option.none
    else if digits.utf8ByteSize = 6 then scanLong? digits
    else if digits.utf8ByteSize = 3 then scanShort? digits
    else return Option.none
  else return Option.none

/-- A digit is one byte long. -/
theorem utf8Len_digits (h : ∀ c ∈ cs, (hexDigit? c).isSome = true) : utf8Len cs = cs.length := by
  induction cs with
  | nil => rfl
  | cons c cs ih =>
    obtain ⟨b, hb⟩ := Option.isSome_iff_exists.mp (h c List.mem_cons_self)
    have hsize : c.utf8Size = 1 := by
      have hascii := toNat_lt_of_hexDigit? hb
      exact Char.utf8Size_eq_one_iff.mpr (UInt32.le_iff_toNat_le.mpr (Nat.le_of_lt_succ hascii))
    rw [String.utf8Len_cons, ih fun c' hc' => h c' (List.mem_cons_of_mem c hc'), hsize, List.length_cons]

/-- A slice of digits is what stands at these places. -/
theorem slice?_digits {before part after : List Char} (h : ∀ c ∈ before ++ (part ++ after), (hexDigit? c).isSome = true) :
    Text.slice? (.ofList (before ++ (part ++ after))) before.length (before.length + part.length) = some (.ofList part) := by
  have hbefore : utf8Len before = before.length := utf8Len_digits fun c hc => h c (List.mem_append_left _ hc)
  have hpart : utf8Len part = part.length :=
    utf8Len_digits fun c hc => h c (List.mem_append_right _ (List.mem_append_left _ hc))
  rw [← hbefore, ← hpart]
  exact Text.slice?_of_toList_eq String.toList_ofList

theorem toNat_lt_of_digit (h : hexDigit? c = some b) : b.toNat < 16 := (isDigit_of_hexDigit? h).lt

theorem byte?_of_lt {n : Nat} (h : n < 256) : byte? n = some (.ofNat n) := if_pos h

theorem readByte?_of_digit (h : hexDigit? c = some b) (cs : List Char) :
    readByte? (.ofList (c :: cs)) = byteOfDigits? (c :: cs) := by
  rw [readByte?, String.toList_ofList]
  split
  · rename_i digits heq
    cases heq
    cases h.symm.trans (show hexDigit? '+' = Option.none by decide)
  · rfl

theorem readByte?_one (h : hexDigit? c = some b) : readByte? (.ofList [c]) = some b := by
  have hb := toNat_lt_of_digit h
  have hvalue : 16 * (0 : UInt8).toNat + b.toNat = b.toNat := Nat.zero_add _
  rw [readByte?_of_digit h, byteOfDigits?]
  simp only [List.isEmpty_cons, Bool.false_eq_true, if_false, List.foldlM_cons, List.foldlM_nil, h,
    Option.bind_eq_bind, Option.bind_some, hvalue, byte?_of_lt (show b.toNat < 256 by omega), UInt8.ofNat_toNat, Option.pure_def]

theorem readByte?_two (h : hexDigit? c = some b) (h' : hexDigit? c' = some b') :
    readByte? (.ofList [c, c']) = some (16 * b + b') := by
  have hb := toNat_lt_of_digit h
  have hb' := toNat_lt_of_digit h'
  have hvalue : 16 * (0 : UInt8).toNat + b.toNat = b.toNat := Nat.zero_add _
  have hbyte : UInt8.ofNat (16 * b.toNat + b'.toNat) = 16 * b + b' := by
    rw [← byteOf, byteOf_eq, UInt8.ofNat_toNat, UInt8.ofNat_toNat]
  rw [readByte?_of_digit h, byteOfDigits?]
  simp only [List.isEmpty_cons, Bool.false_eq_true, if_false, List.foldlM_cons, List.foldlM_nil, h, h',
    Option.bind_eq_bind, Option.bind_some, hvalue, byte?_of_lt (show b.toNat < 256 by omega),
    byte?_of_lt (show 16 * b.toNat + b'.toNat < 256 by omega), UInt8.ofNat_toNat, hbyte, Option.pure_def]

/-- Seventeen times a digit is no more than the last byte. -/
theorem byte?_mul (h : hexDigit? c = some b) : byte? (b.toNat * 17) = some (17 * b) := by
  have hb := toNat_lt_of_digit h
  rw [byte?_of_lt (by omega), Nat.mul_comm, UInt8.ofNat_mul, UInt8.ofNat_toNat]
  rfl

theorem scanShort?_eq {c₁ c₂ c₃ : Char} {r g b : UInt8} (h₁ : hexDigit? c₁ = some r) (h₂ : hexDigit? c₂ = some g)
    (h₃ : hexDigit? c₃ = some b) : scanShort? (.ofList [c₁, c₂, c₃]) = some (ofDigits? [r, g, b]) := by
  have hall : ∀ c ∈ [c₁, c₂, c₃], (hexDigit? c).isSome = true := by simp [h₁, h₂, h₃]
  have hred : Text.slice? (.ofList [c₁, c₂, c₃]) 0 1 = some (.ofList [c₁]) :=
    @slice?_digits [] [c₁] [c₂, c₃] hall
  have hgreen : Text.slice? (.ofList [c₁, c₂, c₃]) 1 2 = some (.ofList [c₂]) :=
    @slice?_digits [c₁] [c₂] [c₃] hall
  have hblue : Text.slice? (.ofList [c₁, c₂, c₃]) 2 3 = some (.ofList [c₃]) :=
    @slice?_digits [c₁, c₂] [c₃] [] hall
  simp only [scanShort?, hred, hgreen, hblue, Option.bind_eq_bind, Option.bind_some, readByte?_one h₁, readByte?_one h₂,
    readByte?_one h₃, byte?_mul h₁, byte?_mul h₂, byte?_mul h₃, Option.pure_def]
  rfl

theorem scanLong?_eq {c₁ c₂ c₃ c₄ c₅ c₆ : Char} {r r' g g' b b' : UInt8} (h₁ : hexDigit? c₁ = some r)
    (h₂ : hexDigit? c₂ = some r') (h₃ : hexDigit? c₃ = some g) (h₄ : hexDigit? c₄ = some g')
    (h₅ : hexDigit? c₅ = some b) (h₆ : hexDigit? c₆ = some b') :
    scanLong? (.ofList [c₁, c₂, c₃, c₄, c₅, c₆]) = some (ofDigits? [r, r', g, g', b, b']) := by
  have hall : ∀ c ∈ [c₁, c₂, c₃, c₄, c₅, c₆], (hexDigit? c).isSome = true := by simp [h₁, h₂, h₃, h₄, h₅, h₆]
  have hred : Text.slice? (.ofList [c₁, c₂, c₃, c₄, c₅, c₆]) 0 2 = some (.ofList [c₁, c₂]) :=
    @slice?_digits [] [c₁, c₂] [c₃, c₄, c₅, c₆] hall
  have hgreen : Text.slice? (.ofList [c₁, c₂, c₃, c₄, c₅, c₆]) 2 4 = some (.ofList [c₃, c₄]) :=
    @slice?_digits [c₁, c₂] [c₃, c₄] [c₅, c₆] hall
  have hblue : Text.slice? (.ofList [c₁, c₂, c₃, c₄, c₅, c₆]) 4 6 = some (.ofList [c₅, c₆]) :=
    @slice?_digits [c₁, c₂, c₃, c₄] [c₅, c₆] [] hall
  simp only [scanLong?, hred, hgreen, hblue, Option.bind_eq_bind, Option.bind_some, readByte?_two h₁ h₂,
    readByte?_two h₃ h₄, readByte?_two h₅ h₆, Option.pure_def]
  rfl

theorem scan?_hash (text : String) {digits : List Char} (h : text.toList = '#' :: digits) :
    scan? text = some (ofHex? text.toList) := by
  have hslice : Text.slice? text 1 text.utf8ByteSize = some (.ofList digits) := @Text.slice?_to_end text ['#'] digits h
  have hscan : scan? text = if !digits.all fun c => (hexDigit? c).isSome then some Option.none
      else if utf8Len digits = 6 then scanLong? (.ofList digits)
      else if utf8Len digits = 3 then scanShort? (.ofList digits) else some Option.none := by
    simp only [scan?, h, List.head?_cons, if_true, hslice, Option.bind_eq_bind, Option.bind_some, String.toList_ofList,
      String.utf8ByteSize_ofList, Option.pure_def]
  rw [hscan, h, ofHex?_hash]
  cases hdigits : digits.mapM hexDigit? with
  | none =>
    have hall : ¬∀ c ∈ digits, (hexDigit? c).isSome = true := by
      intro hall
      obtain ⟨bs, hbs⟩ := exists_mapM_hexDigit?_iff.mpr hall
      cases hdigits.symm.trans hbs
    rw [eq_false_of_ne_true (mt List.all_eq_true.mp hall)]
    rfl
  | some bs =>
    have hall := exists_mapM_hexDigit?_iff.mp ⟨bs, hdigits⟩
    have hpairs := mapM_hexDigit?_eq_some_iff.mp hdigits
    rw [List.all_eq_true.mpr hall, utf8Len_digits hall, hpairs.length_eq]
    show (if bs.length = 6 then _ else _) = some (ofDigits? bs)
    by_cases hsix : bs.length = 6
    · obtain ⟨r, r', g, g', b, b', rfl⟩ := exists_of_length_six hsix
      obtain ⟨c₁, c₂, c₃, c₄, c₅, c₆, rfl, h₁, h₂, h₃, h₄, h₅, h₆⟩ := exists_six_digits hpairs
      rw [if_pos hsix, scanLong?_eq h₁ h₂ h₃ h₄ h₅ h₆]
    · by_cases hthree : bs.length = 3
      · obtain ⟨r, g, b, rfl⟩ := List.length_eq_three.mp hthree
        obtain ⟨c₁, c₂, c₃, rfl, h₁, h₂, h₃⟩ := exists_three_digits hpairs
        rw [if_neg hsix, if_pos hthree, scanShort?_eq h₁ h₂ h₃]
      · rw [if_neg hsix, if_neg hthree, ofDigits?_eq_none hthree hsix]

/-- A reader that goes by byte positions has an answer for every text, the right one. -/
theorem scan?_eq (text : String) : scan? text = some (ofHex? text.toList) := by
  by_cases hhash : text.toList.head? = some '#'
  · obtain ⟨digits, hdigits⟩ := List.head?_eq_some_iff.mp hhash
    exact scan?_hash text hdigits
  · have hnone : ofHex? text.toList = Option.none := by
      cases htext : text.toList with
      | nil => rfl
      | cons c cs =>
        have hc : c ≠ '#' := by
          rintro rfl
          exact hhash (by rw [htext, List.head?_cons])
        simp [ofHex?, hc]
    rw [scan?, if_neg hhash, hnone]
    rfl

/-- Every text is read without a slice that falls inside a character and without a byte that overflows. A
colour is read from `#` and three or six hexadecimal digits, and from nothing else; it is the opaque colour of
the bytes that the digits write, where each of three digits is written twice. So three digits are read as six in
which each of them is doubled, in either case. -/
theorem ofHex?_reads (text : String) :
    scan? text = some (ofHex? text.toList) ∧
    (∀ color, ofHex? text.toList = some color ↔ Spells text.toList color) ∧
    (∀ c v c' v', IsDigit c v → IsDigit c' v' → (byteOf v v').toNat = 16 * v + v') ∧
    ∀ c₁ c₂ c₃ d₁ d₁' d₂ d₂' d₃ d₃' : Char,
      [d₁, d₁', d₂, d₂', d₃, d₃'].map Char.toLower = [c₁, c₁, c₂, c₂, c₃, c₃].map Char.toLower →
      ofHex? ['#', c₁, c₂, c₃] = ofHex? ['#', d₁, d₁', d₂, d₂', d₃, d₃'] :=
  ⟨scan?_eq text, fun _ => ofHex?_eq_some_iff, fun _ _ _ _ h h' => toNat_byteOf h.lt h'.lt,
    fun _ _ _ _ _ _ _ _ _ => ofHex?_doubled⟩

end VectorRaster.Color
