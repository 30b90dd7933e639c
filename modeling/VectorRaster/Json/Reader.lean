/-
  VectorRaster.Json.Reader — JSON text into values.

  Strict JSON: one value, with blanks around it and nothing else. Each reader takes the
  characters from a position on and gives what it read with the rest. The depth of a
  value is less than the length of its text, which is the fuel of the nested readers.
-/

import VectorRaster.Json.Basic

namespace VectorRaster.Json

/-! ## Blanks and digits -/

def isBlank (c : Char) : Bool := c == ' ' || c == '\n' || c == '\t' || c == '\r'

def skipBlanks (cs : List Char) : List Char := cs.dropWhile isBlank

def digits (cs : List Char) : List Nat := (cs.takeWhile Char.isDigit).map (·.toNat - '0'.toNat)

/-- At least one digit. -/
def digits? (cs : List Char) : Option (List Nat × List Char) :=
  if (digits cs).isEmpty then none else some (digits cs, cs.dropWhile Char.isDigit)

def hexValue? (c : Char) : Option Nat :=
  if c.isDigit then some (c.toNat - '0'.toNat)
  else if 'a' ≤ c && c ≤ 'f' then some (c.toNat - 'a'.toNat + 10)
  else if 'A' ≤ c && c ≤ 'F' then some (c.toNat - 'A'.toNat + 10)
  else none

/-! ## Numbers -/

def whole? (cs : List Char) : Option (List Nat × List Char) := do
  let (ds, rest) ← digits? cs
  if ds.head? == some 0 && 1 < ds.length then none else some (ds, rest)

def fraction? : List Char → Option (Option (List Nat) × List Char)
  | '.' :: cs => (digits? cs).map fun (ds, rest) => (some ds, rest)
  | cs => some (none, cs)

def exponent? : List Char → Option (Option (Bool × List Nat) × List Char)
  | c :: cs =>
    if c == 'e' || c == 'E' then
      let (negative, cs) := match cs with
        | '-' :: cs => (true, cs)
        | '+' :: cs => (false, cs)
        | cs => (false, cs)
      (digits? cs).map fun (ds, rest) => (some (negative, ds), rest)
    else some (none, c :: cs)
  | [] => some (none, [])

def number? (cs : List Char) : Option (Number × List Char) := do
  let (negative, cs) := match cs with
    | '-' :: cs => (true, cs)
    | cs => (false, cs)
  let (whole, cs) ← whole? cs
  let (fraction, cs) ← fraction? cs
  let (exponent, cs) ← exponent? cs
  return (.ofWritten { negative, whole, fraction, exponent }, cs)

/-! ## Texts -/

/-- The character after a backslash, for the escapes of one letter. -/
def simpleEscape? : Char → Option Nat
  | '"' => some 0x22
  | '\\' => some 0x5C
  | '/' => some 0x2F
  | 'b' => some 0x08
  | 'f' => some 0x0C
  | 'n' => some 0x0A
  | 'r' => some 0x0D
  | 't' => some 0x09
  | _ => none

/-- The codes of a text up to its closing quote; an escape may give half a surrogate pair. -/
def codes? : List Char → Option (List Nat × List Char)
  | [] => none
  | '"' :: rest => some ([], rest)
  | '\\' :: 'u' :: a :: b :: c :: d :: cs => do
    let code := 4096 * (← hexValue? a) + 256 * (← hexValue? b) + 16 * (← hexValue? c) + (← hexValue? d)
    let (codes, rest) ← codes? cs
    return (code :: codes, rest)
  | '\\' :: c :: cs => do
    let code ← simpleEscape? c
    let (codes, rest) ← codes? cs
    return (code :: codes, rest)
  | c :: cs =>
    if c.toNat < 0x20 then none
    else do
      let (codes, rest) ← codes? cs
      return (c.toNat :: codes, rest)

def isHigh (code : Nat) : Bool := 0xD800 ≤ code && code < 0xDC00

def isLow (code : Nat) : Bool := 0xDC00 ≤ code && code < 0xE000

/-- The characters of some codes, with surrogate pairs put together. -/
def characters? : List Nat → Option (List Char)
  | [] => some []
  | [code] => if isHigh code || isLow code then none else some [Char.ofNat code]
  | high :: low :: codes =>
    if isHigh high && isLow low then do
      return Char.ofNat (0x10000 + 1024 * (high - 0xD800) + (low - 0xDC00)) :: (← characters? codes)
    else if isHigh high || isLow high then none
    else do return Char.ofNat high :: (← characters? (low :: codes))

def text? (cs : List Char) : Option (Option String × List Char) := do
  let (codes, rest) ← codes? cs
  return ((characters? codes).map String.ofList, rest)

/-! ## Values -/

mutual

def value? : Nat → List Char → Option (Json × List Char)
  | 0, _ => none
  | fuel + 1, cs =>
    match skipBlanks cs with
    | 'n' :: 'u' :: 'l' :: 'l' :: rest => some (.null, rest)
    | 't' :: 'r' :: 'u' :: 'e' :: rest => some (.bool true, rest)
    | 'f' :: 'a' :: 'l' :: 's' :: 'e' :: rest => some (.bool false, rest)
    | '"' :: rest => do
      let (text, rest) ← text? rest
      return (.string text, rest)
    | '[' :: rest =>
      match skipBlanks rest with
      | ']' :: rest => some (.array [], rest)
      | rest => do
        let (items, rest) ← items? fuel rest
        return (.array items, rest)
    | '{' :: rest =>
      match skipBlanks rest with
      | '}' :: rest => some (.object [], rest)
      | rest => do
        let (fields, rest) ← fields? fuel rest
        return (.object fields, rest)
    | cs => do
      let (n, rest) ← number? cs
      return (.number n, rest)

/-- Values up to the end of their array. -/
def items? : Nat → List Char → Option (List Json × List Char)
  | 0, _ => none
  | fuel + 1, cs => do
    let (item, rest) ← value? fuel cs
    match skipBlanks rest with
    | ']' :: rest => return ([item], rest)
    | ',' :: rest =>
      let (items, rest) ← items? fuel rest
      return (item :: items, rest)
    | _ => none

/-- Named values up to the end of their object. -/
def fields? : Nat → List Char → Option (List (Option String × Json) × List Char)
  | 0, _ => none
  | fuel + 1, cs =>
    match skipBlanks cs with
    | '"' :: rest => do
      let (name, rest) ← text? rest
      match skipBlanks rest with
      | ':' :: rest =>
        let (item, rest) ← value? fuel rest
        match skipBlanks rest with
        | '}' :: rest => return ([(name, item)], rest)
        | ',' :: rest =>
          let (fields, rest) ← fields? fuel rest
          return ((name, item) :: fields, rest)
        | _ => none
      | _ => none
    | _ => none

end

/-- The value of a text that is one JSON value. -/
def parse? (text : String) : Option Json := do
  let cs := text.toList
  let (j, rest) ← value? (cs.length + 1) cs
  if (skipBlanks rest).isEmpty then some j else none

end VectorRaster.Json
