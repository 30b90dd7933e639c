/-
  VectorRaster.Path.Parse — tokens into commands.

  The reader goes through the tokens once and keeps where it is in the current command. A
  letter starts a command; numbers fill it up; a further number starts the same command
  again. Every error is found at the first token that no continuation can mend, except a
  command that the end of the data cuts short.
-/

import VectorRaster.Numeric.Numeral
import VectorRaster.Path.Command
import VectorRaster.Path.Token

namespace VectorRaster.Path

open Numeric

/-- Where the reader is. -/
inductive Progress where
  /-- Nothing has been read. -/
  | start
  /-- The last command has all its parameters. -/
  | complete (header : Header)
  /-- The parameters found so far are fewer than the command has. -/
  | partway (header : Header) (found : List Float)

namespace Progress

/-- Goes on with the parameters `found`, and hands over the command once it has all of them. -/
def filled (header : Header) (found : List Float) : Progress × Option Command :=
  if found.length < header.kind.arity then (partway header found, none)
  else (complete header, some ⟨header, found⟩)

def cutShort (header : Header) (found : List Float) : PathError :=
  .missingParameters header.letter header.kind.arity found.length

def number (text : String) : Except PathError Float :=
  match finiteFloat? text.toList with
  | some x => .ok x
  | none => .error (.badNumber text)

/-- A letter that starts a command. -/
def begin (first : Bool) (letter : Char) : Except PathError (Progress × Option Command) :=
  match Header.ofLetter? letter with
  | none => .error (.unknownCommand letter)
  | some header =>
    if first && header.kind ≠ .moveTo then .error (.missingMoveTo letter) else .ok (filled header [])

/-- One token: the next progress, and the command that the token completes, if any. -/
def read : Progress → Token → Except PathError (Progress × Option Command)
  | start, .command letter => begin true letter
  | start, .number _ => .error .noActiveCommand
  | complete _, .command letter => begin false letter
  | complete header, .number text =>
    if header.kind.arity = 0 then .error .noActiveCommand
    else do return filled header [← number text]
  | partway header found, .command _ => .error (cutShort header found)
  | partway header found, .number text => do return filled header (found ++ [← number text])

/-- What the end of the data means. -/
def finish : Progress → Except PathError Unit
  | start => .ok ()
  | complete _ => .ok ()
  | partway header found => .error (cutShort header found)

/-- The commands that the tokens complete, from this progress on. -/
def commands (p : Progress) : List Token → Except PathError (List Command)
  | [] => do
    p.finish
    return []
  | t :: ts => do
    let (next, done) ← p.read t
    return done.toList ++ (← next.commands ts)

end Progress

/-- The commands of a list of tokens; the first must be a move. -/
def ofTokens (tokens : List Token) : Except PathError (List Command) := Progress.start.commands tokens

/-- The commands of path data. -/
def parse (text : String) : Except PathError (List Command) := ofTokens (Token.ofString text)

end VectorRaster.Path
