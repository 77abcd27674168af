/-
Statements that steer the run.

Two statements are obeyed instead of being written out: `include "FILE"`, and
`c_line N[, "FILE"]`, which gives the place in the generating program.
-/
import AsmPrep.Text.Lexeme
import AsmPrep.Text.Utf8

namespace AsmPrep.Run

open Byte

inductive Command where
  | include (file : String)
  | cLine (line : UInt32) (file : Option String)
  /-- A `c_line` without a line number, or with one that is too large. -/
  | badCLine
  deriving DecidableEq, Repr

namespace Command

/-- The text between quotes that stand on one line. -/
def quotedText? : Text → Option Text
  | [] => none
  | quote :: s =>
    if isQuote quote then
      let inside := fun c => c != quote && c != newline
      if (s.dropWhile inside).head? = some quote then some (s.takeWhile inside) else none
    else none

/-- A quoted file name. -/
def fileName? (s : Text) : Option String := (quotedText? s).map Text.readUtf8

/-- The number that decimal digits spell. -/
def decimal (digits : Text) : Nat := digits.foldl (fun n c => n * 10 + (c.toNat - zero.toNat)) 0

/-- Line numbers stay below this. -/
def lineLimit : Nat := UInt32.size

/-- What follows the word `c_line`. -/
def ofCLine (s : Text) : Command :=
  let digits := s.takeWhile isDigit
  if digits.isEmpty || lineLimit ≤ decimal digits then .badCLine
  else
    let line := UInt32.ofNat (decimal digits)
    match Text.skipBlanks (s.dropWhile isDigit) with
    | [] => .cLine line none
    | c :: r => .cLine line (if c = comma then fileName? (Text.skipBlanks r) else none)

/-- The command a statement is, if it is one. -/
def ofStatement? (statement : Text) : Option Command :=
  let s := Text.skipBlanks statement
  match Lexeme.word? (Text.ofString "include") s with
  | some rest => (fileName? (Text.skipBlanks rest)).map .include
  | none =>
    (Lexeme.word? (Text.ofString "c_line") s).map fun rest => ofCLine (Text.skipBlanks rest)

end Command

end AsmPrep.Run
