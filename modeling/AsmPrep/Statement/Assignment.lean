/-
Assignments.

An assembler takes `NAME EQU expr` and `NAME = expr` for the same thing, with a dot
before the name or a colon after it allowed.  All of them become `defc NAME = expr`.
Members of a `defgroup` block are assigned in its own way and stay as they are, from
the word that opens the block to the brace that closes it.
-/
import AsmPrep.Text.Lexeme

namespace AsmPrep.Statement

open Byte

/-- Whether a closing brace stands before any comment. -/
def closesGroup (s : Text) : Bool := (s.takeWhile (· != semicolon)).contains closeBrace

/-- The name of an assignment without its dot, and what follows its name or its label mark. -/
def assigned (name rest : Text) : Text × Text :=
  match name, rest with
  | c :: bare, _ =>
    if c = dot then (bare, rest)
    else match rest with
      | d :: r => if d = colon then (name, r) else (name, rest)
      | [] => (name, [])
  | [], _ => ([], rest)

/-- What follows an equals sign or the word `equ`. -/
def afterSign? : Text → Option Text
  | [] => none
  | c :: s => if c = equals then some s else Lexeme.word? (Text.ofString "equ") (c :: s)

/-- An assignment in its one spelling. -/
def definition (name value : Text) : Text :=
  Text.ofString "defc " ++ name ++ Text.ofString " = " ++ value

/-- The statement a piece stands for, and whether a `defgroup` block is open after it. -/
def normalize (inGroup : Bool) (piece : Text) : Text × Bool :=
  if inGroup then (piece, !closesGroup piece)
  else match Lexeme.name? (Text.skipBlanks piece) with
    | none => (piece, false)
    | some (name, rest) =>
      if Text.sameLetters name (Text.ofString "defgroup") then (piece, !closesGroup rest)
      else
        let target := assigned name rest
        match afterSign? (Text.skipBlanks target.2) with
        | none => (piece, false)
        | some value => (definition target.1 (Text.skipBlanks value), false)

/-- The statements that pieces stand for, in order, one for each line of a piece. -/
def normalizeAll (inGroup : Bool) : List Text → List Text × Bool
  | [] => ([], inGroup)
  | line :: others =>
    let first := normalize inGroup line
    let rest := normalizeAll first.2 others
    (first.1 :: rest.1, rest.2)

end AsmPrep.Statement
