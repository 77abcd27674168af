/-
Directives: `#define`, `#defcont` and `#undef`.

Every line with a hash in its first column is a directive, and one with an unknown word
does nothing.  The text of a macro runs to the comment or the end of the line, and a
backslash before the line end takes the next line in.
-/
import AsmPrep.Diagnostic
import AsmPrep.Text.Lexeme

namespace AsmPrep

open Byte

/-- A directive, with the text after its word. -/
inductive Directive where
  | define (text : Text)
  | undefine (text : Text)
  | continuation (text : Text)
  | unknown
  deriving DecidableEq, Repr

namespace Directive

/-- The directive a line is, when it is one. -/
def ofLine? : Text → Option Directive
  | [] => none
  | c :: s =>
    if c = hash then
      match Lexeme.word? (Text.ofString "define") s with
      | some rest => some (.define rest)
      | none =>
        match Lexeme.word? (Text.ofString "undef") s with
        | some rest => some (.undefine rest)
        | none =>
          match Lexeme.word? (Text.ofString "defcont") s with
          | some rest => some (.continuation rest)
          | none => some .unknown
    else none

/-- The name after the blanks at the start of a text, and what follows it. -/
def takeName? (s : Text) : Option (String × Text) :=
  (Lexeme.name? (Text.skipBlanks s)).map fun found => (Text.toName found.1, found.2)

/-- The name of an `#undef`, after which nothing but a comment may stand. -/
def undefined? (s : Text) : Option String :=
  (takeName? s).bind fun found =>
    if Text.atEndOfStatement (Text.skipBlanks found.2) then some found.1 else none

/-! ### Parameter lists -/

/-- The parameters read from a list, and what follows it unless the list is malformed. -/
structure Params where
  names : List String := []
  rest? : Option Text := none
  deriving DecidableEq, Repr

theorem takeName?_lt {s rest : Text} {name : String} (h : takeName? s = some (name, rest)) :
    rest.length < s.length := by
  obtain ⟨found, hf, hr⟩ := Option.map_eq_some_iff.1 h
  obtain ⟨-, rfl⟩ := Prod.mk.inj hr
  exact Nat.lt_of_lt_of_le (Lexeme.name?_lt hf) (Text.length_skipBlanks_le s)

/-- Names with a comma between each two, up to a closing parenthesis. -/
def namesUpToParen (s : Text) : Params :=
  match _ : takeName? s with
  | none => {}
  | some (name, rest) =>
    match _ : Text.skipBlanks rest with
    | [] => { names := [name] }
    | c :: r =>
      if c = closeParen then { names := [name], rest? := some r }
      else if c = comma then
        let others := namesUpToParen r
        { others with names := name :: others.names }
      else { names := [name] }
termination_by s.length
decreasing_by
  rename_i hn hr _ _
  have := Text.length_skipBlanks_le rest
  rw [hr, List.length_cons] at this
  exact Nat.lt_trans this (takeName?_lt hn)

/-- The parameters of a macro, given what follows its name.  Only a parenthesis that follows
directly opens a list. -/
def params : Text → Params
  | [] => { rest? := some [] }
  | c :: s =>
    if c = openParen then
      match Text.skipBlanks s with
      | [] => {}
      | d :: r => if d = closeParen then { rest? := some r } else namesUpToParen (d :: r)
    else { rest? := some (c :: s) }

/-! ### Macro texts -/

/-- What a line adds to a macro text, and whether the text goes on in the next line.  A blank
stands for the line end between two lines. -/
def bodyLine (s : Text) : Text × Bool :=
  if Text.atEndOfStatement s then ([], false)
  else
    match _ : Lexeme.quoted? s with
    | some (lexeme, rest) => (bodyLine rest).map (lexeme ++ ·) id
    | none =>
      match s with
      | [] => ([], false)
      | c :: r =>
        if c = backslash && r.head? == some newline then ([space], true)
        else (bodyLine r).map (c :: ·) id
termination_by s.length
decreasing_by
  · exact Lexeme.quoted?_lt (by assumption)
  · exact Nat.lt_succ_self _

end Directive

end AsmPrep
