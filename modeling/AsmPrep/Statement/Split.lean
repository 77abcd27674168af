/-
Splitting a line into the pieces that statements are made of.

A line can hold several statements.  A backslash ends one; so does a colon, unless it
belongs to an earlier question mark of the same statement or follows the statement's
only name, which makes it the mark of a label.  A comment ends the line.  Names are
expanded on the way, and an expansion counts as one name whatever it gives.
-/
import AsmPrep.Macro.Expansion

namespace AsmPrep.Statement

open Byte Expansion

/-- What decides the meaning of a colon in the current statement. -/
structure Counts where
  openQuestions : Nat := 0
  names : Nat := 0
  afterName : Bool := false

namespace Counts

/-- Whether a colon here marks a label. -/
def atLabel (n : Counts) : Bool := n.afterName && n.names == 1

/-- A name has just been passed. -/
def name (n : Counts) : Counts := { n with names := n.names + 1, afterName := true }

/-- Something other than a name has just been passed. -/
def other (n : Counts) : Counts := { n with afterName := false }

def question (n : Counts) : Counts := { n.other with openQuestions := n.openQuestions + 1 }

/-- A colon has just closed a question mark. -/
def answer (n : Counts) : Counts := { n.other with openQuestions := n.openQuestions - 1 }

end Counts

/-- What a byte that begins no token does to the statement it stands in. -/
inductive Effect where
  | comment
  | cut
  | keep (counts : Counts)

/-- The effect of a byte that begins no token. -/
def effect (c : Byte) (n : Counts) : Effect :=
  if c = semicolon then .comment
  else if c = backslash then .cut
  else if c = question then .keep n.question
  else if c = colon then
    if 0 < n.openQuestions then .keep n.answer
    else if n.atLabel then .keep n.other
    else .cut
  else .keep n.other

/-- A token of a line, and whether it is a name.  Numbers come before names. -/
def token (expand : Expander) (s : Text) (st : State) (out : Buffer) :
    Option (Bool × Progress s) :=
  ((Progress.number s st out).map (false, ·)).or <| ((scanCall expand s st out).map (true, ·)).or <|
    ((Progress.quoted s st out).or <| (Progress.paste s st out).or <|
      stringize expand s st out).map (false, ·)

/-- The pieces of a line from here on, the first of them begun in `out`. -/
def splitFrom (expand : Expander) (s : Text) (st : State) (out : Buffer) (n : Counts) :
    State × List Text :=
  match s with
  | [] => (st, [out.toText])
  | c :: r =>
    match token expand (c :: r) st out with
    | some (isName, p) =>
      splitFrom expand p.rest p.state p.out (if isName then n.name else n.other)
    | none =>
      match effect c n with
      | .comment => (st, [(out.push newline).toText])
      | .cut => (splitFrom expand r st {} {}).map id ((out.push newline).toText :: ·)
      | .keep n => splitFrom expand r st (out.push c) n
termination_by s.length
decreasing_by
  · exact p.shorter
  all_goals exact Nat.lt_succ_self _

/-- The pieces of a line, in order. -/
def split (line : Text) (table : MacroTable) : State × List Text :=
  splitFrom (full table) line { table } {} {}

end AsmPrep.Statement
