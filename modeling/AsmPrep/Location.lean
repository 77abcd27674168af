/-
Where a line comes from.

A line has a place in two spaces: in the assembly text being read, and in the program
the assembly was generated from, which line directives in the text keep up to date.

Line numbers have 32 bits.  After the last of them a count goes on from zero.
-/
namespace AsmPrep

/-- The spaces a place can be given in. -/
inductive Space where
  | c
  | asm
  deriving DecidableEq, Repr

structure Location where
  file : Option String := none
  line : UInt32 := 0
  deriving DecidableEq, Repr

namespace Location

def isEmpty (l : Location) : Bool := l.file.isNone && l.line == 0

/-- The place as a diagnostic shows it, when it has a file to show. -/
def describe? (l : Location) : Option String :=
  match l.file with
  | none => none
  | some file =>
    if file.isEmpty then none
    else if l.line = 0 then some s!"'{file}'"
    else some s!"'{file}' line {l.line}"

end Location

/-- A place in each space. -/
structure Locations where
  c : Location := {}
  asm : Location := {}
  deriving DecidableEq, Repr

namespace Locations

def set (ls : Locations) (space : Space) (l : Location) : Locations :=
  match space with
  | .c => { ls with c := l }
  | .asm => { ls with asm := l }

/-- The places with a file, the generating program's first, or nothing when there is none. -/
def describe (ls : Locations) : String :=
  match [ls.c, ls.asm].filterMap Location.describe? with
  | [] => ""
  | places => " at " ++ ", ".intercalate places

end Locations

end AsmPrep
