/-
What a run is asked to do, and what it comes to.
-/
import AsmPrep.Diagnostic

namespace AsmPrep.Run

/-- Where a top-level text comes from. -/
inductive Origin where
  | standardInput
  | file (path : String)
  deriving DecidableEq, Repr

structure Settings where
  inputs : List Origin := []
  includePath : List String := []
  /-- Macros that every input starts with. -/
  defines : List (String × String) := []
  /-- Where the statements go; standard output where no file is given. -/
  outfile : Option String := none
  listing : Option String := none
  errorFile : Option String := none
  verbose : Bool := false
  deriving DecidableEq, Repr

/-- What stops a run, or keeps it from starting. -/
inductive Failure where
  | noInput
  | invalidDefine (argument : String)
  | duplicateDefine (name : String)
  | io (path message : String)
  deriving DecidableEq, Repr

namespace Failure

def message : Failure → String
  | noInput => "no input files specified"
  | invalidDefine argument => s!"invalid -D/--define '{argument}': expected NAME[=VAL]"
  | duplicateDefine name => s!"macro '{name}' defined more than once with -D/--define"
  | io path message => s!"{path}: {message}"

end Failure

/-- What a complete run reports. -/
structure Report where
  diagnostics : List Diagnostic := []
  /-- How many statements were written. -/
  statements : Nat := 0
  deriving DecidableEq, Repr

end AsmPrep.Run
