/-
What can go wrong with a source, and the record of what did.

A fault says what happened, a diagnostic says where as well, and a log keeps the
diagnostics of a run in the order they were reported.  No fault ends a run.
-/
import AsmPrep.Location

namespace AsmPrep

inductive Fault where
  | macroRecursion (name : String)
  | missingArguments
  | extraArguments
  | unclosedAngle
  | unclosedParen
  | macroRedefined (name : String)
  | continuationWithoutDefine
  | malformed
  | includeRecursion (name : String)
  | cannotOpen (name : String)
  | cannotRead (name : String)
  deriving DecidableEq, Repr

namespace Fault

/-- A tag that stays the same however the message is worded. -/
def code : Fault → String
  | macroRecursion _ => "macro-recursion"
  | missingArguments => "missing-macro-arguments"
  | extraArguments => "extra-macro-arguments"
  | unclosedAngle => "missing-close-angle-bracket"
  | unclosedParen => "missing-close-paren"
  | macroRedefined _ => "macro-redefined"
  | continuationWithoutDefine => "defcont-without-define"
  | malformed => "syntax"
  | includeRecursion _ => "include-recursion"
  | cannotOpen _ => "cannot-open"
  | cannotRead _ => "cannot-read"

def message : Fault → String
  | macroRecursion name => s!"recursion expanding macro '{name}'"
  | missingArguments => "missing macro arguments"
  | extraArguments => "extra macro arguments"
  | unclosedAngle => "missing close angle bracket"
  | unclosedParen => "missing close parenthesis"
  | macroRedefined name => s!"macro '{name}' redefined"
  | continuationWithoutDefine => "#defcont without #define"
  | malformed => "syntax error"
  | includeRecursion name => s!"cannot include '{name}' recursively"
  | cannotOpen name => s!"cannot open '{name}'"
  | cannotRead name => s!"cannot read '{name}'"

end Fault

/-- A fault and where it was met. -/
structure Diagnostic where
  fault : Fault
  locations : Locations
  deriving DecidableEq, Repr

namespace Diagnostic

/-- The diagnostic as a line for the user. -/
def render (d : Diagnostic) : String :=
  "Error" ++ d.locations.describe ++ ": " ++ d.fault.message

end Diagnostic

/-- The diagnostics of a run, oldest first. -/
structure Log where
  entries : List Diagnostic := []
  deriving DecidableEq, Repr

namespace Log

def report (log : Log) (fault : Fault) (locations : Locations) : Log :=
  ⟨log.entries ++ [⟨fault, locations⟩]⟩

/-- Reports faults met at one place, in order. -/
def reportAll (log : Log) (faults : List Fault) (locations : Locations) : Log :=
  ⟨log.entries ++ faults.map (⟨·, locations⟩)⟩

def size (log : Log) : Nat := log.entries.length

def isEmpty (log : Log) : Bool := log.entries.isEmpty

/-- Hands the diagnostics over and goes on with none. -/
def take (log : Log) : List Diagnostic × Log := (log.entries, {})

end Log

end AsmPrep
