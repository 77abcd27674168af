/-
From the arguments to the settings of a run.

There has to be an input, and each predefined macro needs a name of its own.
-/
import AsmPrep.CommandLine.Options
import AsmPrep.Run.Settings
import AsmPrep.Text.Lexeme

namespace AsmPrep.CommandLine

open AsmPrep.Run

/-- Whether the text is a name and nothing else. -/
def isMacroName (name : String) : Bool :=
  Lexeme.name? (Text.ofString name) == some (Text.ofString name, [])

/-- Splits `NAME=VALUE` at the first equals sign.  Without one the value is 1. -/
def splitDefine (argument : String) : String × String :=
  let name := argument.toList.takeWhile (· != '=')
  let rest := argument.toList.drop name.length
  (String.ofList name, if rest.isEmpty then "1" else String.ofList rest.tail)

/-- The macro that an argument defines. -/
def parseDefine (argument : String) : Except Failure (String × String) :=
  let define := splitDefine argument
  if isMacroName define.1 then .ok define else .error (.invalidDefine argument)

/-- The macros that arguments define, each under a name that is not in `seen` and not taken
before. -/
def parseDefines (seen : List String) : List String → Except Failure (List (String × String))
  | [] => .ok []
  | argument :: others => do
    let define ← parseDefine argument
    if seen.contains define.1 then .error (.duplicateDefine define.1)
    else return define :: (← parseDefines (define.1 :: seen) others)

/-- A single dash is standard input. -/
def originOf (name : String) : Origin :=
  if name = "-" then .standardInput else .file name

/-- The settings that the arguments ask for. -/
def Arguments.settings (a : Arguments) : Except Failure Settings :=
  if a.inputs.isEmpty then .error .noInput
  else do
    let defines ← parseDefines [] a.defines
    return {
      inputs := a.inputs.map originOf
      includePath := a.includePath
      defines
      outfile := a.outfile
      listing := a.listing
      errorFile := a.errorFile
      verbose := a.verbose }

end AsmPrep.CommandLine
