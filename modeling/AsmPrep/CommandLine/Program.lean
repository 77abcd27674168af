/-
The program as it is called: arguments, files and standard input in; exit code, texts and
files out.
-/
import AsmPrep.CommandLine.Validation
import AsmPrep.Run.Complete

namespace AsmPrep.CommandLine

open AsmPrep.Run

def programName : String := "z80pp"

def programVersion : String := "1.0"

def usage : String := "\n".intercalate [
  "Z80 assembler source preprocessor.",
  "",
  "Usage: z80pp [OPTIONS] [FILE]...",
  "",
  "Each FILE starts with the macros given by -D alone; - is standard input.",
  "",
  "Options:",
  "  -I, --include-path <DIR>    Search DIR for included files (repeatable)",
  "  -D, --define <NAME[=VAL]>   Predefine a macro, as 1 without a value (repeatable)",
  "  -o, --outfile <FILE>        Write the statements to FILE",
  "  -i, --listing <FILE>        Write an annotated listing to FILE",
  "  -e, --error-file <FILE>     Add diagnostics to FILE",
  "  -v, --verbose               Log what is done",
  "  -h, --help                  Show this text",
  "  -V, --version               Show the version",
  ""]

/-- What is said of arguments that cannot be parsed. -/
def Stop.message : Stop → String
  | .unknownArgument => "unexpected argument"
  | .invalidValue => "a value is required"
  | .argumentConflict => "an option cannot be used multiple times"
  | .tooManyValues => "unexpected value"
  | .displayHelp => usage
  | .displayVersion => programName ++ " " ++ programVersion ++ "\n"

/-- What a call of the program leaves behind. -/
structure Exit where
  code : Nat
  stdout : Text := []
  stderr : Text := []

/-- A failure, as the user is told of it. -/
def failureLine (failure : Failure) : Text := Text.ofString ("error: " ++ failure.message ++ "\n")

/-- How a call ends that stops at its arguments. -/
def Stop.exit : Stop → Exit
  | .displayHelp => { code := 0, stdout := Text.ofString Stop.displayHelp.message }
  | .displayVersion => { code := 0, stdout := Text.ofString Stop.displayVersion.message }
  | stop => { code := 2, stderr := Text.ofString ("error: " ++ stop.message ++ "\n") }

/-- How a call ends that came to a result. -/
def exitOf (result : Except Failure Report) (stdout : Text) : Exit :=
  match result with
  | .error failure => { code := 1, stdout, stderr := failureLine failure }
  | .ok report =>
    { code := if report.diagnostics.isEmpty then 0 else 1
      stdout
      stderr := errorLines report.diagnostics }

/-- What a call is to do, or how it ends at its arguments. -/
def settingsOf (arguments : List String) : Except Exit Settings :=
  match parse arguments with
  | .error stop => .error stop.exit
  | .ok arguments => arguments.settings.mapError fun failure => exitOf (.error failure) []

/-- A call of the program. -/
def call (arguments : List String) (tree : Files.Tree) (stdin : Text) : Exit × Files.Tree :=
  match settingsOf arguments with
  | .error exit => (exit, tree)
  | .ok settings =>
    let outcome := run settings tree (.ok stdin)
    (exitOf outcome.result outcome.stdout, outcome.tree)

end AsmPrep.CommandLine
