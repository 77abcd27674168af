/-
A complete run.

The files to be written are emptied first.  Every input then starts with the predefined
macros and nothing else, and with a listing whose file is up to date.  At the end the
listing and the output are flushed, and last of all the diagnostics are added to the
error file.

A name that ends in `On` belongs to a function that asks a system for its files.  Without
that it is the same function among the files that are known.
-/
import AsmPrep.Run.Pass
import AsmPrep.Run.Settings

namespace AsmPrep.Run

/-- The name that standard input is read under. -/
def standardInputName : String := "<stdin>"

/-- The text of the statements written, oldest first. -/
def Pass.text (p : Pass) : Text := p.written.reverse.flatten

/-- What the inputs read so far came to. -/
structure Tally where
  pp : Preprocessor := {}
  /-- The files as they are now. -/
  tree : Files.Tree := {}
  output : Option Files.Writer := none
  listing : Option Files.Writer := none
  report : Report := {}
  /-- The text of the statements, one piece for each input, newest first. -/
  pieces : List Text := []

namespace Tally

/-- What a pass adds. -/
def add (sofar : Tally) (pass : Pass) : Tally :=
  let (diagnostics, pp) := pass.pp.takeDiagnostics
  { pp
    tree := pass.stack.tree
    output := pass.output
    listing := pass.desk.listing
    report :=
      { diagnostics := sofar.report.diagnostics ++ diagnostics
        statements := sofar.report.statements + pass.written.length }
    pieces := pass.text :: sofar.pieces }

/-- The text of all statements. -/
def text (t : Tally) : Text := t.pieces.reverse.flatten

/-- Brings the file of the listing up to date. -/
def flushListing (t : Tally) : Tally :=
  let (listing, tree) := Files.flushTo t.listing t.tree
  { t with listing, tree }

/-- Brings the file of the output up to date. -/
def flushOutput (t : Tally) : Tally :=
  let (output, tree) := Files.flushTo t.output t.tree
  { t with output, tree }

/-- The text for standard output: all of it, where there is no file for it. -/
def stdout (t : Tally) : Text := if t.output.isNone then t.text else []

end Tally

/-- Makes the predefined macros.  One that cannot be made is reported. -/
def predefine (pp : Preprocessor) (defines : List (String × String)) : Preprocessor :=
  defines.foldl
    (fun pp define =>
      match pp.define define.1 define.2 with
      | (.ok (), pp) => pp
      | (.error fault, pp) => pp.reportAt fault {})
    pp

/-- A pass over an input, before it is opened. -/
def start (settings : Settings) (sofar : Tally) : Pass :=
  let sofar := sofar.flushListing
  { pp := predefine sofar.pp.reset settings.defines
    desk :=
      { stack := { includePath := settings.includePath, tree := sofar.tree : InputStack }.push
        listing := sofar.listing }
    output := sofar.output }

/-- The pass once its input was opened, or nothing when it cannot be, which is reported. -/
def Pass.opened (p : Pass) (opened : Except Fault Unit × InputStack) : Bool × Pass :=
  match opened with
  | (.ok (), stack) => (true, p.withStack stack)
  | (.error fault, stack) => (false, (p.withStack stack).report fault)

section Inputs

variable {m : Type → Type} [Monad m] (system : Files.System m)

/-- The pass once its input is there: a file that is found, or what standard input still holds. -/
def Pass.openInput (p : Pass) (stdin : Text) : Origin → m (Bool × Pass)
  | .file name => do
    let path ← Files.search (system.isFile · p.stack.tree) name p.stack.includePath
    let opened ← system.openFile path p.stack.tree
    let p := p.withTree opened.tree
    return p.opened (p.stack.bind name path opened.reader?)
  | .standardInput => return p.opened (p.stack.openText standardInputName stdin)

/-- Runs one input with what standard input still holds. -/
def runInputOn (settings : Settings) (stdin : Text) (sofar : Tally) (input : Origin) :
    m Tally := do
  let opened ← (start settings sofar).openInput system stdin input
  if opened.1 then return sofar.add (← opened.2.finish system _ rfl).1
  else return sofar.add opened.2

/-- Runs inputs in order, as far as standard input can be read.  It is used up by the first of
them that reads it. -/
def runInputsOn (settings : Settings) :
    Except String Text → List Origin → Tally → m (Option Failure × Tally)
  | _, [], sofar => return (none, sofar)
  | stdin, .file path :: others, sofar => do
    runInputsOn settings stdin others (← runInputOn system settings [] sofar (.file path))
  | .error message, .standardInput :: _, sofar =>
    return (some (.io standardInputName message), sofar)
  | .ok text, .standardInput :: others, sofar => do
    runInputsOn settings (.ok []) others (← runInputOn system settings text sofar .standardInput)

end Inputs

/-- Runs one input among the files that are known. -/
def runInput (settings : Settings) (stdin : Text) (sofar : Tally) (input : Origin) : Tally :=
  (runInputOn .known settings stdin sofar input).run

/-- Runs inputs in order among the files that are known. -/
def runInputs (settings : Settings) (stdin : Except String Text) (inputs : List Origin)
    (sofar : Tally) : Option Failure × Tally :=
  (runInputsOn .known settings stdin inputs sofar).run

/-- What a run leaves behind. -/
structure Outcome where
  result : Except Failure Report
  stdout : Text := []
  tree : Files.Tree

/-- The diagnostics as lines of the error file. -/
def errorLines (diagnostics : List Diagnostic) : Text :=
  diagnostics.flatMap fun d => Text.ofString (d.render ++ "\n")

section Run

variable {m : Type → Type} [Monad m] (system : Files.System m)

/-- Makes a file that a run writes to, where there is one. -/
def createFileOn (tree : Files.Tree) :
    Option String → m (Except Failure (Option Files.Writer × Files.Tree))
  | none => return .ok (none, tree)
  | some path => do
    let made := (← system.create path tree).map fun made => (some { place := made.1 }, made.2)
    return made.mapError (.io path)

/-- Adds the diagnostics to the error file, where there is one. -/
def addErrorsOn (tree : Files.Tree) (diagnostics : List Diagnostic) :
    Option String → m (Except Failure Files.Tree)
  | none => return .ok tree
  | some path => do
    return (← system.append path (errorLines diagnostics) tree).mapError (.io path)

/-- Runs as the settings say. -/
def runOn (settings : Settings) (tree : Files.Tree) (stdin : Except String Text) :
    m Outcome := do
  match ← createFileOn system tree settings.outfile with
  | .error failure => return { result := .error failure, tree }
  | .ok (output, tree) =>
    match ← createFileOn system tree settings.listing with
    | .error failure => return { result := .error failure, tree }
    | .ok (listing, tree) =>
      let (failure?, done) ←
        runInputsOn system settings stdin settings.inputs { tree, output, listing }
      let done := done.flushListing.flushOutput
      let (stdout, tree) := (done.stdout, done.tree)
      match failure? with
      | some failure => return { result := .error failure, stdout, tree }
      | none =>
        match ← addErrorsOn system tree done.report.diagnostics settings.errorFile with
        | .error failure => return { result := .error failure, stdout, tree }
        | .ok tree => return { result := .ok done.report, stdout, tree }

end Run

/-- Makes a file that a run writes to among those that are known. -/
def createFile (tree : Files.Tree) (path? : Option String) :
    Except Failure (Option Files.Writer × Files.Tree) := (createFileOn .known tree path?).run

/-- Adds the diagnostics to an error file that is known. -/
def addErrors (tree : Files.Tree) (diagnostics : List Diagnostic) (path? : Option String) :
    Except Failure Files.Tree := (addErrorsOn .known tree diagnostics path?).run

/-- Runs as the settings say among the files that are known. -/
def run (settings : Settings) (tree : Files.Tree) (stdin : Except String Text) : Outcome :=
  (runOn .known settings tree stdin).run

end AsmPrep.Run
