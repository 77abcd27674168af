/-
The program on a real file system.

Everything is decided elsewhere.  Here arguments are taken in, and a file is read into the
tree of the run when the run opens it.  What the run writes to its own files stays there, to
be read like any other file, and is handed out at the end.
-/
import AsmPrep.CommandLine.Program

namespace AsmPrep.Disk

open Run

/-- A file system's complaint in words. -/
def describe : IO.Error → String
  | .noFileOrDirectory _ _ _ => Files.Refusal.missing.message
  | .inappropriateType _ code _ =>
    if code = 20 then Files.Refusal.notDirectory.message else Files.Refusal.directory.message
  | other => toString other

def bytes (text : Text) : ByteArray := ⟨text.toArray⟩

/-- The place that a path leads to. -/
def placeOf (path : String) : IO Files.Place := do
  let names := Files.Tree.components (← IO.FS.realPath path).toString
  return ⟨names.filter fun name => !name.isEmpty⟩

def isFile (path : String) : IO Bool := do
  let type ← (do return (← (← IO.FS.realPath path).metadata).type : IO IO.FS.FileType).toBaseIO
  return type.toOption == some .file

/-- Opens what a path leads to, and takes its content into the tree unless it is known. -/
def openFile (path : String) (tree : Files.Tree) : IO (Files.Opened path) := do
  if short : path.utf8ByteSize < Files.pathLimit then
    let opened (reader : Reader) (tree : Files.Tree) : Files.Opened path :=
      ⟨some reader, tree, fun _ => short⟩
    match ← (IO.FS.Handle.mk path .read).toBaseIO with
    | .error _ => return ⟨none, tree, nofun⟩
    | .ok handle =>
      match ← handle.readBinToEnd.toBaseIO with
      | .error _ => return opened .unreadable tree
      | .ok content =>
        let place ← placeOf path
        let tree := if (tree.at? place).isSome then tree else
          tree.put place (.file content.data.toList)
        return opened (.file place 0 []) tree
  else return ⟨none, tree, nofun⟩

/-- The files that a run writes to, open, with their places in the tree. -/
abbrev Sinks : Type := IO.Ref (List (Files.Place × IO.FS.Handle))

/-- Makes a file that a run writes to. -/
def create (sinks : Sinks) (path : String) (tree : Files.Tree) :
    IO (Except String (Files.Place × Files.Tree)) := do
  match ← (do return (← IO.FS.Handle.mk path .write, ← placeOf path) : IO _).toBaseIO with
  | .error e => return .error (describe e)
  | .ok (handle, place) =>
    sinks.modify ((place, handle) :: ·)
    return .ok (place, tree.put place (.file []))

/-- Hands out what a run wrote to its files. -/
def deliver (sinks : Sinks) (tree : Files.Tree) : IO Unit := do
  for (place, handle) in (← sinks.swap []) do
    handle.write (bytes (tree.contentAt place))
    handle.flush

/-- Adds text to the end of a file, after what was written there before.  A file that is empty
even so is removed. -/
def append (sinks : Sinks) (path : String) (text : Text) (tree : Files.Tree) :
    IO (Except String Files.Tree) := do
  deliver sinks tree
  let added : IO Unit := do
    let handle ← IO.FS.Handle.mk path .append
    handle.write (bytes text)
    handle.flush
    if (← (← IO.FS.realPath path).metadata).byteSize = 0 then IO.FS.removeFile path
  match ← added.toBaseIO with
  | .error e => return .error (describe e)
  | .ok () => return .ok tree

def system (sinks : Sinks) : Files.System IO where
  isFile path _ := isFile path
  openFile := openFile
  create := create sinks
  append := append sinks

/-- All of standard input, where it is to be read. -/
def readInput (settings : Settings) : IO (Except String Text) := do
  if .standardInput ∈ settings.inputs then
    match ← (do (← IO.getStdin).readBinToEnd : IO ByteArray).toBaseIO with
    | .ok text => return .ok text.data.toList
    | .error e => return .error (describe e)
  else return .ok []

/-- Runs as the settings say. -/
def run (settings : Settings) : IO Outcome := do
  let sinks ← IO.mkRef []
  let stdin ← readInput settings
  let outcome ← runOn (system sinks) settings { home := ← placeOf "." } stdin
  deliver sinks outcome.tree
  if let .ok report := outcome.result then
    if settings.verbose then
      IO.eprintln s!"{report.statements} statements"
  return outcome

/-- Hands out the texts that a call ends with. -/
def finish (exit : CommandLine.Exit) : IO UInt32 := do
  (← IO.getStdout).write (bytes exit.stdout)
  (← IO.getStderr).write (bytes exit.stderr)
  return exit.code.toUInt32

end AsmPrep.Disk

open AsmPrep in
def main (arguments : List String) : IO UInt32 := do
  match CommandLine.settingsOf arguments with
  | .error exit => Disk.finish exit
  | .ok settings => do
    let outcome ← Disk.run settings
    Disk.finish (CommandLine.exitOf outcome.result outcome.stdout)
