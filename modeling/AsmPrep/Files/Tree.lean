/-
Files and directories, as a value.

The tree holds what is known of a file system, each file and directory under its place
as seen from the root.  A path is a text of names.  One that begins with a slash is
followed from the root, every other from the working directory.  Following one asks for a
directory at every slash, so a slash at the end of a file's path leads nowhere; an empty
name and a single dot stay where they are, and two dots go back, but not above the root.
There are no links, so two places are two files.
-/
import AsmPrep.Text.Basic

namespace AsmPrep.Files

inductive Node where
  | file (content : Text)
  | directory
  deriving DecidableEq, Repr

/-- Why a file could not be written. -/
inductive Refusal where
  | missing
  | directory
  | notDirectory
  | longName
  | nulByte
  deriving DecidableEq, Repr

namespace Refusal

def message : Refusal → String
  | missing => "No such file or directory (os error 2)"
  | notDirectory => "Not a directory (os error 20)"
  | directory => "Is a directory (os error 21)"
  | longName => "File name too long (os error 36)"
  | nulByte => "file name contained an unexpected NUL byte"

end Refusal

/-- Where a file or directory is: from the root down the names. -/
structure Place where
  names : List String := []
  deriving DecidableEq, Repr

namespace Place

/-- Nothing is above the root. -/
def up (p : Place) : Place := ⟨p.names.dropLast⟩

def down (p : Place) (name : String) : Place := ⟨p.names ++ [name]⟩

end Place

/-- A path has to be shorter than this many bytes. -/
def pathLimit : Nat := 4096

/-- A name has at most this many bytes. -/
def nameLimit : Nat := 255

/-- A file has at most this many bytes. -/
def fileLimit : Nat := 0x7fffffffffffffff

/-- Files are read and written in blocks of this many bytes. -/
def blockSize : Nat := 8192

structure Tree where
  nodes : List (Place × Node) := []
  /-- The working directory. -/
  home : Place := {}

namespace Tree

/-- What is at a place.  The root is always there. -/
def at? (t : Tree) (p : Place) : Option Node :=
  if p.names.isEmpty then some .directory else t.nodes.lookup p

def isDirectoryAt (t : Tree) (p : Place) : Bool := t.at? p == some .directory

/-- Puts a node in the place of what is there. -/
def put (t : Tree) (p : Place) (node : Node) : Tree :=
  { t with nodes := (p, node) :: t.nodes.filter (·.1 != p) }

def remove (t : Tree) (p : Place) : Tree := { t with nodes := t.nodes.filter (·.1 != p) }

/-! ### Following paths -/

/-- Goes from a place to a name in it. -/
def step (t : Tree) (p : Place) (name : String) : Except Refusal Place :=
  if !t.isDirectoryAt p then .error .notDirectory
  else if name = "" || name = "." then .ok p
  else if name = ".." then .ok p.up
  else if nameLimit < name.utf8ByteSize then .error .longName
  else if (t.at? (p.down name)).isSome then .ok (p.down name)
  else .error .missing

/-- Checks what a path has to be to be followed at all. -/
def checkPath (path : String) : Except Refusal Unit :=
  if path.toList.contains '\x00' then .error .nulByte
  else if path.isEmpty then .error .missing
  else if pathLimit ≤ path.utf8ByteSize then .error .longName
  else .ok ()

/-- The names that a path leads through. -/
def components (path : String) : List String :=
  (path.toList.splitOn '/').map String.ofList

/-- The place a path starts at. -/
def origin (t : Tree) (path : String) : Place :=
  if path.toList.head? == some '/' then {} else t.home

/-- The place a path leads to. -/
def follow (t : Tree) (path : String) : Except Refusal Place := do
  checkPath path
  (components path).foldlM t.step (t.origin path)

/-- What a path leads to. -/
def find? (t : Tree) (path : String) : Option Node :=
  (t.follow path).toOption.bind t.at?

/-- What can be found has a path short enough. -/
theorem length_of_find? {t : Tree} {path : String} (h : (t.find? path).isSome) :
    path.utf8ByteSize < pathLimit := by
  refine Nat.lt_of_not_le fun hle => ?_
  have hc : checkPath path ≠ .ok () := by
    unfold checkPath
    split
    · simp
    · split <;> simp
  unfold find? follow at h
  rcases hp : checkPath path with e | u
  · simp [hp, bind, Except.bind, Except.toOption] at h
  · exact hc hp

def isFile (t : Tree) (path : String) : Bool :=
  match t.find? path with
  | some (.file _) => true
  | _ => false

/-- The content of the file a path leads to. -/
def content? (t : Tree) (path : String) : Option Text :=
  match t.find? path with
  | some (.file content) => some content
  | _ => none

/-! ### Writing -/

/-- The place of a file that is to be written, which need not be there yet.  Its directory has
to be, and no directory may be in its place. -/
def target (t : Tree) (path : String) : Except Refusal Place := do
  checkPath path
  let names := ((components path).reverse.dropWhile (· == "")).reverse
  let last := names.getLastD ""
  let folder ← names.dropLast.foldlM t.step (t.origin path)
  if !t.isDirectoryAt folder then .error .notDirectory
  else if path.toList.getLast? == some '/' || last = "." || last = ".." then .error .directory
  else if nameLimit < last.utf8ByteSize then .error .longName
  else if t.isDirectoryAt (folder.down last) then .error .directory
  else .ok (folder.down last)

/-- The content of the file at a place, where there is one. -/
def contentAt (t : Tree) (p : Place) : Text :=
  match t.at? p with
  | some (.file content) => content
  | _ => []

/-- Makes an empty file, or empties the one that is there. -/
def create (t : Tree) (path : String) : Except Refusal (Place × Tree) := do
  let place ← t.target path
  return (place, t.put place (.file []))

/-- Writes over a file from an offset on. -/
def overwrite (t : Tree) (p : Place) (offset : Nat) (text : Text) : Tree :=
  let content := t.contentAt p
  t.put p (.file (content.take offset ++ text ++ content.drop (offset + text.length)))

/-- Adds text at the end of a file, which is made when it is not there.  A file that is empty
even so is removed. -/
def append (t : Tree) (path : String) (text : Text) : Except Refusal Tree := do
  let place ← t.target path
  let content := t.contentAt place ++ text
  return if content.isEmpty then t.remove place else t.put place (.file content)

/-! ### Building a tree -/

/-- Goes from a place to a name in it, and makes a directory there when nothing is. -/
def enter (t : Tree) (p : Place) (name : String) : Tree × Place :=
  if name = "" || name = "." then (t, p)
  else if name = ".." then (t, p.up)
  else if (t.at? (p.down name)).isSome then (t, p.down name)
  else (t.put (p.down name) .directory, p.down name)

/-- Goes through the names, and makes the directories that are not there. -/
def enterAll (t : Tree) (p : Place) (names : List String) : Tree × Place :=
  names.foldl (fun folder name => folder.1.enter folder.2 name) (t, p)

/-- Makes a file and the directories it lies in. -/
def makeFile (t : Tree) (path : String) (content : Text) : Tree :=
  let names := components path
  let folder := t.enterAll (t.origin path) names.dropLast
  folder.1.put (folder.2.down (names.getLastD "")) (.file content)

end Tree

end AsmPrep.Files
