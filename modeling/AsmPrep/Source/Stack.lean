/-
Nested inputs.

The assembly location follows the input on top of the stack; the other location changes
only when it is set.  An input keeps its file name until it is given another one or
dropped, and a file whose name is on the stack is not opened again.
-/
import AsmPrep.Files.Search
import AsmPrep.Names
import AsmPrep.Source.Line
import AsmPrep.Source.Reader

namespace AsmPrep

/-- One input of the stack. -/
structure Input where
  /-- What is being read, if anything is open. -/
  reader : Option Reader := none
  location : Location := {}
  /-- Whether the end of the input has been met. -/
  ended : Bool := false
  deriving DecidableEq, Repr

/-- What reading a line makes of an open input. -/
def Input.read (tree : Files.Tree) (input : Input) (reader : Reader) :
    Except Fault (Option Text) × Input :=
  let input := { input with location.line := input.location.line + 1 }
  if reader = .unreadable then
    (.error (.cannotRead (input.location.file.getD "")), { input with reader := none, ended := true })
  else match reader.line? tree with
    | none => (.ok none, { input with reader := none, ended := true })
    | some (line, reader) => (.ok (some line), { input with reader := some reader })

structure InputStack where
  /-- The inputs, top first. -/
  inputs : List Input := []
  locations : Locations := {}
  includePath : List String := []
  /-- The files as they are now. -/
  tree : Files.Tree := {}
  /-- Every file name that was opened or tried. -/
  names : Names.Pool := {}

namespace InputStack

def depth (s : InputStack) : Nat := s.inputs.length

/-- Whether the end of the top input has been met. -/
def isEnded (s : InputStack) : Bool := s.inputs.head?.any (·.ended)

def push (s : InputStack) : InputStack := { s with inputs := {} :: s.inputs }

/-- Drops the top input.  With the last one all locations are forgotten. -/
def pop (s : InputStack) : InputStack :=
  match s.inputs.tail with
  | [] => { s with inputs := [], locations := {} }
  | next :: others =>
    { s with inputs := next :: others, locations := s.locations.set .asm next.location }

/-- Whether an input of the stack has that file name. -/
def holds (s : InputStack) (file : String) : Bool :=
  s.inputs.any fun input => input.location.file == some file

/-- Opens a reader in the top input under a file name.  `asked` is the name that faults are
reported with, and a reader is missing where the file cannot be opened. -/
def bind (s : InputStack) (asked file : String) (reader? : Option Reader) :
    Except Fault Unit × InputStack :=
  match s.inputs with
  | [] => (.error (.cannotOpen asked), s)
  | top :: others =>
    let s := { s with
      inputs := { top with reader := none } :: others
      names := s.names.insert file }
    if s.holds file then (.error (.includeRecursion asked), s)
    else match reader? with
      | none => (.error (.cannotOpen asked), s)
      | some reader =>
        let location : Location := { file := some file }
        (.ok (), { s with
          inputs := { reader := some reader, location } :: others
          locations := s.locations.set .asm location })

/-- Opens a file in the top input, searching the include path. -/
def openFile (s : InputStack) (name : String) : Except Fault Unit × InputStack :=
  let found := s.tree.search name s.includePath
  s.bind name found (s.tree.reader? found)

/-- Opens a text in the top input. -/
def openText (s : InputStack) (name : String) (text : Text) : Except Fault Unit × InputStack :=
  s.bind name name (some (.text text))

/-- Reads the next line of the top input.  Its line number moves on as long as it is open, once
more at its end. -/
def readLine (s : InputStack) : Except Fault (Option Text) × InputStack :=
  match s.inputs with
  | [] => (.ok none, s)
  | top :: others =>
    match top.reader with
    | none => (.ok none, s)
    | some reader =>
      let read := Input.read s.tree top reader
      (read.1, { s with
        inputs := read.2 :: others
        locations := s.locations.set .asm read.2.location })

/-- Sets a location.  In the assembly space the top input goes on from it. -/
def setLocation (s : InputStack) (space : Space) (l : Location) : InputStack :=
  let inputs := match space, s.inputs with
    | .asm, top :: others => { top with location := l } :: others
    | _, inputs => inputs
  { s with
    inputs
    locations := s.locations.set space l
    names := s.names.insertAll l.file.toList }

/-- A bound on the bytes still to be read of the top input. -/
def remaining (s : InputStack) : Nat :=
  match s.inputs with
  | [] => 0
  | top :: _ => (top.reader.map Reader.size).getD 0

theorem remaining_readLine_le (s : InputStack) : s.readLine.2.remaining ≤ s.remaining := by
  unfold readLine
  split
  · exact Nat.le_refl _
  · rename_i top others hs
    split
    · exact Nat.le_refl _
    · rename_i reader hr
      simp only [remaining, hs, hr, Option.map_some, Option.getD_some]
      unfold Input.read
      dsimp only
      split
      · exact Nat.zero_le _
      · split
        · exact Nat.zero_le _
        · rename_i hl
          exact Nat.le_of_lt (Reader.size_line?_lt hl)

theorem remaining_readLine_lt {s : InputStack} {line : Text}
    (h : s.readLine.1 = .ok (some line)) : s.readLine.2.remaining < s.remaining := by
  unfold readLine at h ⊢
  split at h
  · simp at h
  · rename_i top others hs
    split at h
    · simp at h
    · rename_i reader hr
      unfold Input.read at h ⊢
      dsimp only at h ⊢
      split at h
      · simp at h
      · rename_i hu
        split at h
        · simp at h
        · rename_i hl
          simp only [remaining, hs, hr, hu, if_false, Option.map_some, Option.getD_some]
          exact Reader.size_line?_lt hl

instance : LineSource InputStack where
  nextLine := readLine
  locations := locations
  record _ s := s
  remaining := remaining
  remaining_le := remaining_readLine_le
  remaining_lt := fun _ _ => remaining_readLine_lt
  remaining_record _ _ := Nat.le_refl _

end InputStack

end AsmPrep
