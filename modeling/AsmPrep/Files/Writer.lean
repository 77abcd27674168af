/-
Writing to a file.

What is written waits in a block in memory.  It reaches the file when a text comes that
does not fit in with it, and when the writer is flushed; a text as large as a whole
block does not wait.  Until then, whoever reads the file sees it as it was.

A writer goes on where it left off, whatever else happens to the file.  Two writers on
one file write over each other.
-/
import AsmPrep.Files.Tree
import AsmPrep.Text.Buffer

namespace AsmPrep.Files

structure Writer where
  place : Place
  /-- How much has reached the file. -/
  offset : Nat := 0
  /-- What has not. -/
  pending : Buffer := {}
  /-- How much more the block holds. -/
  room : Nat := blockSize

namespace Writer

/-- Puts a text in the file, after what the writer put there before. -/
def put (w : Writer) (text : Text) (t : Tree) : Writer × Tree :=
  ({ w with offset := w.offset + text.length }, t.overwrite w.place w.offset text)

/-- Lets all that was written reach the file. -/
def flush (w : Writer) (t : Tree) : Writer × Tree :=
  { w with pending := {}, room := blockSize }.put w.pending.toText t

/-- Writes a text. -/
def write (w : Writer) (text : Text) (t : Tree) : Writer × Tree :=
  let size := text.length
  let (w, t) := if w.room < size then w.flush t else (w, t)
  if blockSize ≤ size then w.put text t
  else ({ w with pending := w.pending.append text, room := w.room - size }, t)

end Writer

/-! ### Where there may be no file -/

/-- Writes a text where there is a file for it. -/
def writeTo : Option Writer → Text → Tree → Option Writer × Tree
  | none, _, t => (none, t)
  | some w, text, t => let (w, t) := w.write text t; (some w, t)

/-- Flushes a writer where there is one. -/
def flushTo : Option Writer → Tree → Option Writer × Tree
  | none, t => (none, t)
  | some w, t => let (w, t) := w.flush t; (some w, t)

end AsmPrep.Files
