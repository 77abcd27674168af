/-
The files that a run works with.

A run only asks for files, so it does the same whether they are a value or lie on a disk.
The tree goes with it and holds what is known of them, which is more after each answer.  A
value knows everything from the start.
-/
import AsmPrep.Files.Search
import AsmPrep.Source.Reader

namespace AsmPrep.Files

/-- What came of opening a path to read what it leads to. -/
structure Opened (path : String) where
  reader? : Option Reader
  tree : Tree
  short : reader?.isSome → path.utf8ByteSize < pathLimit

structure System (m : Type → Type) where
  isFile : String → Tree → m Bool
  openFile : (path : String) → Tree → m (Opened path)
  /-- Makes an empty file, or empties the one that is there. -/
  create : String → Tree → m (Except String (Place × Tree))
  /-- Adds text at the end of a file. -/
  append : String → Text → Tree → m (Except String Tree)

/-- The files of the tree, and no others. -/
def System.known : System Id where
  isFile path t := t.isFile path
  openFile path t := ⟨t.reader? path, t, t.length_of_reader? path⟩
  create path t := (t.create path).mapError Refusal.message
  append path text t := (t.append path text).mapError Refusal.message

end AsmPrep.Files
