/-
Finding an included file.

A name that is a file as it stands is used as it stands.  Otherwise the directories of
the include path are tried in order, and a name found nowhere stays as it is.
-/
import AsmPrep.Files.Tree

namespace AsmPrep.Files

/-- The path of a name in a directory.  A name that starts at the root is its own path. -/
def join (directory name : String) : String :=
  if directory.isEmpty || name.toList.head? == some '/' then name
  else if directory.toList.getLast? == some '/' then directory ++ name
  else directory ++ "/" ++ name

/-- The paths that a name may stand for, in the order they are tried. -/
def candidates (name : String) (includePath : List String) : List String :=
  name :: includePath.map (join · name)

/-- The path that a name stands for, by what is a file. -/
def search {m : Type → Type} [Monad m] (isFile : String → m Bool) (name : String)
    (includePath : List String) : m String := do
  return ((← (candidates name includePath).findM? isFile)).getD name

/-- The path that a name stands for. -/
def Tree.search (t : Tree) (name : String) (includePath : List String) : String :=
  Files.search (m := Id) t.isFile name includePath

end AsmPrep.Files
