/-
What a pass works on: the inputs, and the file that a listing is kept in.

Both share the files of the stack.  An entry of the listing is written there, so an
input that is the listing itself sees it as soon as it has reached the file.
-/
import AsmPrep.Files.Writer
import AsmPrep.Source.Stack

namespace AsmPrep.Run

structure Desk where
  stack : InputStack := {}
  listing : Option Files.Writer := none

namespace Desk

/-- Adds an entry to the listing, where one is kept. -/
def record (entry : Text) (d : Desk) : Desk :=
  let (listing, tree) := Files.writeTo d.listing entry d.stack.tree
  { stack := { d.stack with tree }, listing }

instance : LineSource Desk where
  nextLine d := d.stack.readLine.map id fun stack => { d with stack }
  locations d := d.stack.locations
  record := record
  remaining d := d.stack.remaining
  remaining_le d := InputStack.remaining_readLine_le d.stack
  remaining_lt _ _ := InputStack.remaining_readLine_lt
  remaining_record _ _ := Nat.le_refl _

end Desk

end AsmPrep.Run
