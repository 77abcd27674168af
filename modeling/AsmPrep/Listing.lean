/-
The annotated listing of a run.

Each raw line read and each statement returned makes one entry, which gives the place
in the assembly text and the line.  Entries of raw lines are commented out, so that the
listing can be assembled like the statements.

A listing can be kept in memory beside any source.  One that can take no more is dropped
at the first entry that does not fit, and what was written before stays.
-/
import AsmPrep.Source.Line

namespace AsmPrep

namespace Listing

/-! ### Entries -/

/-- The place as an entry begins with it. -/
def header (l : Location) : Text :=
  Text.ofString ("LINE " ++ toString l.line ++ ", \"" ++ l.file.getD "" ++ "\"")

/-- The entry of a raw line. -/
def rawEntry (l : Location) (line : Text) : Text :=
  Text.ofString ";\t" ++ header l ++ Text.ofString "\n;\t" ++ line

/-- The entry of a statement. -/
def statementEntry (l : Location) (statement : Text) : Text :=
  Text.ofString "\t" ++ header l ++ Text.ofString "\n\t" ++ statement

end Listing

/-! ### A listing in memory -/

structure Listing where
  /-- The entries written, newest first. -/
  written : List Text := []
  /-- How many entries the listing can take; without a number, any number. -/
  capacity : Option Nat := none
  /-- Whether entries still go to the listing. -/
  attached : Bool := true

namespace Listing

/-- All that was written. -/
def text (l : Listing) : Text := l.written.reverse.flatten

def isFull (l : Listing) : Bool :=
  match l.capacity with
  | none => false
  | some n => n ≤ l.written.length

def write (l : Listing) (entry : Text) : Listing :=
  if !l.attached then l
  else if l.isFull then { l with attached := false }
  else { l with written := entry :: l.written }

end Listing

/-- A source, and the listing that is kept beside it. -/
structure Listed (σ : Type) where
  source : σ
  listing : Option Listing := none

instance {σ : Type} [LineSource σ] : LineSource (Listed σ) where
  nextLine l := (LineSource.nextLine l.source).map id fun source => { l with source }
  locations l := LineSource.locations l.source
  record entry l := { l with listing := l.listing.map (·.write entry) }
  remaining l := LineSource.remaining l.source
  remaining_le l := LineSource.remaining_le l.source
  remaining_lt l := LineSource.remaining_lt l.source
  remaining_record _ _ := Nat.le_refl _

end AsmPrep
