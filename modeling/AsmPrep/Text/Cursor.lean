/-
A position in a text.

A cursor is the text split where it stands: the bytes already passed, last first, and
the rest.  The position is the number of bytes passed, and it never lies beyond the
end.  A recogniser of lexemes works on the rest alone, and `moveTo` carries its answer
back to the cursor.
-/
import AsmPrep.Text.Scan

namespace AsmPrep

structure Cursor where
  passed : Text := []
  rest : Text

namespace Cursor

def ofText (s : Text) : Cursor := { rest := s }

/-- The whole text, wherever the cursor stands. -/
def text (c : Cursor) : Text := c.passed.reverse ++ c.rest

def position (c : Cursor) : Nat := c.passed.length

def peek? (c : Cursor) : Option Byte := c.rest.head?

/-- The byte `n` places ahead. -/
def peekAt? (c : Cursor) (n : Nat) : Option Byte := c.rest[n]?

/-- Moves `n` bytes on, or to the end when fewer are left. -/
def advance (c : Cursor) (n : Nat) : Cursor :=
  ⟨(c.rest.take n).reverse ++ c.passed, c.rest.drop n⟩

/-- Takes the next byte. -/
def next? (c : Cursor) : Option Byte × Cursor := (c.peek?, c.advance 1)

def isAtEnd (c : Cursor) : Bool := c.rest.isEmpty

def atEndOfStatement (c : Cursor) : Bool := Text.atEndOfStatement c.rest

def skipToEnd (c : Cursor) : Cursor := c.advance c.rest.length

/-- The bytes from position `start` up to the cursor. -/
def since (c : Cursor) (start : Nat) : Text := c.passed.reverse.drop start

/-- Moves on to where `rest` is what is left. -/
def moveTo (c : Cursor) (rest : Text) : Cursor := c.advance (c.rest.length - rest.length)

def skipBlanks (c : Cursor) : Cursor := c.moveTo (Text.skipBlanks c.rest)

/-- Passes `word`, in any case of letters, when no longer identifier stands there. -/
def eatWord? (c : Cursor) (word : Text) : Option Cursor :=
  (Lexeme.word? word c.rest).map c.moveTo

/-- Skips blanks and takes a name with at most one sigil. -/
def takeName? (c : Cursor) : Option (Text × Cursor) :=
  (Lexeme.name? (Text.skipBlanks c.rest)).map fun found => (found.1, c.moveTo found.2)

/-- Runs a scanner at the cursor. -/
def scan? (scanner : Scan) (c : Cursor) (out : Buffer) : Option (Cursor × Buffer) :=
  (scanner c.rest out).map fun found => (c.moveTo found.1, found.2)

/-- Passes the next byte through to the buffer. -/
def copy (c : Cursor) (out : Buffer) : Cursor × Buffer :=
  let copied := Scan.copy c.rest out
  (c.moveTo copied.1, copied.2)

/-- Moving keeps the text. -/
@[simp] theorem text_advance (c : Cursor) (n : Nat) : (c.advance n).text = c.text := by
  simp [text, advance]

@[simp] theorem text_moveTo (c : Cursor) (rest : Text) : (c.moveTo rest).text = c.text :=
  text_advance c _

end Cursor

end AsmPrep
