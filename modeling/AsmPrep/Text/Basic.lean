/-
Texts.

A text is a list of bytes.  Here is what every scanner needs of it: skipping blanks,
taking off white space at the end, telling the end of a statement, and cutting it into
lines.
-/
import AsmPrep.Text.Byte

namespace AsmPrep

abbrev Text := List Byte

namespace Text

/-- The text without the blanks it begins with. -/
def skipBlanks (s : Text) : Text := s.dropWhile Byte.isBlank

/-- The text without the white space it ends with, line ends included. -/
def chomp (s : Text) : Text := (s.reverse.dropWhile Byte.isSpace).reverse

/-- A statement ends at the end of the text, at a comment and at the end of the line. -/
def atEndOfStatement : Text → Bool
  | [] => true
  | c :: _ => c == Byte.semicolon || c == Byte.newline

/-- Equality up to the case of ASCII letters. -/
def sameLetters (a b : Text) : Bool := a.map Byte.toLower == b.map Byte.toLower

/-- The lines of a text, each with its newline; the last may lack one. -/
def lines : Text → List Text
  | [] => []
  | c :: s =>
    if c = Byte.newline then [c] :: lines s
    else match lines s with
      | [] => [[c]]
      | line :: others => (c :: line) :: others

/-- The bytes of a string in UTF-8. -/
def ofString (s : String) : Text := s.toUTF8.data.toList

/-- The string whose characters have the values of the bytes; for ASCII bytes, the string
they encode. -/
def toName (s : Text) : String := String.ofList (s.map fun c => Char.ofNat c.toNat)

/-! ### Small facts -/

theorem length_skipBlanks_le (s : Text) : (skipBlanks s).length ≤ s.length :=
  (List.dropWhile_sublist _).length_le

theorem length_dropWhile_le (p : Byte → Bool) (s : Text) : (s.dropWhile p).length ≤ s.length :=
  (List.dropWhile_sublist _).length_le

end Text

end AsmPrep
