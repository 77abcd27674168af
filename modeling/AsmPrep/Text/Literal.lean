/-
A text written as a string literal.

The literal stands in double quotes.  A quote and a backslash in the text get a
backslash before them, the usual control characters have a letter, and any other
character that cannot be seen is written with its number in hexadecimal.
-/
import AsmPrep.Text.Unprintable

namespace AsmPrep.Text.Literal

def hexDigits (n : Nat) : String := String.ofList (Nat.toDigits 16 n)

/-- One character as it stands in a literal. -/
def escape (c : Char) : String :=
  if c = '\x00' then "\\0"
  else if c = '\t' then "\\t"
  else if c = '\r' then "\\r"
  else if c = '\n' then "\\n"
  else if c = '"' then "\\\""
  else if c = '\\' then "\\\\"
  else if isUnprintable c then "\\u\x7b" ++ hexDigits c.toNat ++ "\x7d"
  else c.toString

/-- The literal that stands for a text. -/
def quote (s : String) : String := "\"" ++ String.join (s.toList.map escape) ++ "\""

end AsmPrep.Text.Literal
