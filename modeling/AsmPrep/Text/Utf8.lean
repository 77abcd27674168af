/-
Reading a name from bytes.

Bytes are read as UTF-8.  Where they are not, each longest run that begins a character
and breaks off stands for one replacement character, and so does each byte that begins
none.
-/
import AsmPrep.Text.Basic

namespace AsmPrep.Text

namespace Utf8

def replacement : Char := '\uFFFD'

def isContinuation (c : Byte) : Bool := 128 ≤ c && c ≤ 191

/-- Whether `c` can come second in a character of more than one byte that begins with `b`.
Longer forms than needed, surrogates and numbers past the last character are left out. -/
def isSecond (b c : Byte) : Bool :=
  if b = 0xE0 then 0xA0 ≤ c && c ≤ 0xBF
  else if b = 0xED then 0x80 ≤ c && c ≤ 0x9F
  else if b = 0xF0 then 0x90 ≤ c && c ≤ 0xBF
  else if b = 0xF4 then 0x80 ≤ c && c ≤ 0x8F
  else isContinuation c

/-- How many bytes a character that begins with the byte takes; zero where none does. -/
def width (b : Byte) : Nat :=
  if b < 0x80 then 1
  else if 0xC2 ≤ b && b ≤ 0xDF then 2
  else if 0xE0 ≤ b && b ≤ 0xEF then 3
  else if 0xF0 ≤ b && b ≤ 0xF4 then 4
  else 0

/-- The bits of a first byte that belong to the character's number. -/
def lead (b : Byte) : Nat :=
  match width b with
  | 2 => b.toNat - 0xC0
  | 3 => b.toNat - 0xE0
  | 4 => b.toNat - 0xF0
  | _ => b.toNat

/-- As many bytes from the start of `s` as can belong to the character that begins with `b`. -/
def tail (b : Byte) (s : Text) : Text :=
  match s.take (width b - 1) with
  | [] => []
  | c :: r => if isSecond b c then c :: r.takeWhile isContinuation else []

/-- The characters of a text. -/
def decode : Text → List Char
  | [] => []
  | b :: s =>
    let t := tail b s
    let first :=
      if width b = t.length + 1 then
        Char.ofNat (t.foldl (fun n c => n * 64 + (c.toNat - 128)) (lead b))
      else replacement
    first :: decode (s.drop t.length)
termination_by s => s.length
decreasing_by
  rw [List.length_cons, List.length_drop]
  exact Nat.lt_succ_of_le (Nat.sub_le _ _)

end Utf8

/-- The string a text is in UTF-8, with replacement characters where it is not. -/
def readUtf8 (s : Text) : String := String.ofList (Utf8.decode s)

end AsmPrep.Text
