/-
The text a scan has produced so far.

Scanning adds at the end and, where two neighbours are pasted together, takes white
space off the end again, so the bytes are held last first.  `toText` is the text in
reading order; every operation is described by what it does to that.
-/
import AsmPrep.Text.Basic

namespace AsmPrep

structure Buffer where
  reversed : Text := []

namespace Buffer

def toText (b : Buffer) : Text := b.reversed.reverse

def ofText (s : Text) : Buffer := ⟨s.reverse⟩

def push (b : Buffer) (c : Byte) : Buffer := ⟨c :: b.reversed⟩

def append (b : Buffer) (s : Text) : Buffer := ⟨s.reverseAux b.reversed⟩

/-- Takes off the white space at the end. -/
def chomp (b : Buffer) : Buffer := ⟨b.reversed.dropWhile Byte.isSpace⟩

@[simp] theorem toText_empty : toText {} = [] := rfl

@[simp] theorem toText_ofText (s : Text) : (ofText s).toText = s := by simp [toText, ofText]

@[simp] theorem toText_push (b : Buffer) (c : Byte) : (b.push c).toText = b.toText ++ [c] := by
  simp [toText, push]

@[simp] theorem toText_append (b : Buffer) (s : Text) :
    (b.append s).toText = b.toText ++ s := by
  simp [toText, append, List.reverseAux_eq]

@[simp] theorem toText_chomp (b : Buffer) : b.chomp.toText = Text.chomp b.toText := by
  simp [toText, chomp, Text.chomp]

/-- A buffer is its text. -/
theorem ext_toText {a b : Buffer} (h : a.toText = b.toText) : a = b := by
  cases a
  cases b
  simpa [toText] using h

end Buffer

end AsmPrep
