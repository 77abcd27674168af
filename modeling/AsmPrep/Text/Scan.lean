/-
Scanning literals into a buffer.

A scanner looks at the start of a text.  On a match it adds the lexeme's spelling to
the buffer and gives what follows it; otherwise it gives nothing, and text and buffer
are as they were, so that scanners can be tried in turn.
-/
import AsmPrep.Text.Buffer
import AsmPrep.Text.Lexeme

namespace AsmPrep

abbrev Scan := Text → Buffer → Option (Text × Buffer)

namespace Scan

def number : Scan := fun s out =>
  (Lexeme.number? s).map fun found => (found.2, out.append found.1)

def quoted : Scan := fun s out =>
  (Lexeme.quoted? s).map fun found => (found.2, out.append found.1)

/-- `##` with the blanks on both sides is dropped, so that its neighbours join. -/
def paste : Scan := fun s out =>
  (Lexeme.paste? s).map fun rest => (rest, out.chomp)

/-- Tries the second scanner where the first does not match. -/
def orElse (first second : Scan) : Scan := fun s out => (first s out).or (second s out)

/-- A number, a string or a paste mark. -/
def literal : Scan := number.orElse (quoted.orElse paste)

/-- The next byte, if there is one, passed through. -/
def copy : Text → Buffer → Text × Buffer
  | [], out => ([], out)
  | c :: s, out => (s, out.push c)

/-! ### A match leaves a shorter text -/

theorem number_lt {s rest : Text} {out out' : Buffer} (h : number s out = some (rest, out')) :
    rest.length < s.length := by
  obtain ⟨found, hf, hr⟩ := Option.map_eq_some_iff.1 h
  obtain ⟨rfl, -⟩ := Prod.mk.inj hr
  exact Lexeme.number?_lt hf

theorem quoted_lt {s rest : Text} {out out' : Buffer} (h : quoted s out = some (rest, out')) :
    rest.length < s.length := by
  obtain ⟨found, hf, hr⟩ := Option.map_eq_some_iff.1 h
  obtain ⟨rfl, -⟩ := Prod.mk.inj hr
  exact Lexeme.quoted?_lt hf

theorem paste_lt {s rest : Text} {out out' : Buffer} (h : paste s out = some (rest, out')) :
    rest.length < s.length := by
  obtain ⟨found, hf, hr⟩ := Option.map_eq_some_iff.1 h
  obtain ⟨rfl, -⟩ := Prod.mk.inj hr
  exact Lexeme.paste?_lt hf

end Scan

end AsmPrep
