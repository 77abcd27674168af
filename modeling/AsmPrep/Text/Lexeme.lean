/-
The lexemes a scanner knows: names, words, numbers, quoted strings, the paste mark
and text between angle brackets.

Each recogniser looks at the start of a text.  On a match it gives what follows the
lexeme, with the lexeme itself in front where the caller needs its spelling; the two
together are the text it was given.  What follows is shorter than the text, which is
why a loop over lexemes ends.
-/
import AsmPrep.Text.Basic

namespace AsmPrep.Lexeme

open Byte

/-! ### Names and words -/

/-- An identifier without a sigil. -/
def identifier? : Text → Option (Text × Text)
  | [] => none
  | c :: s =>
    if isIdentStart c then some (c :: s.takeWhile isIdentChar, s.dropWhile isIdentChar) else none

/-- An identifier with at most one sigil directly before it. -/
def name? : Text → Option (Text × Text)
  | [] => none
  | c :: s =>
    if isSigil c then (identifier? s).map fun found => (c :: found.1, found.2)
    else identifier? (c :: s)

/-- What follows `word`, in any case of letters, when no longer identifier starts there. -/
def word? (word s : Text) : Option Text :=
  let rest := s.drop word.length
  if Text.sameLetters (s.take word.length) word && !rest.head?.any isIdentChar then some rest
  else none

/-! ### Numbers -/

/-- The digits of the radix that a mark after a leading zero announces, as in `0x1F`. -/
def radixDigits? (mark : Byte) : Option (Byte → Bool) :=
  let m := toLower mark
  if m = 120 then some isHexDigit
  else if m = 98 then some isBinaryDigit
  else if m = 111 || m = 113 then some isOctalDigit
  else none

/-- Hexadecimal digits closed by an `h`, as in `0FFh`. -/
def isSuffixedHex (run : Text) : Bool :=
  match run.reverse with
  | [] => false
  | last :: digits => toLower last == 104 && !digits.isEmpty && digits.all isHexDigit

/-- A radix mark after a leading zero, and the digits of that radix, if any. -/
def markedNumber? : Text → Option (Text × Text)
  | c :: m :: s =>
    if c = zero then
      (radixDigits? m).map fun digits => (c :: m :: s.takeWhile digits, s.dropWhile digits)
    else none
  | _ => none

/-- A run of letters and digits that passes `accept` as a whole, after the bytes of `front`. -/
def run? (front : Text) (accept : Text → Bool) (s : Text) : Option (Text × Text) :=
  let run := s.takeWhile isAlphanumeric
  if accept run then some (front ++ run, s.dropWhile isAlphanumeric) else none

/-- A number after a sigil: `$` and `#` announce hexadecimal digits, `%` and `@` binary ones. -/
def sigilNumber? : Text → Option (Text × Text)
  | c :: d :: s =>
    if (c = dollar || c = hash) && isHexDigit d then run? [c] (·.all isHexDigit) (d :: s)
    else if (c = percent || c = atSign) && isBinaryDigit d then
      run? [c] (·.all isBinaryDigit) (d :: s)
    else none
  | _ => none

/-- A number that starts with a digit: decimal, or hexadecimal with the suffix `h`. -/
def digitNumber? : Text → Option (Text × Text)
  | c :: s =>
    if isDigit c then run? [] (fun run => run.all isDigit || isSuffixedHex run) (c :: s) else none
  | [] => none

/-- A numeric literal in any of the notations.  A radix mark after a leading zero decides
first, even when no digit of its radix follows. -/
def number? (s : Text) : Option (Text × Text) :=
  (markedNumber? s).or ((sigilNumber? s).or (digitNumber? s))

/-! ### Quoted strings and angle brackets -/

/-- Splits after the first `quote`.  A backslash takes the next byte along, and a string that
is never closed runs to the end of the text. -/
def closeQuote (quote : Byte) : Text → Text × Text
  | [] => ([], [])
  | [c] => ([c], [])
  | c :: d :: s =>
    if c = quote then ([c], d :: s)
    else if c = backslash then (closeQuote quote s).map (c :: d :: ·) id
    else (closeQuote quote (d :: s)).map (c :: ·) id

/-- A string in single or double quotes. -/
def quoted? : Text → Option (Text × Text)
  | [] => none
  | c :: s =>
    if isQuote c then some ((closeQuote c s).map (c :: ·) id) else none

/-- Splits before the first `>` that no backslash guards, or before the line end when that
comes first. -/
def angleText : Text → Text × Text
  | [] => ([], [])
  | [c] => if c = closeAngle || c = newline then ([], [c]) else ([c], [])
  | c :: d :: s =>
    if c = closeAngle || c = newline then ([], c :: d :: s)
    else if c = backslash && d != newline then (angleText s).map (c :: d :: ·) id
    else (angleText (d :: s)).map (c :: ·) id

/-! ### The paste mark -/

/-- What follows a `##` and the blanks after it. -/
def paste? : Text → Option Text
  | c :: d :: s => if c = hash && d = hash then some (Text.skipBlanks s) else none
  | _ => none

/-! ### What is left is shorter -/

theorem identifier?_lt {s lexeme rest : Text} (h : identifier? s = some (lexeme, rest)) :
    rest.length < s.length := by
  cases s with
  | nil => simp [identifier?] at h
  | cons c s =>
    rw [identifier?] at h
    split at h
    · obtain ⟨-, rfl⟩ := Prod.mk.inj (Option.some.inj h)
      exact Nat.lt_succ_of_le (Text.length_dropWhile_le _ _)
    · exact absurd h (by simp)

theorem name?_lt {s lexeme rest : Text} (h : name? s = some (lexeme, rest)) :
    rest.length < s.length := by
  cases s with
  | nil => simp [name?] at h
  | cons c s =>
    rw [name?] at h
    split at h
    · obtain ⟨⟨n, r⟩, hn, hr⟩ := Option.map_eq_some_iff.1 h
      obtain ⟨-, rfl⟩ := Prod.mk.inj hr
      exact Nat.lt_succ_of_lt (identifier?_lt hn)
    · exact identifier?_lt h

theorem run?_le {front : Text} {accept : Text → Bool} {s lexeme rest : Text}
    (h : run? front accept s = some (lexeme, rest)) : rest.length ≤ s.length := by
  simp only [run?] at h
  split at h
  · obtain ⟨-, rfl⟩ := Prod.mk.inj (Option.some.inj h)
    exact Text.length_dropWhile_le _ _
  · exact absurd h (by simp)

theorem markedNumber?_lt {s lexeme rest : Text} (h : markedNumber? s = some (lexeme, rest)) :
    rest.length < s.length := by
  unfold markedNumber? at h
  split at h
  · split at h
    · obtain ⟨digits, -, hr⟩ := Option.map_eq_some_iff.1 h
      obtain ⟨-, rfl⟩ := Prod.mk.inj hr
      exact Nat.lt_succ_of_lt (Nat.lt_succ_of_le (Text.length_dropWhile_le _ _))
    · exact absurd h (by simp)
  · exact absurd h (by simp)

theorem sigilNumber?_lt {s lexeme rest : Text} (h : sigilNumber? s = some (lexeme, rest)) :
    rest.length < s.length := by
  unfold sigilNumber? at h
  split at h
  · split at h
    · exact Nat.lt_succ_of_le (run?_le h)
    · split at h
      · exact Nat.lt_succ_of_le (run?_le h)
      · exact absurd h (by simp)
  · exact absurd h (by simp)

theorem digitNumber?_lt {s lexeme rest : Text} (h : digitNumber? s = some (lexeme, rest)) :
    rest.length < s.length := by
  unfold digitNumber? at h
  split at h
  · rename_i c s
    split at h
    · rename_i hc
      simp only [run?] at h
      split at h
      · obtain ⟨-, rfl⟩ := Prod.mk.inj (Option.some.inj h)
        rw [List.dropWhile_cons_of_pos (by simp [isAlphanumeric, hc])]
        exact Nat.lt_succ_of_le (Text.length_dropWhile_le _ _)
      · exact absurd h (by simp)
    · exact absurd h (by simp)
  · exact absurd h (by simp)

theorem number?_lt {s lexeme rest : Text} (h : number? s = some (lexeme, rest)) :
    rest.length < s.length := by
  simp only [number?, Option.or_eq_some_iff] at h
  rcases h with h | ⟨-, h | ⟨-, h⟩⟩
  · exact markedNumber?_lt h
  · exact sigilNumber?_lt h
  · exact digitNumber?_lt h

theorem closeQuote_le (quote : Byte) (s : Text) : (closeQuote quote s).2.length ≤ s.length := by
  fun_induction closeQuote quote s <;> simp_all <;> omega

theorem quoted?_lt {s lexeme rest : Text} (h : quoted? s = some (lexeme, rest)) :
    rest.length < s.length := by
  cases s with
  | nil => simp [quoted?] at h
  | cons c s =>
    rw [quoted?] at h
    split at h
    · obtain ⟨-, rfl⟩ := Prod.mk.inj (Option.some.inj h)
      exact Nat.lt_succ_of_le (closeQuote_le c s)
    · exact absurd h (by simp)

theorem angleText_le (s : Text) : (angleText s).2.length ≤ s.length := by
  fun_induction angleText s <;> simp_all <;> omega

theorem paste?_lt {s rest : Text} (h : paste? s = some rest) : rest.length < s.length := by
  unfold paste? at h
  split at h
  · split at h
    · obtain rfl := Option.some.inj h
      exact Nat.lt_succ_of_le (Nat.le_succ_of_le (Text.length_skipBlanks_le _))
    · exact absurd h (by simp)
  · exact absurd h (by simp)

end AsmPrep.Lexeme
