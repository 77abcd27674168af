/-
Texts as sequences of tokens.

At each place of a text stands a number if one can be read there, else a name, else a
string, else a byte that is nothing more than itself.  A sigil is such a byte, and so is a
digit that begins no number.  The tokens of a text spell it, whatever its bytes are.

A text that a delimiter follows has the tokens it has alone, unless it ends in a string that
is not closed.
-/
import AsmPrep.Proofs.Text.Quotation

namespace AsmPrep

open Byte

inductive Token where
  | number (text : Text)
  /-- An identifier, without the sigil that may stand before it. -/
  | name (text : Text)
  | quoted (text : Text)
  | byte (c : Byte)
  deriving DecidableEq, Repr

namespace Token

def text : Token → Text
  | number text | name text | quoted text => text
  | byte c => [c]

def isName : Token → Bool
  | name _ => true
  | number _ | quoted _ | byte _ => false

end Token

/-- `TokenAt s t rest`: the text `s` begins with the token `t`, and `rest` follows it. -/
inductive TokenAt : Text → Token → Text → Prop
  | number {s text rest : Text} (h : Lexeme.number? s = some (text, rest)) :
      TokenAt s (.number text) rest
  | name {s text rest : Text} (hnumber : Lexeme.number? s = none)
      (h : Lexeme.identifier? s = some (text, rest)) : TokenAt s (.name text) rest
  | quoted {s text rest : Text} (hnumber : Lexeme.number? s = none)
      (hname : Lexeme.identifier? s = none) (h : Lexeme.quoted? s = some (text, rest)) :
      TokenAt s (.quoted text) rest
  | byte {c : Byte} {s : Text} (hnumber : Lexeme.number? (c :: s) = none)
      (hname : Lexeme.identifier? (c :: s) = none) (hquoted : Lexeme.quoted? (c :: s) = none) :
      TokenAt (c :: s) (.byte c) s

namespace Text

/-- The token that a text begins with, and what follows it. -/
def firstToken (c : Byte) (s : Text) : Token × Text :=
  match Lexeme.number? (c :: s) with
  | some (text, rest) => (.number text, rest)
  | none =>
    match Lexeme.identifier? (c :: s) with
    | some (text, rest) => (.name text, rest)
    | none =>
      match Lexeme.quoted? (c :: s) with
      | some (text, rest) => (.quoted text, rest)
      | none => (.byte c, s)

theorem firstToken_at (c : Byte) (s : Text) :
    TokenAt (c :: s) (firstToken c s).1 (firstToken c s).2 := by
  unfold firstToken
  split
  · rename_i h
    exact .number h
  · rename_i hnumber
    split
    · rename_i h
      exact .name hnumber h
    · rename_i hname
      split
      · rename_i h
        exact .quoted hnumber hname h
      · rename_i hquoted
        exact .byte hnumber hname hquoted

/-- A text begins with a token that is more than a byte, or with a byte. -/
theorem first_cases (c : Byte) (s : Text) :
    (∃ t rest, TokenAt (c :: s) t rest ∧ ∀ d, t ≠ .byte d) ∨ TokenAt (c :: s) (.byte c) s := by
  cases hnumber : Lexeme.number? (c :: s) with
  | some found => exact .inl ⟨_, found.2, .number hnumber, fun _ => by simp⟩
  | none =>
    cases hname : Lexeme.identifier? (c :: s) with
    | some found => exact .inl ⟨_, found.2, .name hnumber hname, fun _ => by simp⟩
    | none =>
      cases hquoted : Lexeme.quoted? (c :: s) with
      | some found => exact .inl ⟨_, found.2, .quoted hnumber hname hquoted, fun _ => by simp⟩
      | none => exact .inr (.byte hnumber hname hquoted)

end Text

namespace TokenAt

variable {c : Byte} {s rest : Text} {t : Token}

theorem spelled (h : TokenAt s t rest) : t.text ++ rest = s := by
  cases h with
  | number h => exact Lexeme.number?_append h
  | name _ h => exact Lexeme.identifier?_append h
  | quoted _ _ h => exact Lexeme.quoted?_append h
  | byte => rfl

theorem shorter (h : TokenAt s t rest) : rest.length < s.length := by
  cases h with
  | number h => exact Lexeme.number?_lt h
  | name _ h => exact Lexeme.identifier?_lt h
  | quoted _ _ h => exact Lexeme.quoted?_lt h
  | byte => exact Nat.lt_succ_self _

theorem ne_nil (h : TokenAt s t rest) : s ≠ [] := by
  rintro rfl
  exact absurd h.shorter (Nat.not_lt_zero _)

/-- There is one token at a place. -/
theorem eq_first (h : TokenAt (c :: s) t rest) : Text.firstToken c s = (t, rest) := by
  cases h with
  | number h => simp [Text.firstToken, h]
  | name hnumber h => simp [Text.firstToken, hnumber, h]
  | quoted hnumber hname h => simp [Text.firstToken, hnumber, hname, h]
  | byte hnumber hname hquoted => simp [Text.firstToken, hnumber, hname, hquoted]

end TokenAt

/-- A byte that begins no token is no more than itself. -/
theorem tokenAt_byte {c : Byte} (h : beginsToken c = false) (s : Text) :
    TokenAt (c :: s) (.byte c) s := by
  obtain ⟨⟨⟨hdigit, hsigil⟩, hstart⟩, hquote⟩ :
      ((isDigit c = false ∧ isSigil c = false) ∧ isIdentStart c = false) ∧ isQuote c = false := by
    simpa [beginsToken] using h
  exact .byte (Lexeme.number?_none hdigit hsigil s) (Lexeme.identifier?_none hstart s)
    (by simp [Lexeme.quoted?, hquote])

/-- An identifier is a token where a delimiter follows it. -/
theorem tokenAt_name {text rest : Text} (h : Lexeme.identifier? text = some (text, []))
    (hrest : Text.Delimited rest) : TokenAt (text ++ rest) (.name text) rest := by
  have hne : text ≠ [] := by
    rintro rfl
    exact absurd h (by simp [Lexeme.identifier?])
  have hfound : Lexeme.identifier? (text ++ rest) = some (text, rest) := by
    rw [Lexeme.identifier?_tail hrest hne, h]
    rfl
  exact .name (Lexeme.number?_of_identifier? hfound) hfound

namespace Text

def tokens : Text → List Token
  | [] => []
  | c :: s => (firstToken c s).1 :: tokens (firstToken c s).2
termination_by s => s.length
decreasing_by exact (firstToken_at c s).shorter

def spell (ts : List Token) : Text := ts.flatMap Token.text

@[simp] theorem tokens_nil : tokens [] = [] := by rw [tokens]

theorem tokens_of {s rest : Text} {t : Token} (h : TokenAt s t rest) :
    tokens s = t :: tokens rest := by
  obtain ⟨c, s, rfl⟩ := List.exists_cons_of_ne_nil h.ne_nil
  rw [tokens, h.eq_first]

@[simp] theorem spell_nil : spell [] = [] := rfl

@[simp] theorem spell_cons (t : Token) (ts : List Token) : spell (t :: ts) = t.text ++ spell ts :=
  rfl

@[simp] theorem spell_append (ts us : List Token) : spell (ts ++ us) = spell ts ++ spell us :=
  List.flatMap_append

theorem tokens_blanks {blanks : Text} (h : ∀ c ∈ blanks, isBlank c = true) (s : Text) :
    tokens (blanks ++ s) = blanks.map .byte ++ tokens s := by
  induction blanks with
  | nil => rfl
  | cons c blanks ih =>
    rw [List.forall_mem_cons] at h
    rw [List.cons_append, tokens_of (tokenAt_byte (not_beginsToken_of_isBlank h.1) _), ih h.2]
    rfl

end Text

namespace TokenAt

open Text Quoting

variable {s rest : Text} {t : Token}

/-- A byte by itself opens no string. -/
theorem next_byte {c : Byte} (h : TokenAt s (.byte c) rest) : outside.next c = outside := by
  cases h with
  | byte _ _ hquoted => exact next_outside (Lexeme.quoted?_eq_none hquoted)

/-- Nothing but a string leaves its reader in a string. -/
theorem after_text_of_ne (h : TokenAt s t rest) (ht : ∀ text, t ≠ .quoted text) :
    outside.after t.text = outside := by
  have hword {text : Text} (hbytes : ∀ c ∈ text, isWordByte c = true) :
      outside.after text = outside :=
    after_outside fun c hc => (not_special_of_isWordByte (hbytes c hc)).1
  cases h with
  | number h => exact hword (Lexeme.number?_bytes h)
  | name _ h => exact hword fun c hc => isWordByte_of_isIdentChar (Lexeme.identifier?_bytes h c hc)
  | quoted => exact absurd rfl (ht _)
  | byte hnumber hname hquoted => exact (TokenAt.byte hnumber hname hquoted).next_byte

/-- A string does so only when it takes the rest of the text. -/
theorem after_text (h : TokenAt s t rest) (hrest : rest ≠ []) :
    outside.after t.text = outside := by
  cases t with
  | quoted text =>
    cases h with
    | quoted _ _ h => exact Lexeme.quoted?_after h hrest
  | number text => exact h.after_text_of_ne fun _ => by simp
  | name text => exact h.after_text_of_ne fun _ => by simp
  | byte c => exact h.after_text_of_ne fun _ => by simp

/-- A token is found where a delimiter follows the text, too. -/
theorem tail (h : TokenAt s t rest) (hclosed : outside.after t.text = outside) {tail : Text}
    (htail : Delimited tail) : TokenAt (s ++ tail) t (rest ++ tail) := by
  have hs := h.ne_nil
  have hnumber := Lexeme.number?_tail htail hs
  have hname := Lexeme.identifier?_tail htail hs
  cases h with
  | number h => exact .number (by rw [hnumber, h]; rfl)
  | name hn h => exact .name (by rw [hnumber, hn]; rfl) (by rw [hname, h]; rfl)
  | quoted hn hi h =>
    exact .quoted (by rw [hnumber, hn]; rfl) (by rw [hname, hi]; rfl)
      (Lexeme.quoted?_tail h hclosed tail)
  | byte hn hi hq =>
    rw [hn] at hnumber
    rw [hi] at hname
    refine .byte hnumber hname ?_
    simp [Lexeme.quoted?, Lexeme.quoted?_eq_none hq]

end TokenAt

namespace Text

open Quoting

/-- **A delimiter behind a text without an open string makes no difference to its tokens.** -/
theorem tokens_append {s tail : Text} (hclosed : outside.after s = outside)
    (htail : Delimited tail) : tokens (s ++ tail) = tokens s ++ tokens tail := by
  induction s using tokens.induct with
  | case1 => simp
  | case2 c s ih =>
    have hat := firstToken_at c s
    have hspelled := hat.spelled
    have hfirst : outside.after (firstToken c s).1.text = outside := by
      by_cases hrest : (firstToken c s).2 = []
      · rw [hrest, List.append_nil] at hspelled
        rwa [hspelled]
      · exact hat.after_text hrest
    have hothers : outside.after (firstToken c s).2 = outside := by
      rw [← hspelled, after_append, hfirst] at hclosed
      exact hclosed
    rw [tokens_of hat, tokens_of (hat.tail hfirst htail), ih hothers, List.cons_append]

end Text

end AsmPrep
