/-
Plain texts.

A plain text is put together from names without sigils, decimal numbers, closed strings and
bytes that begin nothing, never two words side by side.  However it is put together, it is
read as just that: its tokens are the ones it was made of.

White space at either end of a plain text is made of such bytes, and taking it off leaves a
plain text.
-/
import AsmPrep.Proofs.Text.Token
import Mathlib.Data.List.Chain
import Mathlib.Data.List.DropRight

namespace AsmPrep

open Byte Text

/-- A byte that begins no token, escapes nothing and ends nothing. -/
def Byte.isPlain (c : Byte) : Bool :=
  !isWordByte c && !isQuote c && c != semicolon && c != backslash && c != newline

theorem Byte.not_word_of_isPlain {c : Byte} (h : isPlain c = true) :
    isWordByte c = false ∧ isQuote c = false ∧ c ≠ semicolon ∧ c ≠ newline := by
  unfold isPlain at h
  simp only [Bool.and_eq_true, Bool.not_eq_true', bne_iff_ne] at h
  exact ⟨h.1.1.1.1, h.1.1.1.2, h.1.1.2, h.2⟩

theorem Byte.not_beginsToken_of_isPlain {c : Byte} (h : isPlain c = true) :
    beginsToken c = false := by
  obtain ⟨hword, hquote, -⟩ := not_word_of_isPlain h
  rw [isWordByte, Bool.or_eq_false_iff] at hword
  have hdigit : isDigit c = false := Bool.eq_false_iff.2 fun hdigit =>
    absurd (hword.1.symm.trans (isIdentChar_of_isDigit hdigit)) Bool.false_ne_true
  have hstart : isIdentStart c = false := Bool.eq_false_iff.2 fun hstart =>
    absurd (hword.1.symm.trans (isIdentChar_of_isIdentStart hstart)) Bool.false_ne_true
  rw [beginsToken, hdigit, hword.2, hstart, hquote]
  rfl

/-- So are blanks. -/
theorem Byte.isPlain_of_isBlank {c : Byte} (h : isBlank c = true) : isPlain c = true := by
  rcases isBlank_cases h with rfl | rfl | rfl | rfl <;> decide

namespace Token

/-- A name, a decimal number, a closed string within a line, or a plain byte. -/
def Plain : Token → Prop
  | number text => text ≠ [] ∧ ∀ c ∈ text, isDigit c = true
  | name text => Lexeme.identifier? text = some (text, [])
  | quoted text => Lexeme.quoted? text = some (text, []) ∧
      Quoting.outside.after text = .outside ∧ newline ∉ text
  | byte c => isPlain c = true

instance : (t : Token) → Decidable t.Plain
  | number text => inferInstanceAs (Decidable (text ≠ [] ∧ ∀ c ∈ text, isDigit c = true))
  | name text => inferInstanceAs (Decidable (Lexeme.identifier? text = some (text, [])))
  | quoted text => inferInstanceAs (Decidable (Lexeme.quoted? text = some (text, []) ∧
      Quoting.outside.after text = .outside ∧ newline ∉ text))
  | byte c => inferInstanceAs (Decidable (isPlain c = true))

/-- Names and numbers. -/
def isWord : Token → Bool
  | number _ | name _ => true
  | quoted _ | byte _ => false

/-- A single byte of white space. -/
def isSpace : Token → Bool
  | byte c => Byte.isSpace c
  | number _ | name _ | quoted _ => false

end Token

/-- Plain tokens of which no two words stand side by side. -/
structure PlainText (ts : List Token) : Prop where
  plain : ∀ t ∈ ts, t.Plain
  apart : ts.IsChain fun t u => (t.isWord && u.isWord) = false

instance (ts : List Token) : Decidable (PlainText ts) :=
  decidable_of_iff ((∀ t ∈ ts, t.Plain) ∧ ts.IsChain fun t u => (t.isWord && u.isWord) = false)
    ⟨fun h => ⟨h.1, h.2⟩, fun h => ⟨h.plain, h.apart⟩⟩

/-! ### One token -/

theorem Lexeme.radixDigits?_of_isDigit {c : Byte} (h : isDigit c = true) :
    radixDigits? c = none := by
  have hlower : toLower c = c := by
    unfold isDigit at h
    unfold toLower isUpper
    rw [if_neg]
    simp only [Bool.and_eq_true, decide_eq_true_eq] at h ⊢
    grind
  have hne (d : Byte) (hd : isDigit d = false) : c ≠ d := ne_of_class h hd
  simp only [radixDigits?, hlower, hne 120 (by decide), hne 98 (by decide), hne 111 (by decide),
    hne 113 (by decide), decide_false, Bool.or_self, Bool.false_eq_true, if_false]

/-- A decimal number is a number from one end to the other. -/
theorem Lexeme.number?_digits {s : Text} (hne : s ≠ []) (h : ∀ c ∈ s, isDigit c = true) :
    number? s = some (s, []) := by
  obtain ⟨c, digits, rfl⟩ := List.exists_cons_of_ne_nil hne
  have hc : isDigit c = true := h c List.mem_cons_self
  have halnum : ∀ d ∈ c :: digits, isAlphanumeric d = true := by
    intro d hd
    rw [isAlphanumeric, h d hd, Bool.or_true]
  have hmarked : markedNumber? (c :: digits) = none := by
    cases digits with
    | nil => rfl
    | cons d digits =>
      rw [markedNumber?, radixDigits?_of_isDigit (h d (by simp))]
      simp
  have hdigit : digitNumber? (c :: digits) = some (c :: digits, []) := by
    have haccept : ((c :: digits).all isDigit || isSuffixedHex (c :: digits)) = true := by
      rw [List.all_eq_true.2 h, Bool.true_or]
    have hdrop : ((c :: digits) ++ []).dropWhile isAlphanumeric = [] :=
      List.dropWhile_append_of_pos halnum
    have htake : ((c :: digits) ++ []).takeWhile isAlphanumeric = (c :: digits) ++ [] :=
      List.takeWhile_append_of_pos halnum
    rw [List.append_nil] at hdrop htake
    rw [digitNumber?, if_pos hc]
    simp only [run?, htake, hdrop]
    rw [if_pos haccept, List.nil_append]
  rw [number?, hmarked, sigilNumber?_of_isDigit hc, hdigit]
  rfl

namespace Token.Plain

variable {t : Token} {s : Text}

theorem ne_nil (h : t.Plain) : t.text ≠ [] := by
  cases t with
  | number text => exact h.1
  | name text =>
    rintro rfl
    exact absurd h (by simp [Plain, Lexeme.identifier?])
  | quoted text =>
    rintro rfl
    exact absurd h.1 (by simp [Lexeme.quoted?])
  | byte c => exact List.cons_ne_nil c []

/-- Where a plain token stands it is found, if no word goes on behind it. -/
theorem tokenAt (h : t.Plain) (hs : t.isWord = true → Delimited s) : TokenAt (t.text ++ s) t s := by
  cases t with
  | number text =>
    refine .number ((Lexeme.number?_tail (hs rfl) h.ne_nil).trans ?_)
    rw [show Lexeme.number? (Token.number text).text = some (text, []) from
      Lexeme.number?_digits h.1 h.2]
    rfl
  | name text =>
    have hname : Lexeme.identifier? (text ++ s) = some (text, s) := by
      refine (Lexeme.identifier?_tail (hs rfl) h.ne_nil).trans ?_
      rw [show Lexeme.identifier? (Token.name text).text = some (text, []) from h]
      rfl
    exact .name (Lexeme.number?_of_identifier? hname) hname
  | quoted text =>
    have hquoted := Lexeme.quoted?_tail h.1 h.2.1 s
    obtain ⟨quote, inner, heq, hquote, -⟩ := Lexeme.quoted?_eq_some hquoted
    obtain ⟨hdigit, hsigil, hstart⟩ := not_name_of_isQuote hquote
    refine .quoted ?_ ?_ hquoted
    · rw [Token.text, heq]
      exact Lexeme.number?_none hdigit hsigil inner
    · rw [Token.text, heq]
      exact Lexeme.identifier?_none hstart inner
  | byte c =>
    obtain ⟨hword, hquote, -, -⟩ := not_word_of_isPlain h
    rw [isWordByte, Bool.or_eq_false_iff] at hword
    have hdigit : isDigit c = false :=
      Bool.eq_false_iff.2 fun hc => absurd (isIdentChar_of_isDigit hc) (by simp [hword.1])
    have hstart : isIdentStart c = false :=
      Bool.eq_false_iff.2 fun hc => absurd (isIdentChar_of_isIdentStart hc) (by simp [hword.1])
    exact .byte (Lexeme.number?_none hdigit hword.2 s) (Lexeme.identifier?_none hstart s)
      (by simp [Lexeme.quoted?, hquote])

theorem bytes (h : t.Plain) (ht : t.isWord = true) : ∀ c ∈ t.text, isIdentChar c = true := by
  cases t with
  | number text => exact fun c hc => isIdentChar_of_isDigit (h.2 c hc)
  | name text => exact Lexeme.identifier?_bytes h
  | quoted text => exact absurd ht Bool.false_ne_true
  | byte c => exact absurd ht Bool.false_ne_true

/-- A closed string has its quote at both ends. -/
theorem quotes {text : Text} (h : (quoted text).Plain) :
    ∃ quote, isQuote quote = true ∧ text.head? = some quote ∧ text.getLast? = some quote := by
  obtain ⟨hquoted, hclosed, -⟩ := h
  obtain ⟨quote, inner, -, hquote, rfl, -⟩ := Lexeme.quoted?_eq_some hquoted
  rw [Quoting.after_cons, Quoting.next, if_pos hquote] at hclosed
  refine ⟨quote, hquote, rfl, ?_⟩
  rw [List.getLast?_cons, Lexeme.getLast?_closeQuote hclosed]
  rfl

/-- A plain token begins with neither a sigil nor the end of a statement. -/
theorem head (h : t.Plain) :
    ∃ c r, t.text = c :: r ∧ isSigil c = false ∧ c ≠ semicolon ∧ c ≠ newline := by
  obtain ⟨c, r, hcons⟩ := List.exists_cons_of_ne_nil h.ne_nil
  refine ⟨c, r, hcons, ?_⟩
  by_cases hword : t.isWord = true
  · have hc := h.bytes hword c (hcons ▸ List.mem_cons_self)
    obtain ⟨-, hsemicolon, -, -, -, hnewline⟩ :=
      not_special_of_isWordByte (isWordByte_of_isIdentChar hc)
    exact ⟨not_sigil_of_isIdentChar hc, hsemicolon, hnewline⟩
  · cases t with
    | number text => exact absurd rfl hword
    | name text => exact absurd rfl hword
    | quoted text =>
      obtain ⟨quote, hquote, hhead, -⟩ := h.quotes
      obtain rfl : c = quote := by
        rw [show text = c :: r from hcons] at hhead
        exact Option.some.inj hhead
      exact ⟨(not_name_of_isQuote hquote).2.1, ne_of_class hquote (by decide),
        ne_of_class hquote (by decide)⟩
    | byte d =>
      obtain ⟨rfl, -⟩ := List.cons.inj hcons
      obtain ⟨hnone, -, hsemicolon, hnewline⟩ := not_word_of_isPlain h
      rw [isWordByte, Bool.or_eq_false_iff] at hnone
      exact ⟨hnone.2, hsemicolon, hnewline⟩

/-- Only white space begins and ends with white space. -/
theorem ends (h : t.Plain) (ht : t.isSpace = false) :
    (∀ c ∈ t.text.head?, Byte.isSpace c = false) ∧
      ∀ c ∈ t.text.getLast?, Byte.isSpace c = false := by
  by_cases hword : t.isWord = true
  · have hbytes (c : Byte) (hc : c ∈ t.text) : Byte.isSpace c = false :=
      not_space_of_isIdentChar (h.bytes hword c hc)
    exact ⟨fun c hc => hbytes c (List.mem_of_mem_head? hc),
      fun c hc => hbytes c (List.mem_of_mem_getLast? hc)⟩
  · cases t with
    | number text => exact absurd rfl hword
    | name text => exact absurd rfl hword
    | quoted text =>
      obtain ⟨quote, hquote, hhead, hlast⟩ := h.quotes
      have hspace := not_space_of_isQuote hquote
      exact ⟨fun c hc => Option.some.inj (hhead.symm.trans hc) ▸ hspace,
        fun c hc => Option.some.inj (hlast.symm.trans hc) ▸ hspace⟩
    | byte d =>
      have hd : ∀ c ∈ some d, Byte.isSpace c = false := by
        rintro c ⟨⟩
        exact ht
      exact ⟨hd, hd⟩

end Token.Plain

/-! ### Plain texts -/

namespace PlainText

variable {t : Token} {ts : List Token} {tail : Text}

theorem first (h : PlainText (t :: ts)) : t.Plain := h.plain t List.mem_cons_self

theorem sub {us : List Token} (h : PlainText ts) (hs : us <:+: ts) : PlainText us :=
  ⟨fun t ht => h.plain t (hs.subset ht), List.IsChain.infix h.apart hs⟩

theorem others (h : PlainText (t :: ts)) : PlainText ts := h.sub (List.suffix_cons t ts).isInfix

/-- What follows a word in a plain text delimits it. -/
theorem delimited (h : PlainText (t :: ts)) (ht : t.isWord = true) (htail : Delimited tail) :
    Delimited (spell ts ++ tail) := by
  cases ts with
  | nil => exact htail
  | cons u us =>
    have hu : u.isWord = false := by
      have happart := (List.isChain_cons_cons.1 h.apart).1
      simpa [ht] using happart
    have hplain := h.others.first
    intro c hc
    cases u with
    | number text => exact absurd hu (by simp [Token.isWord])
    | name text => exact absurd hu (by simp [Token.isWord])
    | quoted text =>
      obtain ⟨quote, hquote, hhead, -⟩ := hplain.quotes
      obtain ⟨inner, rfl⟩ := List.head?_eq_some_iff.1 hhead
      obtain rfl : quote = c := by simpa [Token.text] using hc
      exact not_identChar_of_isQuote hquote
    | byte d =>
      obtain rfl : d = c := by simpa [Token.text] using hc
      have hword := (not_word_of_isPlain hplain).1
      rw [isWordByte, Bool.or_eq_false_iff] at hword
      exact hword.1

theorem tokenAt (h : PlainText (t :: ts)) (htail : Delimited tail) :
    TokenAt (spell (t :: ts) ++ tail) t (spell ts ++ tail) := by
  rw [spell_cons, List.append_assoc]
  exact h.first.tokenAt fun ht => h.delimited ht htail

/-- **A plain text is read as it was put together.** -/
theorem tokens_spell (h : PlainText ts) : tokens (spell ts) = ts := by
  induction ts with
  | nil => exact tokens_nil
  | cons t ts ih =>
    have hat := h.tokenAt delimited_nil
    rw [List.append_nil, List.append_nil] at hat
    rw [tokens_of hat, ih h.others]

end PlainText

/-! ### White space at the ends -/

theorem Text.skipBlanks_skipBlanks (s : Text) : skipBlanks (skipBlanks s) = skipBlanks s :=
  List.dropWhile_idempotent _ s

/-- The text without the white space at either end. -/
def Text.trim (s : Text) : Text := chomp (skipBlanks s)

/-- The tokens without the white space at either end. -/
def trimmed (ts : List Token) : List Token := (ts.dropWhile Token.isSpace).rdropWhile Token.isSpace

namespace PlainText

variable {ts : List Token} {tail : Text}

theorem trimmed (h : PlainText ts) : PlainText (AsmPrep.trimmed ts) :=
  h.sub ((List.rdropWhile_prefix _ _).isInfix.trans (List.dropWhile_suffix _).isInfix)

theorem skipBlanks_spell (h : PlainText ts) (htail : ∀ c ∈ tail.head?, isBlank c = false) :
    skipBlanks (spell ts ++ tail) = spell (ts.dropWhile Token.isSpace) ++ tail := by
  induction ts with
  | nil => exact dropWhile_tail htail []
  | cons t ts ih =>
    by_cases hspace : t.isSpace = true
    · cases t with
      | byte c =>
        have hblank : isBlank c = true := by
          have hnewline := (not_word_of_isPlain h.first).2.2.2
          rw [isBlank, bne_iff_ne.2 hnewline, Bool.true_and]
          exact hspace
        rw [List.dropWhile_cons_of_pos hspace, ← ih h.others]
        exact List.dropWhile_cons_of_pos hblank
      | number text => exact absurd hspace Bool.false_ne_true
      | name text => exact absurd hspace Bool.false_ne_true
      | quoted text => exact absurd hspace Bool.false_ne_true
    · obtain ⟨c, r, hcons, -⟩ := h.first.head
      have hc := (h.first.ends (by simpa using hspace)).1 c (by rw [hcons]; rfl)
      have hblank : ¬ isBlank c = true := by simp [isBlank, hc]
      rw [List.dropWhile_cons_of_neg hspace, spell_cons, hcons]
      exact List.dropWhile_cons_of_neg hblank

theorem skipBlanks_spell_alone (h : PlainText ts) :
    skipBlanks (spell ts) = spell (ts.dropWhile Token.isSpace) := by
  have hskip : skipBlanks (spell ts ++ []) = spell (ts.dropWhile Token.isSpace) ++ [] :=
    h.skipBlanks_spell fun c hc => absurd hc (by simp)
  rwa [List.append_nil, List.append_nil] at hskip

theorem chomp_spell (h : PlainText ts) :
    chomp (spell ts) = spell (ts.rdropWhile Token.isSpace) := by
  show (spell ts).rdropWhile Byte.isSpace = _
  induction ts using List.reverseRecOn with
  | nil => rfl
  | append_singleton ts t ih =>
    have hfront : PlainText ts := h.sub (List.prefix_append ts [t]).isInfix
    have hlast : t.Plain := h.plain t (by simp)
    rw [spell_append]
    by_cases hspace : t.isSpace = true
    · cases t with
      | byte c =>
        rw [List.rdropWhile_concat_pos Token.isSpace ts _ hspace, ← ih hfront]
        exact List.rdropWhile_concat_pos Byte.isSpace (spell ts) c hspace
      | number text => exact absurd hspace Bool.false_ne_true
      | name text => exact absurd hspace Bool.false_ne_true
      | quoted text => exact absurd hspace Bool.false_ne_true
    · rw [List.rdropWhile_concat_neg Token.isSpace ts _ hspace, spell_append]
      obtain ⟨front, c, hcons⟩ := (List.eq_nil_or_concat t.text).resolve_left hlast.ne_nil
      have hc := (hlast.ends (by simpa using hspace)).2 c (by rw [hcons]; simp)
      rw [spell_cons, spell_nil, List.append_nil, hcons, List.concat_eq_append, ← List.append_assoc]
      exact List.rdropWhile_concat_neg Byte.isSpace _ c (by simp [hc])

/-- Taking white space off a plain text takes tokens off. -/
theorem trim_spell (h : PlainText ts) : trim (spell ts) = spell (AsmPrep.trimmed ts) := by
  rw [trim, h.skipBlanks_spell_alone, AsmPrep.trimmed]
  exact chomp_spell (h.sub (List.dropWhile_suffix _).isInfix)

end PlainText

end AsmPrep
