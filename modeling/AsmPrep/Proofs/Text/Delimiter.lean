/-
Reading up to a delimiter.

A delimiter is a byte that no name and no number goes on with.  So it makes no difference to
the names and numbers before it which one it is, and whether it is there at all: what is read
from a text is read from it where a delimiter follows, too, with that behind what is left.
-/
import AsmPrep.Proofs.Text.Lexeme
import Mathlib.Data.List.TakeWhile

namespace AsmPrep

/-! ### Classes of bytes -/

namespace Byte

variable {c : Byte}

/-- Whether a token may begin with the byte. -/
def beginsToken (c : Byte) : Bool := isDigit c || isSigil c || isIdentStart c || isQuote c

/-- Whether a name or a number may have the byte in it. -/
def isWordByte (c : Byte) : Bool := isIdentChar c || isSigil c

/-- Bytes that a class tells apart are different. -/
theorem ne_of_class {p : Byte → Bool} {d : Byte} (hc : p c = true) (hd : p d = false) : c ≠ d := by
  rintro rfl
  exact absurd (hd.symm.trans hc) Bool.false_ne_true

theorem isAlphanumeric_of_not_identChar (h : isIdentChar c = false) : isAlphanumeric c = false := by
  unfold isIdentChar at h
  exact (Bool.or_eq_false_iff.1 h).1

theorem isIdentChar_of_isHexDigit (h : isHexDigit c = true) : isIdentChar c = true := by
  unfold isHexDigit isDigit at h
  unfold isIdentChar isAlphanumeric isLetter isUpper isLower isDigit
  simp only [Bool.or_eq_true, Bool.and_eq_true, decide_eq_true_eq, beq_iff_eq] at h ⊢
  grind

theorem isHexDigit_of_isOctalDigit (h : isOctalDigit c = true) : isHexDigit c = true := by
  unfold isOctalDigit at h
  unfold isHexDigit isDigit
  simp only [Bool.or_eq_true, Bool.and_eq_true, decide_eq_true_eq] at h ⊢
  grind

theorem isHexDigit_of_isBinaryDigit (h : isBinaryDigit c = true) : isHexDigit c = true := by
  unfold isBinaryDigit at h
  simp only [Bool.or_eq_true, beq_iff_eq] at h
  rcases h with rfl | rfl <;> decide

theorem isIdentChar_of_isIdentStart (h : isIdentStart c = true) : isIdentChar c = true := by
  unfold isIdentStart at h
  unfold isIdentChar isAlphanumeric
  simp only [Bool.or_eq_true] at h ⊢
  exact h.imp_left .inl

theorem isIdentChar_of_isAlphanumeric (h : isAlphanumeric c = true) : isIdentChar c = true := by
  simp [isIdentChar, h]

theorem isWordByte_of_isIdentChar (h : isIdentChar c = true) : isWordByte c = true := by
  simp [isWordByte, h]

theorem isIdentChar_of_isDigit (h : isDigit c = true) : isIdentChar c = true := by
  simp [isIdentChar, isAlphanumeric, h]

theorem isBlank_cases (h : isBlank c = true) :
    c = tab ∨ c = formFeed ∨ c = carriageReturn ∨ c = space := by
  unfold isBlank isSpace at h
  simp only [Bool.and_eq_true, Bool.or_eq_true, beq_iff_eq, bne_iff_ne] at h
  rcases h.2 with (((htab | hnewline) | hfeed) | hreturn) | hspace
  · exact .inl htab
  · exact absurd hnewline h.1
  · exact .inr (.inl hfeed)
  · exact .inr (.inr (.inl hreturn))
  · exact .inr (.inr (.inr hspace))

theorem not_beginsToken_of_isBlank (h : isBlank c = true) : beginsToken c = false := by
  rcases isBlank_cases h with rfl | rfl | rfl | rfl <;> decide

theorem not_sigil_of_isIdentChar (h : isIdentChar c = true) : isSigil c = false := by
  refine Bool.eq_false_iff.2 fun hc => ?_
  unfold isSigil at hc
  simp only [Bool.or_eq_true, beq_iff_eq] at hc
  rcases hc with (((rfl | rfl) | rfl) | rfl) | rfl <;> exact absurd h (by decide)

theorem not_space_of_isIdentChar (h : isIdentChar c = true) : isSpace c = false := by
  refine Bool.eq_false_iff.2 fun hc => ?_
  unfold isSpace at hc
  simp only [Bool.or_eq_true, beq_iff_eq] at hc
  rcases hc with (((rfl | rfl) | rfl) | rfl) | rfl <;> exact absurd h (by decide)

theorem not_space_of_isWordByte (h : isWordByte c = true) : isSpace c = false := by
  have hne (d : Byte) (hd : isWordByte d = false) : (c == d) = false :=
    beq_false_of_ne (ne_of_class h hd)
  simp [isSpace, hne tab (by decide), hne newline (by decide), hne formFeed (by decide),
    hne carriageReturn (by decide), hne space (by decide)]

theorem not_identChar_of_isQuote (h : isQuote c = true) : isIdentChar c = false := by
  unfold isQuote at h
  simp only [Bool.or_eq_true, beq_iff_eq] at h
  rcases h with rfl | rfl <;> decide

theorem not_space_of_isQuote (h : isQuote c = true) : isSpace c = false := by
  unfold isQuote at h
  simp only [Bool.or_eq_true, beq_iff_eq] at h
  rcases h with rfl | rfl <;> decide

theorem not_number_of_isIdentStart (h : isIdentStart c = true) :
    isDigit c = false ∧ isSigil c = false := by
  unfold isIdentStart isLetter isUpper isLower at h
  unfold isDigit isSigil
  simp only [Bool.or_eq_true, Bool.and_eq_true, decide_eq_true_eq, beq_iff_eq] at h
  constructor
  · grind
  · grind

theorem not_name_of_isQuote (h : isQuote c = true) :
    isDigit c = false ∧ isSigil c = false ∧ isIdentStart c = false := by
  unfold isQuote at h
  simp only [Bool.or_eq_true, beq_iff_eq] at h
  rcases h with rfl | rfl <;> decide

/-- The bytes of names and numbers mean nothing by themselves. -/
theorem not_special_of_isWordByte (h : isWordByte c = true) :
    isQuote c = false ∧ c ≠ semicolon ∧ c ≠ backslash ∧ c ≠ question ∧ c ≠ colon ∧
      c ≠ newline := by
  have hne (d : Byte) (hd : isWordByte d = false) : c ≠ d := ne_of_class h hd
  refine ⟨?_, hne _ (by decide), hne _ (by decide), hne _ (by decide), hne _ (by decide),
    hne _ (by decide)⟩
  rw [isQuote, beq_false_of_ne (hne _ (by decide)), beq_false_of_ne (hne _ (by decide))]
  rfl

end Byte

open Byte

/-! ### What follows a text -/

/-- What was found in a text, when `tail` follows the text. -/
def followed {α : Type} (tail : Text) (found : α × Text) : α × Text := (found.1, found.2 ++ tail)

namespace Text

variable {p : Byte → Bool} {tail : Text}

/-- The text is empty or begins with a delimiter. -/
def Delimited (tail : Text) : Prop := ∀ c ∈ tail.head?, isIdentChar c = false

theorem delimited_nil : Delimited [] := fun _ hc => absurd hc (by simp)

theorem delimited_cons {c : Byte} {r : Text} : Delimited (c :: r) ↔ isIdentChar c = false := by
  simp [Delimited]

theorem takeWhile_tail (hp : ∀ c ∈ tail.head?, p c = false) (s : Text) :
    (s ++ tail).takeWhile p = s.takeWhile p := by
  induction s with
  | nil =>
    cases tail with
    | nil => rfl
    | cons c r => simp [hp c rfl]
  | cons c s ih =>
    rw [List.cons_append]
    by_cases hc : p c = true
    · rw [List.takeWhile_cons_of_pos hc, List.takeWhile_cons_of_pos hc, ih]
    · rw [List.takeWhile_cons_of_neg hc, List.takeWhile_cons_of_neg hc]

theorem dropWhile_tail (hp : ∀ c ∈ tail.head?, p c = false) (s : Text) :
    (s ++ tail).dropWhile p = s.dropWhile p ++ tail := by
  induction s with
  | nil =>
    cases tail with
    | nil => rfl
    | cons c r => simp [hp c rfl]
  | cons c s ih =>
    rw [List.cons_append]
    by_cases hc : p c = true
    · rw [List.dropWhile_cons_of_pos hc, List.dropWhile_cons_of_pos hc, ih]
    · rw [List.dropWhile_cons_of_neg hc, List.dropWhile_cons_of_neg hc, List.cons_append]

theorem skipBlanks_blanks {blanks : Text} (h : ∀ c ∈ blanks, isBlank c = true) (s : Text) :
    skipBlanks (blanks ++ s) = skipBlanks s :=
  List.dropWhile_append_of_pos h

theorem skipBlanks_eq_self {s : Text} (h : ∀ c ∈ s.head?, isBlank c = false) :
    skipBlanks s = s := by
  cases s with
  | nil => rfl
  | cons c s => exact List.dropWhile_cons_of_neg (by simp [h c rfl])

theorem delimited_of_blanks {blanks s : Text} (h : ∀ c ∈ blanks, isBlank c = true)
    (hs : blanks = [] → Delimited s) : Delimited (blanks ++ s) := by
  cases blanks with
  | nil => exact hs rfl
  | cons c blanks =>
    have hc := h c List.mem_cons_self
    refine delimited_cons.2 (Bool.eq_false_iff.2 fun hident => ?_)
    rw [isBlank, not_space_of_isIdentChar hident, Bool.and_false] at hc
    exact absurd hc Bool.false_ne_true

/-- What is no blank does not begin a text behind blanks. -/
theorem head?_blanks_ne {blanks s : Text} {c : Byte} (h : ∀ c ∈ blanks, isBlank c = true)
    (hc : isBlank c = false) (hs : blanks = [] → s.head? ≠ some c) :
    (blanks ++ s).head? ≠ some c := by
  cases blanks with
  | nil => exact hs rfl
  | cons b blanks =>
    rintro ⟨⟩
    exact absurd (hc.symm.trans (h c List.mem_cons_self)) Bool.false_ne_true

theorem skipBlanks_tail {s : Text} (hs : skipBlanks s ≠ []) (tail : Text) :
    skipBlanks (s ++ tail) = skipBlanks s ++ tail := by
  unfold skipBlanks at hs ⊢
  rw [List.dropWhile_append, if_neg (by rwa [List.isEmpty_iff])]

end Text

namespace Lexeme

open Text

variable {tail : Text}

/-! ### Names -/

theorem identifier?_none {c : Byte} (hc : isIdentStart c = false) (s : Text) :
    identifier? (c :: s) = none := by
  rw [identifier?, if_neg (by simp [hc])]

theorem identifier?_eq_some {s text rest : Text}
    (h : identifier? s = some (text, rest)) :
    ∃ c bare, text = c :: bare ∧ isIdentStart c = true ∧ s = c :: (bare ++ rest) := by
  have happend := identifier?_append h
  cases s with
  | nil => exact absurd h (by simp [identifier?])
  | cons c s =>
    rw [identifier?] at h
    split at h
    · rename_i hc
      obtain ⟨rfl, -⟩ := Prod.mk.inj (Option.some.inj h)
      exact ⟨c, _, rfl, hc, happend.symm⟩
    · exact absurd h (by simp)

/-- An identifier is all there is of it. -/
theorem identifier?_takeWhile {s text rest : Text} (h : identifier? s = some (text, rest)) :
    text = s.takeWhile isIdentChar := by
  cases s with
  | nil => exact absurd h (by simp [identifier?])
  | cons c s =>
    rw [identifier?] at h
    split at h
    · rename_i hc
      rw [List.takeWhile_cons_of_pos (isIdentChar_of_isIdentStart hc)]
      exact (Prod.mk.inj (Option.some.inj h)).1.symm
    · exact absurd h (by simp)

theorem identifier?_delimited (h : Delimited tail) : identifier? tail = none := by
  cases tail with
  | nil => rfl
  | cons c r =>
    refine identifier?_none (Bool.eq_false_iff.2 ?_) r
    intro hc
    exact absurd (isIdentChar_of_isIdentStart hc) (by simp [h c rfl])

theorem identifier?_tail (h : Delimited tail) {s : Text} (hs : s ≠ []) :
    identifier? (s ++ tail) = (identifier? s).map (followed tail) := by
  obtain ⟨c, r, rfl⟩ := List.exists_cons_of_ne_nil hs
  rw [List.cons_append, identifier?, identifier?, takeWhile_tail h, dropWhile_tail h]
  split
  · rfl
  · rfl

theorem identifier?_bytes {s lexeme rest : Text} (h : identifier? s = some (lexeme, rest)) :
    ∀ c ∈ lexeme, isIdentChar c = true := by
  cases s with
  | nil => exact absurd h (by simp [identifier?])
  | cons c s =>
    rw [identifier?] at h
    split at h
    · rename_i hc
      obtain ⟨rfl, -⟩ := Prod.mk.inj (Option.some.inj h)
      rw [List.forall_mem_cons]
      exact ⟨isIdentChar_of_isIdentStart hc, List.all_eq_true.1 List.all_takeWhile⟩
    · exact absurd h (by simp)

/-- An identifier ends where no other could go on. -/
theorem identifier?_alone {s text rest : Text} (h : identifier? s = some (text, rest)) :
    identifier? text = some (text, []) ∧ Delimited rest := by
  cases s with
  | nil => exact absurd h (by simp [identifier?])
  | cons c s =>
    rw [identifier?] at h
    split at h
    · rename_i hc
      obtain ⟨rfl, rfl⟩ := Prod.mk.inj (Option.some.inj h)
      have hall : ∀ d ∈ s.takeWhile isIdentChar, isIdentChar d = true :=
        List.all_eq_true.1 List.all_takeWhile
      refine ⟨?_, fun d hd => ?_⟩
      · rw [identifier?, if_pos hc, List.takeWhile_eq_self_iff.2 hall,
          List.dropWhile_eq_nil_iff.2 hall]
      · have hnot := List.head?_dropWhile_not isIdentChar s
        rw [show (s.dropWhile isIdentChar).head? = some d from hd] at hnot
        exact hnot
    · exact absurd h (by simp)

theorem name?_tail (h : Delimited tail) {s : Text} (hs : s ≠ []) :
    name? (s ++ tail) = (name? s).map (followed tail) := by
  match s with
  | [] => exact absurd rfl hs
  | [c] =>
    rw [List.singleton_append, name?, name?]
    split
    · -- A sigil alone is no name, whatever delimiter follows.
      rw [identifier?_delimited h]
      rfl
    · exact identifier?_tail h (List.cons_ne_nil c [])
  | c :: d :: s =>
    rw [List.cons_append, name?, name?]
    split
    · rw [identifier?_tail h (List.cons_ne_nil d s), Option.map_map, Option.map_map]
      rfl
    · exact identifier?_tail h (List.cons_ne_nil c (d :: s))

theorem name?_alone {s text rest : Text} (h : name? s = some (text, rest)) :
    name? text = some (text, []) ∧ Delimited rest := by
  cases s with
  | nil => exact absurd h (by simp [name?])
  | cons c s =>
    rw [name?] at h
    split at h
    · rename_i hc
      obtain ⟨⟨bare, rest'⟩, hbare, heq⟩ := Option.map_eq_some_iff.1 h
      obtain ⟨rfl, rfl⟩ := Prod.mk.inj heq
      obtain ⟨halone, hrest⟩ := identifier?_alone hbare
      refine ⟨?_, hrest⟩
      rw [name?, if_pos hc, halone]
      rfl
    · rename_i hc
      obtain ⟨halone, hrest⟩ := identifier?_alone h
      obtain ⟨d, bare, rfl, -, hcons⟩ := identifier?_eq_some h
      obtain rfl := (List.cons.inj hcons).1
      refine ⟨?_, hrest⟩
      rw [name?, if_neg hc, halone]

theorem name?_bytes {s lexeme rest : Text} (h : name? s = some (lexeme, rest)) :
    ∀ c ∈ lexeme, isWordByte c = true := by
  have hword {s lexeme rest : Text} (h : identifier? s = some (lexeme, rest)) :
      ∀ c ∈ lexeme, isWordByte c = true :=
    fun c hc => isWordByte_of_isIdentChar (identifier?_bytes h c hc)
  cases s with
  | nil => exact absurd h (by simp [name?])
  | cons c s =>
    rw [name?] at h
    split at h
    · rename_i hc
      obtain ⟨found, hfound, heq⟩ := Option.map_eq_some_iff.1 h
      obtain ⟨rfl, -⟩ := Prod.mk.inj heq
      exact List.forall_mem_cons.2 ⟨by simp [isWordByte, hc], hword hfound⟩
    · exact hword h

/-- A name is no blank, and so is skipped by none. -/
theorem skipBlanks_name {name : Text} (hname : name? name = some (name, [])) (s : Text) :
    Text.skipBlanks (name ++ s) = name ++ s := by
  cases name with
  | nil => exact absurd hname (by simp [name?])
  | cons c name =>
    have hc : ¬ isBlank c = true := by
      intro hblank
      have hnone := not_beginsToken_of_isBlank hblank
      simp only [beginsToken, Bool.or_eq_false_iff] at hnone
      rw [name?, if_neg (by simp [hnone]), identifier?_none hnone.1.2] at hname
      exact absurd hname (by simp)
    exact List.dropWhile_cons_of_neg hc

theorem name?_of_identifier? {s text rest : Text} (h : identifier? s = some (text, rest)) :
    name? s = some (text, rest) := by
  obtain ⟨c, bare, -, hc, rfl⟩ := identifier?_eq_some h
  rw [name?, if_neg (by simp [(not_number_of_isIdentStart hc).2]), h]

/-- An identifier is read as a name where a delimiter follows it. -/
theorem name?_identifier {name : Text} (hname : identifier? name = some (name, []))
    (htail : Delimited tail) : name? (Text.skipBlanks (name ++ tail)) = some (name, tail) := by
  have hread := name?_of_identifier? hname
  have hne : name ≠ [] := by
    rintro rfl
    exact absurd hname (by simp [identifier?])
  rw [skipBlanks_name hread, name?_tail htail hne, hread]
  rfl

/-! ### Words -/

theorem isLetter_of_sameLetters {word spelled : Text} (h : sameLetters spelled word = true)
    (hword : word.all isLower = true) : ∀ c ∈ spelled, isLetter c = true := by
  intro c hc
  have hmem : toLower c ∈ word.map toLower :=
    eq_of_beq (show (spelled.map toLower == word.map toLower) = true from h) ▸
      List.mem_map_of_mem hc
  obtain ⟨d, hd, heq⟩ := List.mem_map.1 hmem
  have hlower : isLower (toLower c) = true := by
    have hd := List.all_eq_true.1 hword d hd
    have hupper : isUpper d = false := by
      unfold isLower at hd
      unfold isUpper
      grind
    rwa [← heq, toLower, if_neg (by simp [hupper])]
  unfold toLower at hlower
  unfold isLetter
  split at hlower
  · simp [*]
  · simp [hlower]

/-- A word of letters is an identifier, in any case of letters. -/
theorem identifier?_spelled {word spelled : Text} (h : sameLetters spelled word = true)
    (hword : word.all isLower = true) (hne : word ≠ []) :
    identifier? spelled = some (spelled, []) := by
  have hletter := isLetter_of_sameLetters h hword
  cases spelled with
  | nil =>
    have hletters := eq_of_beq h
    exact absurd (List.map_eq_nil_iff.1 hletters.symm) hne
  | cons c s =>
    have hs : ∀ d ∈ s, isIdentChar d = true := fun d hd => by
      simp [isIdentChar, isAlphanumeric, hletter d (List.mem_cons_of_mem c hd)]
    rw [identifier?, if_pos (by simp [isIdentStart, hletter c List.mem_cons_self]),
      List.takeWhile_eq_self_iff.2 hs, List.dropWhile_eq_nil_iff.2 hs]

/-- A word in any case of letters is read up to a delimiter. -/
theorem word?_spelled {word spelled rest : Text} (h : sameLetters spelled word = true)
    (hrest : Delimited rest) : word? word (spelled ++ rest) = some rest := by
  have hlength : spelled.length = word.length := by
    have hletters := congrArg List.length (eq_of_beq h)
    rwa [List.length_map, List.length_map] at hletters
  have hend : rest.head?.any isIdentChar = false := by
    cases rest with
    | nil => rfl
    | cons c rest => exact hrest c rfl
  unfold word?
  dsimp only
  rw [← hlength, List.take_left, List.drop_left, h, hend]
  rfl

/-- What is read as a word spells it, and a delimiter follows. -/
theorem word?_eq_some {word s rest : Text} (h : word? word s = some rest) :
    ∃ spelled, s = spelled ++ rest ∧ sameLetters spelled word = true ∧ Delimited rest := by
  unfold word? at h
  dsimp only at h
  split at h
  · rename_i hread
    obtain rfl := Option.some.inj h
    rw [Bool.and_eq_true, Bool.not_eq_true'] at hread
    refine ⟨s.take word.length, (List.take_append_drop _ _).symm, hread.1, fun c hc => ?_⟩
    have hend := hread.2
    rw [show (s.drop word.length).head? = some c from hc] at hend
    exact hend
  · exact absurd h (by simp)

/-- It is no other word. -/
theorem word?_other {word other spelled : Text} (h : sameLetters spelled other = true)
    (hle : word.length ≤ other.length) (hne : sameLetters (other.take word.length) word = false)
    (rest : Text) : word? word (spelled ++ rest) = none := by
  have hlength : spelled.length = other.length := by
    have hletters := congrArg List.length (eq_of_beq h)
    rwa [List.length_map, List.length_map] at hletters
  have hsame : sameLetters ((spelled ++ rest).take word.length) word = false := by
    rw [List.take_append_of_le_length (by omega), ← hne]
    unfold sameLetters at h ⊢
    rw [List.map_take, List.map_take, eq_of_beq h]
  unfold word?
  dsimp only
  rw [hsame]
  rfl

/-! ### Numbers -/

theorem number?_none {c : Byte} (hd : isDigit c = false) (hs : isSigil c = false)
    (s : Text) : number? (c :: s) = none := by
  have hzero : c ≠ zero := by
    rintro rfl
    exact absurd hd (by decide)
  simp only [isSigil, Bool.or_eq_false_iff, beq_eq_false_iff_ne] at hs
  unfold number? markedNumber? sigilNumber? digitNumber?
  cases s with
  | nil => simp [hd]
  | cons d s => simp [hd, hzero, hs]

/-- A digit is no sigil. -/
theorem sigilNumber?_of_isDigit {c : Byte} (hc : isDigit c = true) (s : Text) :
    sigilNumber? (c :: s) = none := by
  have hne (d : Byte) (hd : isDigit d = false) : c ≠ d := ne_of_class hc hd
  cases s with
  | nil => rfl
  | cons d s =>
    simp [sigilNumber?, hne dollar (by decide), hne hash (by decide), hne percent (by decide),
      hne atSign (by decide)]

/-- Where an identifier stands there is no number. -/
theorem number?_of_identifier? {s text rest : Text} (h : identifier? s = some (text, rest)) :
    number? s = none := by
  obtain ⟨c, bare, -, hc, rfl⟩ := identifier?_eq_some h
  obtain ⟨hdigit, hsigil⟩ := not_number_of_isIdentStart hc
  exact number?_none hdigit hsigil _

/-- A radix mark and the digits it announces may stand in an identifier. -/
theorem radixDigits?_identChar {mark : Byte} {digits : Byte → Bool}
    (h : radixDigits? mark = some digits) :
    isIdentChar mark = true ∧ ∀ c, digits c = true → isIdentChar c = true := by
  have hmark (m : Byte) (hm : isLower m = true) (heq : toLower mark = m) :
      isIdentChar mark = true := by
    unfold isIdentChar isAlphanumeric isLetter
    unfold toLower at heq
    split at heq
    · rename_i hupper
      simp [hupper]
    · simp [heq, hm]
  unfold radixDigits? at h
  dsimp only at h
  split at h
  · rename_i heq
    obtain rfl := Option.some.inj h
    exact ⟨hmark _ (by decide) heq, fun c hc => isIdentChar_of_isHexDigit hc⟩
  · split at h
    · rename_i heq
      obtain rfl := Option.some.inj h
      exact ⟨hmark _ (by decide) heq,
        fun c hc => isIdentChar_of_isHexDigit (isHexDigit_of_isBinaryDigit hc)⟩
    · split at h
      · rename_i heq
        obtain rfl := Option.some.inj h
        rw [Bool.or_eq_true, decide_eq_true_eq, decide_eq_true_eq] at heq
        refine ⟨?_, fun c hc => isIdentChar_of_isHexDigit (isHexDigit_of_isOctalDigit hc)⟩
        rcases heq with heq | heq
        · exact hmark _ (by decide) heq
        · exact hmark _ (by decide) heq
      · exact absurd h (by simp)

theorem run?_eq_some {front : Text} {accept : Text → Bool} {s lexeme rest : Text}
    (h : run? front accept s = some (lexeme, rest)) :
    lexeme = front ++ s.takeWhile isAlphanumeric := by
  simp only [run?] at h
  split at h
  · exact (Prod.mk.inj (Option.some.inj h)).1.symm
  · exact absurd h (by simp)

/-- A number is a digit or a sigil, with letters and digits behind it. -/
theorem number?_cons {s lexeme rest : Text} (h : number? s = some (lexeme, rest)) :
    ∃ c digits, lexeme = c :: digits ∧ (isDigit c = true ∨ isSigil c = true) ∧
      ∀ d ∈ digits, isIdentChar d = true := by
  have hrun (s : Text) : ∀ d ∈ s.takeWhile isAlphanumeric, isIdentChar d = true :=
    fun d hd => isIdentChar_of_isAlphanumeric (List.all_eq_true.1 List.all_takeWhile d hd)
  simp only [number?, Option.or_eq_some_iff] at h
  rcases h with h | ⟨-, h | ⟨-, h⟩⟩
  · unfold markedNumber? at h
    split at h
    · split at h
      · rename_i c m s hc
        obtain ⟨digits, hd, hr⟩ := Option.map_eq_some_iff.1 h
        obtain ⟨rfl, -⟩ := Prod.mk.inj hr
        obtain ⟨hm, hdigits⟩ := radixDigits?_identChar hd
        refine ⟨c, _, rfl, .inl (hc ▸ by decide), List.forall_mem_cons.2 ⟨hm, fun d hd => ?_⟩⟩
        exact hdigits d (List.all_eq_true.1 List.all_takeWhile d hd)
      · exact absurd h (by simp)
    · exact absurd h (by simp)
  · unfold sigilNumber? at h
    split at h
    · rename_i c d s
      split at h
      · rename_i hc
        simp only [Bool.and_eq_true, Bool.or_eq_true, decide_eq_true_eq] at hc
        refine ⟨c, _, run?_eq_some h, .inr ?_, hrun _⟩
        rcases hc.1 with rfl | rfl <;> decide
      · split at h
        · rename_i hc
          simp only [Bool.and_eq_true, Bool.or_eq_true, decide_eq_true_eq] at hc
          refine ⟨c, _, run?_eq_some h, .inr ?_, hrun _⟩
          rcases hc.1 with rfl | rfl <;> decide
        · exact absurd h (by simp)
    · exact absurd h (by simp)
  · unfold digitNumber? at h
    split at h
    · split at h
      · rename_i c s hc
        have hlexeme := run?_eq_some h
        have hfirst : isAlphanumeric c = true := by simp [isAlphanumeric, hc]
        rw [List.takeWhile_cons_of_pos hfirst, List.nil_append] at hlexeme
        exact ⟨c, _, hlexeme, .inl hc, hrun s⟩
      · exact absurd h (by simp)
    · exact absurd h (by simp)

theorem number?_bytes {s lexeme rest : Text} (h : number? s = some (lexeme, rest)) :
    ∀ c ∈ lexeme, isWordByte c = true := by
  obtain ⟨c, digits, rfl, hc, hdigits⟩ := number?_cons h
  refine List.forall_mem_cons.2 ⟨?_, fun d hd => isWordByte_of_isIdentChar (hdigits d hd)⟩
  rcases hc with hdigit | hsigil
  · exact isWordByte_of_isIdentChar (isIdentChar_of_isDigit hdigit)
  · simp [isWordByte, hsigil]

theorem run?_tail (h : Delimited tail) (front : Text)
    (accept : Text → Bool) (s : Text) :
    run? front accept (s ++ tail) = (run? front accept s).map (followed tail) := by
  have hrun : ∀ c ∈ tail.head?, isAlphanumeric c = false :=
    fun c hc => isAlphanumeric_of_not_identChar (h c hc)
  simp only [run?, takeWhile_tail hrun, dropWhile_tail hrun]
  split
  · rfl
  · rfl

section Tail

variable (h : Delimited tail)
include h

theorem markedNumber?_tail {s : Text} (hs : s ≠ []) :
    markedNumber? (s ++ tail) = (markedNumber? s).map (followed tail) := by
  match s with
  | [] => exact absurd rfl hs
  | [c] =>
    cases tail with
    | nil => rfl
    | cons d r =>
      have hmark : radixDigits? d = none := by
        cases hm : radixDigits? d with
        | none => rfl
        | some digits => exact absurd (radixDigits?_identChar hm).1 (by simp [h d rfl])
      show (if c = zero then _ else none) = none
      rw [hmark]
      split
      · rfl
      · rfl
  | c :: m :: s =>
    show (if c = zero then _ else none) =
      Option.map (followed tail) (if c = zero then _ else none)
    split
    · rw [Option.map_map]
      cases hm : radixDigits? m with
      | none => rfl
      | some digits =>
        have hdigits : ∀ c ∈ tail.head?, digits c = false := by
          intro c hc
          refine Bool.eq_false_iff.2 ?_
          intro hdigit
          exact absurd ((radixDigits?_identChar hm).2 c hdigit) (by simp [h c hc])
        show some (c :: m :: (s ++ tail).takeWhile digits, (s ++ tail).dropWhile digits) =
          some (c :: m :: s.takeWhile digits, s.dropWhile digits ++ tail)
        rw [takeWhile_tail hdigits, dropWhile_tail hdigits]
    · rfl

theorem sigilNumber?_tail {s : Text} (hs : s ≠ []) :
    sigilNumber? (s ++ tail) = (sigilNumber? s).map (followed tail) := by
  match s with
  | [] => exact absurd rfl hs
  | [c] =>
    cases tail with
    | nil => rfl
    | cons d r =>
      have hhex : isHexDigit d = false := by
        refine Bool.eq_false_iff.2 ?_
        intro hhex
        exact absurd (isIdentChar_of_isHexDigit hhex) (by simp [h d rfl])
      have hbinary : isBinaryDigit d = false := by
        refine Bool.eq_false_iff.2 ?_
        intro hbinary
        exact absurd (isHexDigit_of_isBinaryDigit hbinary) (by simp [hhex])
      rw [List.singleton_append, sigilNumber?, hhex, hbinary, Bool.and_false, Bool.and_false,
        if_neg Bool.false_ne_true, if_neg Bool.false_ne_true]
      rfl
  | c :: d :: s =>
    rw [List.cons_append, List.cons_append, sigilNumber?, sigilNumber?]
    split
    · exact run?_tail h [c] _ (d :: s)
    · split
      · exact run?_tail h [c] _ (d :: s)
      · rfl

theorem digitNumber?_tail {s : Text} (hs : s ≠ []) :
    digitNumber? (s ++ tail) = (digitNumber? s).map (followed tail) := by
  obtain ⟨c, r, rfl⟩ := List.exists_cons_of_ne_nil hs
  rw [List.cons_append, digitNumber?, digitNumber?]
  split
  · exact run?_tail h [] _ (c :: r)
  · rfl

theorem number?_tail {s : Text} (hs : s ≠ []) :
    number? (s ++ tail) = (number? s).map (followed tail) := by
  rw [number?, number?, markedNumber?_tail h hs, sigilNumber?_tail h hs, digitNumber?_tail h hs,
    Option.map_or, Option.map_or]

end Tail

end Lexeme

end AsmPrep
