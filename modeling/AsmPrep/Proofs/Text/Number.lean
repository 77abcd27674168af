/-
Hexadecimal numbers with a suffix.

A number that begins with a digit is read to the end of its run of letters and digits, and the
run may be hexadecimal when an `h` closes it.  Before that a mark of the radix is looked for
behind a leading zero.  Of these marks `b` is a hexadecimal digit as well, and it wins: the
number is then read as a binary one, which ends at the first other digit, and the rest of the
run is left behind.
-/
import AsmPrep.Text.Scan
import AsmPrep.Proofs.Text.Delimiter
import Mathlib.Data.List.TakeWhile

namespace AsmPrep

open Byte

namespace Byte

variable {c : Byte}

theorem isAlphanumeric_of_isHexDigit (h : isHexDigit c = true) : isAlphanumeric c = true := by
  unfold isHexDigit at h
  unfold isAlphanumeric isLetter isUpper isLower
  simp only [Bool.or_eq_true, Bool.and_eq_true, decide_eq_true_eq] at h ⊢
  grind

theorem isHexDigit_of_isDigit (h : isDigit c = true) : isHexDigit c = true := by
  rw [isHexDigit, h, Bool.true_or, Bool.true_or]

end Byte

namespace Lexeme

variable {first suffix : Byte} {digits rest s : Text}

/-! ### The mark -/

/-- The text begins with a zero and the mark of binary numbers. -/
def BinaryMarked (s : Text) : Prop := s.head? = some zero ∧ s.tail.head?.map toLower = some 98

instance (s : Text) : Decidable (BinaryMarked s) :=
  inferInstanceAs (Decidable (_ ∧ _))

/-- Of the marks of a radix, a hexadecimal number can only have the binary one in it. -/
theorem radixDigits?_of_hex {c : Byte} (h : isHexDigit c = true ∨ toLower c = 104) :
    radixDigits? c = if toLower c = 98 then some isBinaryDigit else none := by
  have hother : toLower c ≠ 120 ∧ toLower c ≠ 111 ∧ toLower c ≠ 113 := by
    unfold isHexDigit isDigit at h
    unfold toLower isUpper at h ⊢
    simp only [Bool.or_eq_true, Bool.and_eq_true, decide_eq_true_eq] at h ⊢
    grind
  unfold radixDigits?
  simp [hother]

/-- Without that mark the leading zero of a hexadecimal number announces nothing. -/
theorem markedNumber?_of_hex {c m : Byte} (hm : isHexDigit m = true ∨ toLower m = 104) (s : Text) :
    markedNumber? (c :: m :: s) =
      if BinaryMarked (c :: m :: s) then
        some (c :: m :: s.takeWhile isBinaryDigit, s.dropWhile isBinaryDigit)
      else none := by
  rw [markedNumber?, radixDigits?_of_hex hm]
  by_cases hc : c = zero
  · by_cases hb : toLower m = 98
    · rw [if_pos hc, if_pos hb, if_pos ⟨congrArg some hc, congrArg some hb⟩]
      rfl
    · rw [if_pos hc, if_neg hb, if_neg fun h => hb (Option.some.inj h.2)]
      rfl
  · rw [if_neg hc, if_neg fun h => hc (Option.some.inj h.1)]

/-! ### The suffix -/

theorem isAlphanumeric_of_suffix (h : toLower suffix = 104) : isAlphanumeric suffix = true := by
  unfold toLower isUpper at h
  unfold isAlphanumeric isLetter isUpper isLower
  simp only [Bool.and_eq_true, Bool.or_eq_true, decide_eq_true_eq] at h ⊢
  grind

section Suffixed

variable (hfirst : isDigit first = true) (hdigits : ∀ d ∈ digits, isHexDigit d = true)
  (hsuffix : toLower suffix = 104)
include hfirst hdigits hsuffix

/-- A run of hexadecimal digits with its suffix is read as a whole. -/
theorem digitNumber?_suffixed (hrest : ∀ c ∈ rest.head?, isAlphanumeric c = false) :
    digitNumber? (first :: (digits ++ [suffix]) ++ rest) =
      some (first :: (digits ++ [suffix]), rest) := by
  have hbytes : ∀ c ∈ first :: (digits ++ [suffix]), isAlphanumeric c = true := by
    intro c hc
    rw [List.mem_cons, List.mem_append, List.mem_singleton] at hc
    rcases hc with rfl | hc | rfl
    · exact isAlphanumeric_of_isHexDigit (isHexDigit_of_isDigit hfirst)
    · exact isAlphanumeric_of_isHexDigit (hdigits c hc)
    · exact isAlphanumeric_of_suffix hsuffix
  have haccept : isSuffixedHex (first :: (digits ++ [suffix])) = true := by
    simpa [isSuffixedHex, hsuffix, isHexDigit_of_isDigit hfirst] using hdigits
  have htake : (first :: (digits ++ [suffix]) ++ rest).takeWhile isAlphanumeric =
      first :: (digits ++ [suffix]) := by
    rw [List.takeWhile_append_of_pos hbytes, show rest.takeWhile isAlphanumeric = [] from
      Text.takeWhile_tail hrest [], List.append_nil]
  have hdrop : (first :: (digits ++ [suffix]) ++ rest).dropWhile isAlphanumeric = rest := by
    rw [List.dropWhile_append_of_pos hbytes]
    exact Text.dropWhile_tail hrest []
  rw [List.cons_append] at htake hdrop ⊢
  rw [digitNumber?, if_pos hfirst]
  simp only [run?, htake, hdrop, haccept, Bool.or_true, if_true, List.nil_append]

/-- What is read of such a run. -/
theorem number?_suffixed (hrest : ∀ c ∈ rest.head?, isAlphanumeric c = false) :
    let run := first :: (digits ++ [suffix])
    number? (run ++ rest) =
      if BinaryMarked run then
        some (run.take 2 ++ (run.drop 2).takeWhile isBinaryDigit,
          (run.drop 2).dropWhile isBinaryDigit ++ rest)
      else some (run, rest) := by
  intro run
  -- The byte behind the first one is a digit or the suffix.
  obtain ⟨m, more, hrun, hm⟩ : ∃ m more, run = first :: m :: more ∧
      (isHexDigit m = true ∨ toLower m = 104) := by
    cases digits with
    | nil => exact ⟨suffix, [], rfl, .inr hsuffix⟩
    | cons d digits => exact ⟨d, digits ++ [suffix], rfl, .inl (hdigits d List.mem_cons_self)⟩
  have hmarked := markedNumber?_of_hex (c := first) hm (more ++ rest)
  have hdigit := digitNumber?_suffixed hfirst hdigits hsuffix hrest
  have hbinary : ∀ c ∈ rest.head?, isBinaryDigit c = false := by
    intro c hc
    refine Bool.eq_false_iff.2 fun hb => ?_
    have halnum := isAlphanumeric_of_isHexDigit (isHexDigit_of_isBinaryDigit hb)
    exact absurd (halnum.symm.trans (hrest c hc)) (by simp)
  rw [Text.takeWhile_tail hbinary, Text.dropWhile_tail hbinary] at hmarked
  rw [show first :: (digits ++ [suffix]) = run from rfl, hrun] at hdigit
  rw [number?, hrun, List.cons_append, List.cons_append, hmarked, sigilNumber?_of_isDigit hfirst,
    Option.none_or]
  by_cases hb : BinaryMarked (first :: m :: more)
  · rw [if_pos hb, if_pos (show BinaryMarked (first :: m :: (more ++ rest)) from hb)]
    rfl
  · rw [if_neg hb, if_neg (show ¬ BinaryMarked (first :: m :: (more ++ rest)) from hb)]
    exact hdigit

end Suffixed

/-- The suffix stands behind the mark. -/
theorem suffix_unread (hsuffix : toLower suffix = 104)
    (h : BinaryMarked (first :: (digits ++ [suffix]))) :
    suffix ∈ (first :: (digits ++ [suffix])).drop 2 := by
  cases digits with
  | nil =>
    have hmark : toLower suffix = 98 := Option.some.inj h.2
    exact absurd (hsuffix.symm.trans hmark) (by decide)
  | cons d digits => simp

end Lexeme

/-- **A run of hexadecimal digits with its suffix is one number, unless it looks like a binary
one.**  Then no more is read than the mark and the binary digits behind it. -/
theorem Scan.number_suffixed {first suffix : Byte} {digits rest : Text} (out : Buffer)
    (hfirst : isDigit first = true) (hdigits : ∀ d ∈ digits, isHexDigit d = true)
    (hsuffix : suffix = 104 ∨ suffix = 72) (hrest : ∀ c ∈ rest.head?, isAlphanumeric c = false) :
    let run := first :: (digits ++ [suffix])
    (number (run ++ rest) out = some (rest, out.append run) ↔ ¬ Lexeme.BinaryMarked run) ∧
      (Lexeme.BinaryMarked run →
        number (run ++ rest) out =
          some ((run.drop 2).dropWhile isBinaryDigit ++ rest,
            out.append (run.take 2 ++ (run.drop 2).takeWhile isBinaryDigit))) := by
  intro run
  have hlower : toLower suffix = 104 := by
    rcases hsuffix with rfl | rfl
    · rfl
    · rfl
  have hbinary : isBinaryDigit suffix = false := by
    rcases hsuffix with rfl | rfl
    · rfl
    · rfl
  have hnumber : Lexeme.number? (run ++ rest) = _ :=
    Lexeme.number?_suffixed hfirst hdigits hlower hrest
  unfold number
  by_cases hb : Lexeme.BinaryMarked run
  · rw [if_pos hb] at hnumber
    rw [hnumber, Option.map_some]
    refine ⟨⟨fun h => ?_, fun h => absurd hb h⟩, fun _ => rfl⟩
    have hrest : (run.drop 2).dropWhile isBinaryDigit ++ rest = rest :=
      congrArg Prod.fst (Option.some.inj h)
    have hall : ∀ c ∈ run.drop 2, isBinaryDigit c = true :=
      List.dropWhile_eq_nil_iff.1 (List.append_left_eq_self.1 hrest)
    exact absurd (hall suffix (Lexeme.suffix_unread hlower hb)) (by simp [hbinary])
  · rw [if_neg hb] at hnumber
    rw [hnumber, Option.map_some]
    exact ⟨⟨fun _ => hb, fun _ => rfl⟩, fun h => absurd h hb⟩

/-- A `b` further on is a digit. -/
theorem Scan.number_suffixed_of_later_mark :
    number (Text.ofString "0F1BH+1") {} =
      some (Text.ofString "+1", ({} : Buffer).append (Text.ofString "0F1BH")) := by
  have hdigits : ∀ d ∈ Text.ofString "F1B", isHexDigit d = true := by decide +kernel
  have hrest : ∀ c ∈ (Text.ofString "+1").head?, isAlphanumeric c = false := by decide +kernel
  have hfirst : isDigit 48 = true := rfl
  exact (number_suffixed {} hfirst hdigits (.inr rfl) hrest).1.2 (by decide +kernel)

/-- One that follows the leading zero is the mark, and the suffix is not read. -/
theorem Scan.number_stops_before_suffix :
    isDigit 48 = true ∧ (∀ d ∈ Text.ofString "b1", isHexDigit d = true) ∧
      number (Text.ofString "0b1h") {} =
        some (Text.ofString "h", ({} : Buffer).append (Text.ofString "0b1")) := by
  refine ⟨by decide, by decide +kernel, ?_⟩
  rfl

end AsmPrep
