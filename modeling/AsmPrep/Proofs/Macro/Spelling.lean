/-
Spellings.

A spelling puts a text in double quotes, and a backslash before each double quote in it.  The
backslashes of the text stay as they are, so one that stands before a double quote guards the
backslash that was added and not the quote, and one at the end guards the closing quote.  What a
spelling gives is therefore a string of its own just when an even number of backslashes stands
before each double quote of the text and at its end.
-/
import AsmPrep.Proofs.Text.Quotation
import AsmPrep.Macro.Expansion
import Mathlib.Data.List.DropRight

namespace AsmPrep

open Byte

namespace Text

/-- The number of backslashes that the text ends with. -/
def trailing (s : Text) : Nat := (s.rtakeWhile (· == backslash)).length

/-- Before each double quote of the text and at its end the backslashes come in pairs, so that none
of them guards the quote, or what may follow the text. -/
def Unguarded (s : Text) : Prop :=
  ∀ i ≤ s.length, (∀ c ∈ s[i]?, c = doubleQuote) → trailing (s.take i) % 2 = 0

instance (s : Text) : Decidable (Unguarded s) :=
  inferInstanceAs (Decidable (∀ i ≤ s.length, _ → _))

theorem trailing_concat (s : Text) (c : Byte) :
    trailing (s ++ [c]) = if c = backslash then trailing s + 1 else 0 := by
  unfold trailing
  by_cases hc : c = backslash
  · rw [if_pos hc, List.rtakeWhile_concat_pos _ _ _ (by simpa using hc), List.length_append]
    rfl
  · rw [if_neg hc, List.rtakeWhile_concat_neg _ _ _ (by simpa using hc)]
    rfl

/-- A place in a text is its start or lies behind its first byte. -/
theorem forall_place_cons {P : Nat → Prop} (c : Byte) (s : Text) :
    (∀ i ≤ (c :: s).length, P i) ↔ P 0 ∧ ∀ i ≤ s.length, P (i + 1) := by
  constructor
  · exact fun h => ⟨h 0 (Nat.zero_le _), fun i hi => h (i + 1) (Nat.succ_le_succ hi)⟩
  · rintro ⟨hzero, hsucc⟩ i hi
    cases i with
    | zero => exact hzero
    | succ i => exact hsucc i (Nat.le_of_succ_le_succ hi)

namespace Quoting

/-- The string that the reader is in ends with the text, and not before. -/
def Closes (q : Quoting) (s : Text) : Prop := Enclosed q s ∧ q.after s = outside

variable {q : Quoting} {quote c : Byte} {s : Text}

theorem closes_cons : q.Closes (c :: s) ↔ q ≠ outside ∧ (q.next c).Closes s := by
  simp only [Closes, Enclosed, after_cons, and_assoc]

theorem not_closes_outside : ¬ outside.Closes (c :: s) := fun h => (closes_cons.1 h).1 rfl

/-- Where a reader is who has read that text in a string: the backslashes at its end guard each
other in pairs. -/
def inside (quote : Byte) (before : Text) : Quoting :=
  if trailing before % 2 = 0 then within quote else guarded quote

theorem inside_ne_outside (quote : Byte) (before : Text) : inside quote before ≠ outside := by
  unfold inside
  split <;> simp

theorem inside_backslash (quote : Byte) (before : Text) :
    inside quote (before ++ [backslash]) =
      if trailing before % 2 = 0 then guarded quote else within quote := by
  unfold inside
  rw [trailing_concat, if_pos rfl]
  by_cases heven : trailing before % 2 = 0
  · rw [if_pos heven, if_neg (by omega)]
  · rw [if_neg heven, if_pos (by omega)]

theorem inside_other (quote : Byte) (before : Text) (hc : c ≠ backslash) :
    inside quote (before ++ [c]) = within quote := by
  rw [inside, trailing_concat, if_neg hc, if_pos rfl]

theorem next_inside (hc : c ≠ quote) (before : Text) :
    (inside quote before).next c = inside quote (before ++ [c]) := by
  by_cases hback : c = backslash
  · subst hback
    rw [inside_backslash, inside]
    split
    · rw [next, if_neg hc, if_pos rfl]
    · rfl
  · rw [inside_other quote before hback, inside]
    split
    · rw [next, if_neg hc, if_neg hback]
    · rfl

end Quoting

end Text

namespace Lexeme

open Text Quoting

variable {quote : Byte} {s inner : Text}

/-- The text is one string, whatever follows it. -/
def IsString (s : Text) : Prop := ∀ tail, quoted? (s ++ tail) = some (s, tail)

/-- A string that ends with the text is closed there. -/
theorem closeQuote_of_closes (h : (within quote).Closes s) : closeQuote quote s = (s, []) := by
  fun_induction closeQuote quote s with
  | case1 => rfl
  | case2 c => rfl
  | case3 d s =>
    rw [closes_cons, next, if_pos rfl] at h
    exact absurd h.2 not_closes_outside
  | case4 d s hquote ih =>
    rw [closes_cons, next, if_neg hquote, if_pos rfl, closes_cons] at h
    rw [ih h.2.2]
    rfl
  | case5 c d s hquote hback ih =>
    rw [closes_cons, next, if_neg hquote, if_neg hback] at h
    rw [ih h.2]
    rfl

theorem isString_iff_closes (hquote : isQuote quote = true) :
    IsString (quote :: inner) ↔ (within quote).Closes inner := by
  have hquoted (tail : Text) : quoted? (quote :: inner ++ tail) =
      some ((closeQuote quote (inner ++ tail)).map (quote :: ·) id) := if_pos hquote
  constructor
  · intro h
    -- Something has to follow, for a string that is not closed takes all there is as well.
    have hclose : closeQuote quote (inner ++ [newline]) = (inner, [newline]) := by
      obtain ⟨hlexeme, hrest⟩ := Prod.mk.inj (Option.some.inj ((hquoted [newline]).symm.trans (h _)))
      exact Prod.ext (List.cons.inj hlexeme).2 hrest
    have henclosed := enclosed_closeQuote quote (inner ++ [newline])
    have hafter : (within quote).after (closeQuote quote (inner ++ [newline])).1 = outside :=
      after_closeQuote (by simp [hclose])
    rw [hclose] at henclosed hafter
    exact ⟨henclosed, hafter⟩
  · intro h tail
    have hclose := closeQuote_of_closes h
    rw [hquoted, closeQuote_tail tail (by rw [hclose]; exact h.2), hclose]
    rfl

end Lexeme

namespace Expansion

open Text Quoting Lexeme

/-- The text as it stands in its spelling. -/
def escaped (text : Text) : Text :=
  text.flatMap fun c => if c = doubleQuote then [backslash, c] else [c]

theorem spelling_eq (text : Text) :
    spelling text = doubleQuote :: (escaped text ++ [doubleQuote]) := rfl

/-- The invariant of reading a spelling: the string is closed by the quote at the end if an even
number of backslashes stands before each quote to come, those already read included. -/
theorem closes_escaped (before text : Text) :
    (inside doubleQuote before).Closes (escaped text ++ [doubleQuote]) ↔
      ∀ i ≤ text.length, (∀ c ∈ text[i]?, c = doubleQuote) →
        trailing (before ++ text.take i) % 2 = 0 := by
  induction text generalizing before with
  | nil =>
    rw [show escaped [] ++ [doubleQuote] = [doubleQuote] from rfl, closes_cons, inside]
    by_cases heven : trailing before % 2 = 0
    · simp [heven, next, Closes, Enclosed]
    · simp [heven, next, Closes]
  | cons c text ih =>
    have hbehind := ih (before ++ [c])
    simp only [List.append_assoc, List.singleton_append] at hbehind
    rw [forall_place_cons, List.take_zero, List.append_nil, List.getElem?_cons_zero]
    simp only [List.take_succ_cons, List.getElem?_cons_succ]
    rw [← hbehind]
    by_cases hc : c = doubleQuote
    · -- The quote comes with a backslash, which guards it unless it is guarded itself.
      subst hc
      have hpair : escaped (doubleQuote :: text) = backslash :: doubleQuote :: escaped text := rfl
      rw [hpair, List.cons_append, List.cons_append, closes_cons, closes_cons,
        next_inside (by decide), inside_backslash, inside_other _ _ (by decide)]
      by_cases heven : trailing before % 2 = 0
      · simp [next, heven, inside_ne_outside]
      · have hmore : ¬ outside.Closes (escaped text ++ [doubleQuote]) := by
          cases escaped text with
          | nil => exact not_closes_outside
          | cons d text => exact not_closes_outside
        simp [next, heven, hmore]
    · have hsame : escaped (c :: text) = c :: escaped text := by
        simp [escaped, hc]
      rw [hsame, List.cons_append, closes_cons, next_inside hc]
      simp [inside_ne_outside, hc]

/-- A spelling is one string if no backslash in its text comes to guard what was added to it. -/
theorem isString_spelling_iff (text : Text) : IsString (spelling text) ↔ Unguarded text := by
  rw [spelling_eq, isString_iff_closes (by decide)]
  exact closes_escaped [] text

/-- **What `#` adds is one string just when no backslash of the token's text guards a double
quote in it or the end.** -/
theorem stringize_isString_iff {expander : Expander} {s : Text} {st : State} {out : Buffer}
    {p : Progress s} (h : stringize expander s st out = some p) :
    ∃ token : Progress (skipBlanks s.tail),
      (scanCall expander (skipBlanks s.tail) st {}).or
          (Progress.number (skipBlanks s.tail) st {}) = some token ∧
        p.rest = token.rest ∧ p.state = token.state ∧
        p.out = out.append (spelling token.out.toText) ∧
        (IsString (spelling token.out.toText) ↔ Unguarded token.out.toText) := by
  cases s with
  | nil => exact absurd h (by simp [stringize])
  | cons c s =>
    rw [stringize] at h
    split at h
    · obtain ⟨token, htoken, rfl⟩ := Option.map_eq_some_iff.1 h
      exact ⟨token, htoken, rfl, rfl, rfl, isString_spelling_iff _⟩
    · exact absurd h (by simp)

/-- A table with a macro that stands for that text. -/
def standing (body : Text) : MacroTable :=
  { MacroTable.empty with innermost := [("Q", { body })] }

/-- In `"a\\"` the two backslashes guard each other. -/
theorem stringize_isString_of_pair :
    let t := standing (ofString "\"a\\\\\"")
    ∃ p, stringize (full t) (ofString "# Q") { table := t } {} = some p ∧
      IsString p.out.toText := by
  intro t
  obtain ⟨p, hp⟩ : ∃ p, stringize (full t) (ofString "# Q") { table := t } {} = some p :=
    Option.isSome_iff_exists.1 (by decide +kernel)
  obtain ⟨token, htoken, -, -, hout, hstring⟩ := stringize_isString_iff hp
  have htext : some token.out.toText = some (ofString "\"a\\\\\"") := by
    have hmap := congrArg (Option.map fun q => q.out.toText) htoken
    exact hmap.symm.trans (by decide +kernel)
  refine ⟨p, hp, ?_⟩
  rw [hout, Buffer.toText_append, Buffer.toText_empty, List.nil_append, hstring,
    Option.some.inj htext]
  decide +kernel

/-- In `"a\"b"` the backslash comes to guard the backslash that is added behind it, and the string
ends before the `b`. -/
theorem stringize_not_isString :
    let t := standing (ofString "\"a\\\"b\"")
    ∃ p, stringize (full t) (ofString "# Q") { table := t } {} = some p ∧
      p.out.toText = ofString "\"\\\"a\\\\\"b\\\"\"" ∧ ¬ IsString p.out.toText := by
  intro t
  obtain ⟨p, hp⟩ : ∃ p, stringize (full t) (ofString "# Q") { table := t } {} = some p :=
    Option.isSome_iff_exists.1 (by decide +kernel)
  have htext : p.out.toText = ofString "\"\\\"a\\\\\"b\\\"\"" := by
    have hmap := congrArg (Option.map fun q => q.out.toText) hp
    exact Option.some.inj (hmap.symm.trans (by decide +kernel))
  refine ⟨p, hp, htext, fun hstring => ?_⟩
  have hquoted := hstring []
  rw [htext, List.append_nil] at hquoted
  exact absurd hquoted (by decide +kernel)

end Expansion

end AsmPrep
