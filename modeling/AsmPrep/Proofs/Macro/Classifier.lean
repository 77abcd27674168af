/-
What trying a classifier comes to.

At each place of a text five classifiers are tried: one for numbers, one for strings, one for
paste marks, one for calls and one for spellings.  One that does not match leaves everything as
it was, and one that does moves the cursor on, within the text.  Whether it matches depends on
the text and on which names mean macros, so it is settled before anything is expanded, and
nothing is ever half done.

A number and a string are copied as they stand.  A string goes through the first of its quotes
that no backslash guards, or to the end of the text when there is none.
-/
import AsmPrep.Text.Cursor
import AsmPrep.Proofs.Macro.LineEnd
import AsmPrep.Proofs.Macro.Spelling

namespace AsmPrep

open Byte

/-! ### Moving a cursor -/

namespace Cursor

theorem position_le (c : Cursor) : c.position ≤ c.text.length := by
  rw [position, text, List.length_append, List.length_reverse]
  exact Nat.le_add_right _ _

variable {c : Cursor} {taken rest : Text}

/-- To move to a tail of what is left is to pass what stands before it. -/
theorem moveTo_of_append (h : taken ++ rest = c.rest) :
    c.moveTo rest = ⟨taken.reverse ++ c.passed, rest⟩ := by
  have hlength : c.rest.length - rest.length = taken.length := by
    rw [← h, List.length_append, Nat.add_sub_cancel]
  rw [moveTo, advance, hlength, ← h, List.take_left, List.drop_left]

theorem rest_moveTo (h : taken ++ rest = c.rest) : (c.moveTo rest).rest = rest := by
  rw [moveTo_of_append h]

theorem position_moveTo (h : taken ++ rest = c.rest) :
    (c.moveTo rest).position = c.position + taken.length := by
  rw [moveTo_of_append h, position, List.length_append, List.length_reverse, Nat.add_comm]
  rfl

theorem since_moveTo (h : taken ++ rest = c.rest) : (c.moveTo rest).since c.position = taken := by
  rw [moveTo_of_append h, since, List.reverse_append, List.reverse_reverse, position,
    ← List.length_reverse, List.drop_left]

end Cursor

/-! ### Where a string is closed -/

namespace Text

/-- Each such quote of the text is guarded: the backslashes before it come in pairs but for one. -/
def Guarded (quote : Byte) (s : Text) : Prop :=
  ∀ i, s[i]? = some quote → trailing (s.take i) % 2 = 1

theorem trailing_cons {c : Byte} (hc : c ≠ backslash) (s : Text) :
    trailing (c :: s) = trailing s := by
  induction s using List.reverseRecOn with
  | nil => exact (trailing_concat [] c).trans (if_neg hc)
  | append_singleton s d ih => rw [← List.cons_append, trailing_concat, trailing_concat, ih]

/-- A backslash at the start takes the next byte along, and the backslashes at the end are paired
as before. -/
theorem trailing_pair (c : Byte) (s : Text) :
    trailing (backslash :: c :: s) % 2 = trailing s % 2 := by
  induction s using List.reverseRecOn with
  | nil =>
    have hone : trailing [backslash] = 1 := (trailing_concat [] backslash).trans (if_pos rfl)
    rw [show [backslash, c] = [backslash] ++ [c] from rfl, trailing_concat, hone]
    split
    · rfl
    · rfl
  | append_singleton s d ih =>
    rw [← List.cons_append, ← List.cons_append, trailing_concat, trailing_concat]
    split
    · omega
    · rfl

variable {quote c : Byte} {s : Text}

theorem Guarded.nil (quote : Byte) : Guarded quote [] := fun i h => absurd h (by simp)

theorem Guarded.singleton (hquote : c ≠ quote) : Guarded quote [c]
  | 0, hc => absurd (Option.some.inj hc) hquote
  | i + 1, hi => absurd hi (by simp)

theorem Guarded.cons (hquote : c ≠ quote) (hback : c ≠ backslash) (h : Guarded quote s) :
    Guarded quote (c :: s)
  | 0, hc => absurd (Option.some.inj hc) hquote
  | i + 1, hi => by
    rw [List.take_succ_cons, trailing_cons hback]
    exact h i hi

theorem Guarded.pair (hquote : backslash ≠ quote) (h : Guarded quote s) :
    Guarded quote (backslash :: c :: s)
  | 0, hc => absurd (Option.some.inj hc) hquote
  | 1, _ => (congrArg (· % 2) (trailing_concat [] backslash)).trans (by simp [trailing])
  | i + 2, hi => by
    rw [List.take_succ_cons, List.take_succ_cons, trailing_pair]
    exact h i hi

end Text

namespace Lexeme

open Text

/-- Behind its opening quote a string goes through the first quote that is not guarded, or to the
end of the text when there is none.  Here `body` is what it takes, and `rest` what it leaves. -/
def StringEnds (quote : Byte) (body rest : Text) : Prop :=
  (∃ inner, body = inner ++ [quote] ∧ Guarded quote inner ∧ trailing inner % 2 = 0) ∨
    Guarded quote body ∧ rest = []

theorem closeQuote_ends (quote : Byte) (s : Text) :
    StringEnds quote (closeQuote quote s).1 (closeQuote quote s).2 := by
  fun_induction closeQuote quote s with
  | case1 => exact .inr ⟨.nil quote, rfl⟩
  | case2 c =>
    by_cases hquote : c = quote
    · exact .inl ⟨[], hquote ▸ rfl, .nil quote, rfl⟩
    · exact .inr ⟨.singleton hquote, rfl⟩
  | case3 d s => exact .inl ⟨[], rfl, .nil quote, rfl⟩
  | case4 d s hquote ih =>
    rcases ih with ⟨inner, hbody, hguarded, heven⟩ | ⟨hguarded, hrest⟩
    · exact .inl ⟨backslash :: d :: inner, congrArg (backslash :: d :: ·) hbody,
        hguarded.pair hquote, (trailing_pair d inner).trans heven⟩
    · exact .inr ⟨hguarded.pair hquote, hrest⟩
  | case5 c d s hquote hback ih =>
    rcases ih with ⟨inner, hbody, hguarded, heven⟩ | ⟨hguarded, hrest⟩
    · refine .inl ⟨c :: inner, congrArg (c :: ·) hbody, hguarded.cons hquote hback, ?_⟩
      rwa [trailing_cons hback]
    · exact .inr ⟨hguarded.cons hquote hback, hrest⟩

/-- A string that is scanned is a quote and what goes up to where that closes it. -/
theorem quoted?_ends {s lexeme rest : Text} (h : quoted? s = some (lexeme, rest)) :
    ∃ quote body, isQuote quote = true ∧ lexeme = quote :: body ∧ StringEnds quote body rest := by
  obtain ⟨quote, inner, -, hquote, rfl, rfl⟩ := quoted?_eq_some h
  exact ⟨quote, _, hquote, rfl, closeQuote_ends quote inner⟩

end Lexeme

namespace Expansion

/-! ### The classifiers -/

inductive Classifier where
  | number
  | quoted
  | paste
  | call
  | spell
  deriving DecidableEq, Repr

namespace Classifier

/-- The scanner of a classifier. -/
def scan (expander : Expander) (k : Classifier) (s : Text) (st : State) (out : Buffer) :
    Option (Progress s) :=
  match k with
  | number => Progress.number s st out
  | quoted => Progress.quoted s st out
  | paste => Progress.paste s st out
  | call => scanCall expander s st out
  | spell => stringize expander s st out

/-- What a classifier reads at the start of a text, before it does anything. -/
def item (known : String → Bool) (k : Classifier) (s : Text) : Option (Item × Text) :=
  match k with
  | number => numberItem s
  | quoted => quotedItem s
  | paste => pasteItem s
  | call => nameItem known s
  | spell => spellItem known s

variable {known : String → Bool} {expander : Expander} {k : Classifier} {s : Text} {st : State}
  {out : Buffer} {p : Progress s}

theorem scan_perform (expander : Expander) (k : Classifier) (s : Text) (st : State) (out : Buffer) :
    (k.scan expander s st out).map Progress.parts =
      (k.item st.table.contains s).map fun found => found.1.perform expander found.2 st out := by
  cases k with
  | number => exact number_perform expander s st out
  | quoted => exact quoted_perform expander s st out
  | paste => exact paste_perform expander s st out
  | call => exact scanCall_perform expander s st out
  | spell => exact stringize_perform expander s st out

theorem item_suffix {item : Item} {rest : Text} (h : k.item known s = some (item, rest)) :
    rest <:+ s := by
  cases k with
  | number => exact (numberItem_shorter h).1
  | quoted => exact (quotedItem_shorter h).1
  | paste => exact (pasteItem_shorter h).1
  | call => exact (nameItem_shorter h).1
  | spell => exact (spellItem_shorter h).1

/-- Whether a classifier matches is settled by what it reads. -/
theorem scan_eq_none_iff :
    k.scan expander s st out = none ↔ k.item st.table.contains s = none := by
  rw [← Option.map_eq_none_iff, scan_perform, Option.map_eq_none_iff]

/-- What a classifier leaves is a tail of its text, also where it expands a call. -/
theorem scan_suffix {budget : Nat} (h : k.scan (expand budget) s st out = some p) :
    p.rest <:+ s := by
  have hmap := scan_perform (expand budget) k s st out
  rw [h, Option.map_some] at hmap
  obtain ⟨⟨item, rest⟩, hitem, hdone⟩ := Option.map_eq_some_iff.1 hmap.symm
  have hrest : (item.perform (expand budget) rest st out).1 = p.rest := congrArg Prod.fst hdone
  exact hrest ▸ ((item.perform_held (expand_held budget) rest st out).suffix.trans
    (item_suffix hitem))

end Classifier

/-! ### Trying them at a cursor -/

/-- What a classifier is given and may change. -/
structure Scanning where
  cursor : Cursor
  out : Buffer
  state : State

namespace Scanning

/-- Where scanning stands after a try: a match carries it on, and otherwise it is where it was. -/
def settle (x : Scanning) : Option (Progress x.cursor.rest) → Bool × Scanning
  | none => (false, x)
  | some p => (true, ⟨x.cursor.moveTo p.rest, p.out, p.state⟩)

/-- Tries a classifier: whether it matches, and where scanning stands then. -/
def attempt (x : Scanning) (expander : Expander) (k : Classifier) : Bool × Scanning :=
  x.settle (k.scan expander x.cursor.rest x.state x.out)

/-- The cursor has moved on in its text, and not past the end, and that rest is before it. -/
structure Advances (x : Scanning) (rest : Text) (y : Scanning) : Prop where
  rest : y.cursor.rest = rest
  text : y.cursor.text = x.cursor.text
  forward : x.cursor.position < y.cursor.position
  within : y.cursor.position ≤ x.cursor.text.length

/-- What the cursor has passed was copied, and nothing else was done. -/
structure Copies (x y : Scanning) : Prop where
  out : y.out.toText = x.out.toText ++ y.cursor.since x.cursor.position
  state : y.state = x.state

/-- What the cursor has passed is a string: a quote, and all up to where that quote closes it. -/
def PassesString (x y : Scanning) : Prop :=
  ∃ quote body, isQuote quote = true ∧ y.cursor.since x.cursor.position = quote :: body ∧
    Lexeme.StringEnds quote body y.cursor.rest

variable {x : Scanning} {p : Progress x.cursor.rest} {k : Classifier} {budget : Nat}

theorem advances_of_suffix (hs : p.rest <:+ x.cursor.rest) :
    x.Advances p.rest (x.settle (some p)).2 := by
  obtain ⟨taken, happend⟩ := hs
  have hlength : taken.length + p.rest.length = x.cursor.rest.length :=
    List.length_append.symm.trans (congrArg List.length happend)
  have hposition := Cursor.position_moveTo happend
  have hshorter := p.shorter
  have hforward : x.cursor.position < (x.cursor.moveTo p.rest).position := by omega
  have htext : (x.cursor.moveTo p.rest).text = x.cursor.text := Cursor.text_moveTo _ _
  exact ⟨Cursor.rest_moveTo happend, htext, hforward, htext ▸ Cursor.position_le _⟩

/-- Copying a lexeme. -/
theorem copies_of_append {lexeme : Text} (happend : lexeme ++ p.rest = x.cursor.rest)
    (hout : p.out = x.out.append lexeme) (hstate : p.state = x.state) :
    x.Copies (x.settle (some p)).2 where
  out := by
    show p.out.toText = x.out.toText ++ (x.cursor.moveTo p.rest).since x.cursor.position
    rw [Cursor.since_moveTo happend, hout, Buffer.toText_append]
  state := hstate

/-- **A classifier that does not match leaves everything as it was, and one that matches moves the
cursor on.**  Which of the two it is, its text and the names of macros tell.  A number and a string
are copied, and a string goes to where its quote closes it. -/
theorem attempt_leaves_or_advances (x : Scanning) (budget : Nat) (k : Classifier) :
    (x.attempt (expand budget) k).1 = (k.item x.state.table.contains x.cursor.rest).isSome ∧
      match x.attempt (expand budget) k with
      | (false, y) => y = x
      | (true, y) =>
        (∃ p, k.scan (expand budget) x.cursor.rest x.state x.out = some p ∧
            x.Advances p.rest y) ∧
          (k = .number ∨ k = .quoted → x.Copies y) ∧ (k = .quoted → x.PassesString y) := by
  unfold attempt
  cases h : k.scan (expand budget) x.cursor.rest x.state x.out with
  | none =>
    have hitem := Classifier.scan_eq_none_iff.1 h
    exact ⟨(congrArg Option.isSome hitem).symm, rfl⟩
  | some p =>
    have hitem : (k.item x.state.table.contains x.cursor.rest).isSome = true :=
      Option.isSome_iff_ne_none.2 fun hnone =>
        absurd (h.symm.trans (Classifier.scan_eq_none_iff.2 hnone)) (Option.some_ne_none p)
    refine ⟨hitem.symm, ⟨p, rfl, advances_of_suffix (Classifier.scan_suffix h)⟩, ?_, ?_⟩
    · rintro (rfl | rfl)
      · obtain ⟨lexeme, hfound, hout, hstate⟩ := number_eq_some h
        exact copies_of_append (Lexeme.number?_append hfound) hout hstate
      · obtain ⟨lexeme, hfound, hout, hstate⟩ := quoted_eq_some h
        exact copies_of_append (Lexeme.quoted?_append hfound) hout hstate
    · rintro rfl
      obtain ⟨lexeme, hfound, -, -⟩ := quoted_eq_some h
      have happend := Lexeme.quoted?_append hfound
      obtain ⟨quote, body, hquote, rfl, hends⟩ := Lexeme.quoted?_ends hfound
      refine ⟨quote, body, hquote, Cursor.since_moveTo happend, ?_⟩
      show Lexeme.StringEnds quote body (x.cursor.moveTo p.rest).rest
      rwa [Cursor.rest_moveTo happend]

end Scanning

end Expansion

end AsmPrep
