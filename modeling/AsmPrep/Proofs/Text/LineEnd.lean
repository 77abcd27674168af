/-
Reading at the end of a line.

Whether the text ends or a newline follows makes no difference to what is read before that.
The newline is a delimiter, and it is no blank, so a name, a number or a paste mark is found
where it was found before, with the newline behind what follows it.  A string that is closed is closed
before the newline, too; one that is not would run on over the newline, and a backslash would
guard it, and so neither may be there.
-/
import AsmPrep.Proofs.Text.Line

namespace AsmPrep

open Byte

/-- What was found in a text, when the line ends after the text. -/
def lineEnded {α : Type} (found : α × Text) : α × Text := (found.1, found.2 ++ [newline])

/-- A text has no line end and guards none. -/
def Text.Plain (s : Text) : Prop := ∀ c ∈ s, c ≠ newline ∧ c ≠ backslash

theorem Text.Plain.suffix {s rest : Text} (h : s.Plain) (hs : rest <:+ s) : rest.Plain :=
  fun c hc => h c (hs.subset hc)

namespace Text

theorem delimited_newline : Delimited [newline] := delimited_cons.2 (by decide)

theorem skipBlanks_newline (s : Text) : skipBlanks (s ++ [newline]) = skipBlanks s ++ [newline] :=
  dropWhile_tail (by rintro c ⟨⟩; rfl) s

theorem atEndOfStatement_newline (s : Text) :
    atEndOfStatement (s ++ [newline]) = atEndOfStatement s := by
  cases s with
  | nil => rfl
  | cons c s => rfl

end Text

namespace Lexeme

/-! ### Names and numbers -/

theorem name?_newline (s : Text) : name? (s ++ [newline]) = (name? s).map lineEnded := by
  cases s with
  | nil => rfl
  | cons c s => exact name?_tail Text.delimited_newline (List.cons_ne_nil c s)

theorem number?_newline (s : Text) : number? (s ++ [newline]) = (number? s).map lineEnded := by
  cases s with
  | nil => rfl
  | cons c s => exact number?_tail Text.delimited_newline (List.cons_ne_nil c s)

/-! ### Strings, angle brackets, the paste mark -/

/-- A string that does not take the newline along ends where it would end without it. -/
theorem closeQuote_newline {quote : Byte} {s : Text} (hs : s.Plain)
    (hrest : (closeQuote quote (s ++ [newline])).2 ≠ []) :
    closeQuote quote (s ++ [newline]) = lineEnded (closeQuote quote s) := by
  fun_induction closeQuote quote s with
  | case1 => exact absurd rfl hrest
  | case2 c =>
    rw [List.singleton_append, closeQuote] at hrest ⊢
    split
    · rfl
    · rename_i hquote
      rw [if_neg hquote, if_neg (hs c List.mem_cons_self).2] at hrest
      exact absurd rfl hrest
  | case3 d s =>
    rw [List.cons_append, List.cons_append, closeQuote, if_pos rfl]
    rfl
  | case4 d s hquote => exact absurd rfl (hs _ List.mem_cons_self).2
  | case5 c d s hquote hback ih =>
    rw [List.cons_append, List.cons_append, closeQuote, if_neg hquote, if_neg hback] at hrest ⊢
    have hinner := ih (hs.suffix (List.suffix_cons c _)) hrest
    rw [List.cons_append] at hinner
    rw [hinner]
    rfl

theorem quoted?_newline {s : Text} (hs : s.Plain)
    (hrest : ∀ lexeme, quoted? (s ++ [newline]) ≠ some (lexeme, [])) :
    quoted? (s ++ [newline]) = (quoted? s).map lineEnded := by
  cases s with
  | nil => rfl
  | cons c s =>
    rw [List.cons_append, quoted?] at hrest ⊢
    rw [quoted?]
    split
    · rename_i hc
      rw [if_pos hc] at hrest
      have hopen : (closeQuote c (s ++ [newline])).2 ≠ [] := by
        intro hnil
        exact hrest _ (congrArg some (Prod.ext rfl hnil))
      rw [closeQuote_newline (hs.suffix (List.suffix_cons c s)) hopen]
      rfl
    · rfl

theorem angleText_newline {s : Text} (hs : s.Plain) :
    angleText (s ++ [newline]) = lineEnded (angleText s) := by
  fun_induction angleText s with
  | case1 => rfl
  | case2 c hc =>
    rw [List.singleton_append, angleText, if_pos hc]
    rfl
  | case3 c hc =>
    have hback := (hs c List.mem_cons_self).2
    rw [List.singleton_append, angleText, if_neg hc, if_neg (by simp [hback])]
    rfl
  | case4 c d s hc =>
    rw [List.cons_append, List.cons_append, angleText, if_pos hc]
    rfl
  | case5 c d s hc hback =>
    rw [Bool.and_eq_true, decide_eq_true_iff] at hback
    exact absurd hback.1 (hs c List.mem_cons_self).2
  | case6 c d s hc hback ih =>
    have hinner := ih (hs.suffix (List.suffix_cons c _))
    rw [List.cons_append] at hinner
    rw [List.cons_append, List.cons_append, angleText, if_neg hc, if_neg hback, hinner]
    rfl

theorem paste?_newline (s : Text) :
    paste? (s ++ [newline]) = (paste? s).map (· ++ [newline]) := by
  match s with
  | [] => rfl
  | [c] =>
    have hmark : newline ≠ hash := by decide
    rw [List.singleton_append, paste?, if_neg (by simp [hmark])]
    rfl
  | c :: d :: s =>
    rw [List.cons_append, List.cons_append, paste?, paste?]
    split
    · rw [Text.skipBlanks_newline]
      rfl
    · rfl

end Lexeme

end AsmPrep
