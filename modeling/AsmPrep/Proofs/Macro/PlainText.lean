/-
Scanning plain texts.

A plain text is scanned token by token, as a body and as an argument.  An argument ends where
its own parentheses are closed and a comma or one more parenthesis follows; in between, commas
and parentheses belong to it.
-/
import AsmPrep.Proofs.Macro.Literal
import AsmPrep.Proofs.Macro.Token
import AsmPrep.Proofs.Text.PlainText

namespace AsmPrep.Expansion

open Byte Text

variable {known : String → Bool} {t : Token} {ts : List Token} {tail : Text} {c : Byte}

/-! ### Bodies -/

/-- A plain byte is nothing to a scanner. -/
theorem not_taken_of_isPlain (known : String → Bool) (h : isPlain c = true) (s : Text) :
    bodyItem known (c :: s) = none ∧ argumentItem known (c :: s) = none :=
  not_taken known (not_beginsToken_of_isPlain h) s

/-- The items of a plain body are its tokens. -/
theorem bodyItems_plain (known : String → Bool) (h : PlainText ts) :
    bodyItems known (spell ts) = ts.map (tokenItem known) := by
  induction ts with
  | nil => exact bodyItems_nil known
  | cons t ts ih =>
    obtain ⟨c, r, hcons, hsigil, -⟩ := h.first.head
    have hat := h.tokenAt delimited_nil
    rw [List.append_nil, List.append_nil] at hat
    rw [List.map_cons, ← ih h.others]
    by_cases ht : ∀ d, t ≠ .byte d
    · have hhead : ∀ d ∈ (spell (t :: ts)).head?, isSigil d = false := by
        rw [spell_cons, hcons]
        simpa using hsigil
      have hitem : bodyItem known (spell (t :: ts)) = some (tokenItem known t, spell ts) :=
        bodyItem_token hat ht hhead
      rw [spell_cons, hcons, List.cons_append] at hitem ⊢
      exact bodyItems_some hitem
    · obtain ⟨d, rfl⟩ := not_forall_not.1 ht
      exact bodyItems_none (not_taken_of_isPlain known h.first _).1

/-- A plain body is scanned by carrying out one token after the other. -/
theorem rescan_plain (expand : Expander) (h : PlainText (t :: ts)) (st : State) (out : Buffer) :
    let done := (tokenItem st.table.contains t).perform expand (spell ts) st out
    rescan expand (spell (t :: ts)) st out = rescan expand done.1 done.2.1 done.2.2 := by
  obtain ⟨c, r, hcons, hsigil, -⟩ := h.first.head
  have hat := h.tokenAt delimited_nil
  rw [List.append_nil, List.append_nil] at hat
  have htoken := bodyToken_perform expand (spell (t :: ts)) st out
  dsimp only
  by_cases ht : ∀ d, t ≠ .byte d
  · rw [spell_cons, hcons, List.cons_append] at hat htoken ⊢
    rw [bodyItem_token hat ht (by simpa using hsigil)] at htoken
    obtain ⟨p, hp, hparts⟩ := Option.map_eq_some_iff.1 htoken
    dsimp only at hparts
    rw [rescan_some hp, ← hparts]
    rfl
  · obtain ⟨d, rfl⟩ := not_forall_not.1 ht
    have hnone := (not_taken_of_isPlain st.table.contains h.first (spell ts)).1
    change (bodyToken expand (d :: spell ts) st out).map Progress.parts =
      (bodyItem st.table.contains (d :: spell ts)).map _ at htoken
    rw [hnone] at htoken
    have hpush : out.push d = out.append [d] := Buffer.ext_toText (by simp)
    show rescan expand (d :: spell ts) st out = rescan expand (spell ts) st (out.append [d])
    rw [rescan_none (Option.map_eq_none_iff.1 htoken), hpush]

/-! ### Arguments -/

/-- The number of parentheses open behind the tokens, unless one of them ends the argument. -/
def nested : Nat → List Token → Option Nat
  | depth, [] => some depth
  | depth, .byte c :: ts =>
    if depth = 0 && (c = closeParen || c = comma) then none else nested (depthAfter depth c) ts
  | depth, _ :: ts => nested depth ts

/-- A plain argument is read up to what follows it. -/
theorem argumentItems_plain (known : String → Bool) (h : PlainText ts) (htail : Delimited tail)
    {depth outer : Nat} (hnested : nested depth ts = some outer) :
    argumentItems known (spell ts ++ tail) depth =
      { argumentItems known tail outer with
        items := ts.map (tokenItem known) ++ (argumentItems known tail outer).items } := by
  induction ts generalizing depth with
  | nil =>
    obtain rfl := Option.some.inj hnested
    rfl
  | cons t ts ih =>
    obtain ⟨c, r, hcons, -, hsemicolon, hnewline⟩ := h.first.head
    have hat := h.tokenAt htail
    have hend : atEndOfStatement (spell (t :: ts) ++ tail) = false := by
      rw [spell_cons, hcons]
      simp [atEndOfStatement, hsemicolon, hnewline]
    by_cases ht : ∀ d, t ≠ .byte d
    · have hothers : nested depth ts = some outer := by
        cases t with
        | byte d => exact absurd rfl (ht d)
        | number text => exact hnested
        | name text => exact hnested
        | quoted text => exact hnested
      rw [argumentItems_some hend (argumentItem_token hat ht), ih h.others hothers]
      rfl
    · obtain ⟨d, rfl⟩ := not_forall_not.1 ht
      rw [nested] at hnested
      split at hnested
      · exact absurd hnested (by simp)
      · rename_i hstop
        have hnone := (not_taken_of_isPlain known h.first (spell ts ++ tail)).2
        have hend : atEndOfStatement (d :: (spell ts ++ tail)) = false := hend
        refine (argumentItems_none hend hnone).trans ?_
        rw [if_neg hstop, ih h.others hnested]
        rfl

/-- White space before an argument opens no parentheses. -/
theorem nested_dropWhile {depth : Nat} :
    nested depth (ts.dropWhile Token.isSpace) = nested depth ts := by
  induction ts with
  | nil => rfl
  | cons t ts ih =>
    by_cases hspace : t.isSpace = true
    · rw [List.dropWhile_cons_of_pos hspace, ih]
      cases t with
      | byte c =>
        have hc : Byte.isSpace c = true := hspace
        have hopen : c ≠ openParen := ne_of_class hc (by decide)
        have hclose : c ≠ closeParen := ne_of_class hc (by decide)
        have hcomma : c ≠ comma := ne_of_class hc (by decide)
        rw [nested, if_neg (by simp [hclose, hcomma]), depthAfter, if_neg hopen, if_neg hclose]
      | number text => exact absurd hspace Bool.false_ne_true
      | name text => exact absurd hspace Bool.false_ne_true
      | quoted text => exact absurd hspace Bool.false_ne_true
    · rw [List.dropWhile_cons_of_neg hspace]

/-! ### Surplus arguments -/

/-- The bytes of a word are dropped one by one. -/
theorem skipSurplus_word {w : Text} (hw : ∀ c ∈ w, isIdentChar c = true) (s : Text) (depth : Nat) :
    skipSurplus (w ++ s) depth = skipSurplus s depth := by
  induction w with
  | nil => rfl
  | cons c w ih =>
    have hc := hw c List.mem_cons_self
    obtain ⟨hquote, hsemicolon, -, -, -, hnewline⟩ :=
      not_special_of_isWordByte (isWordByte_of_isIdentChar hc)
    have hopen : c ≠ openParen := ne_of_class hc (by decide)
    have hclose : c ≠ closeParen := ne_of_class hc (by decide)
    have hend : atEndOfStatement (c :: (w ++ s)) = false := by
      simp [atEndOfStatement, hsemicolon, hnewline]
    have hquoted : Lexeme.quoted? (c :: (w ++ s)) = none := by simp [Lexeme.quoted?, hquote]
    rw [List.cons_append, skipSurplus_byte hend hquoted, if_neg fun h => hclose h.1, depthAfter,
      if_neg hopen, if_neg hclose]
    exact ih fun d hd => hw d (List.mem_cons_of_mem _ hd)

/-- A plain text is dropped with its strings, and its parentheses are counted as in an
argument. -/
theorem skipSurplus_plain (h : PlainText ts) {depth outer : Nat}
    (hnested : nested depth ts = some outer) (tail : Text) :
    skipSurplus (spell ts ++ tail) depth = skipSurplus tail outer := by
  induction ts generalizing depth with
  | nil =>
    obtain rfl := Option.some.inj hnested
    rfl
  | cons t ts ih =>
    rw [spell_cons, List.append_assoc]
    have hplain := h.first
    by_cases hword : t.isWord = true
    · rw [skipSurplus_word (hplain.bytes hword)]
      cases t with
      | number text => exact ih h.others hnested
      | name text => exact ih h.others hnested
      | quoted text => exact absurd hword Bool.false_ne_true
      | byte c => exact absurd hword Bool.false_ne_true
    · obtain ⟨c, r, hcons, -, hsemicolon, hnewline⟩ := hplain.head
      have hend : atEndOfStatement (t.text ++ (spell ts ++ tail)) = false := by
        rw [hcons]
        simp [atEndOfStatement, hsemicolon, hnewline]
      cases t with
      | number text => exact absurd rfl hword
      | name text => exact absurd rfl hword
      | quoted text =>
        have hquoted := Lexeme.quoted?_tail hplain.1 hplain.2.1 (spell ts ++ tail)
        exact (skipSurplus_quoted hend hquoted).trans (ih h.others hnested)
      | byte d =>
        rw [nested] at hnested
        split at hnested
        · exact absurd hnested (by simp)
        · rename_i hstop
          have hquote := (not_word_of_isPlain hplain).2.1
          have hquoted : Lexeme.quoted? (d :: (spell ts ++ tail)) = none := by
            simp [Lexeme.quoted?, hquote]
          have hclose : ¬ (d = closeParen ∧ depth = 0) := by
            rintro ⟨rfl, rfl⟩
            exact hstop rfl
          refine (skipSurplus_byte hend hquoted).trans ?_
          rw [if_neg hclose]
          exact ih h.others hnested

end AsmPrep.Expansion
