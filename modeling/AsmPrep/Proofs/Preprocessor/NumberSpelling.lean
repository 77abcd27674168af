/-
Spelling a number.

A `#` and blanks before a number make it a string: the line `defb # $FF` is the statement
`defb "$FF"`.  The number keeps the notation that it is written in, whichever that is, for it is
the bytes of the literal that are put in quotes and not its value.

The sign has to be told from the others that a `#` can be.  Directly before a number or a name it
belongs to it, and two of them paste; the blanks rule out both.
-/
import AsmPrep.Proofs.Preprocessor.Lines
import AsmPrep.Proofs.Macro.Number
import AsmPrep.Proofs.Statement.Assignment
import AsmPrep.Proofs.Statement.Verbatim
import AsmPrep.Source.Stack

namespace AsmPrep.Preprocessor

open Byte Text Expansion Statement

variable {number gap blanks : Text}

/-- A line that defines bytes from the spelling of a number. -/
def spellingLine (gap blanks number : Text) : Text :=
  ofString "defb" ++ (gap ++ hash :: (blanks ++ (number ++ [newline])))

/-- The same with the number in quotes. -/
def quotedLine (gap number : Text) : Text :=
  ofString "defb" ++ (gap ++ doubleQuote :: (number ++ [doubleQuote, newline]))

section Line

variable (hgap : ∀ c ∈ gap, isBlank c = true)
include hgap

/-- The line is one piece. -/
theorem split_spellingLine {table : MacroTable} (hdefb : table.contains "defb" = false)
    (hnumber : Lexeme.number? number = some (number, []))
    (hnone : Nameless table.contains number) (hblanks : ∀ c ∈ blanks, isBlank c = true)
    (hne : blanks ≠ []) :
    Statement.split (spellingLine gap blanks number) table =
      ({ table }, [quotedLine gap number]) := by
  have hword : Copied (full table) { table } (ofString "defb")
      (gap ++ hash :: (blanks ++ (number ++ [newline]))) := by
    have hplain : (Token.name (ofString "defb")).Plain := by decide +kernel
    have hunknown : table.contains (toName (ofString "defb")) = false := by
      rwa [show toName (ofString "defb") = "defb" by decide +kernel]
    have hrest : Delimited (gap ++ hash :: (blanks ++ (number ++ [newline]))) :=
      delimited_of_blanks hgap fun _ => delimited_cons.2 (by decide)
    have hitem : argumentItem table.contains _ = _ :=
      argumentItem_token (hplain.tokenAt fun _ => hrest) fun c => by simp
    rw [tokenItem, if_neg (by simp [hunknown])] at hitem
    exact copied_of_item hitem
  have hspell : argumentItem table.contains (hash :: (blanks ++ (number ++ [newline]))) =
      some (.spell (.copy number), [newline]) :=
    (items_hash hblanks hne _).2.trans
      (spellItem_number hnumber hnone (delimited_cons.2 (by decide)) hblanks)
  obtain ⟨n, hfront⟩ := hword.append (copied_of_blank hgap) {} {}
  obtain ⟨n', hdone⟩ := splitFrom_item (full table) { table } (fun _ out => out) hspell rfl
    (({} : Buffer).append (ofString "defb" ++ gap)) n
  have hkeep : effect newline n' = .keep n'.other := rfl
  rw [Statement.split, spellingLine, ← List.append_assoc, hfront, hdone,
    splitFrom_keep (token_byte (by decide)) hkeep, splitFrom_nil]
  simp [quotedLine, Item.write, spelling_number hnumber]

/-- In a group and out of one the quoted line is a statement as it stands. -/
theorem normalize_quotedLine (hnumber : Lexeme.number? number = some (number, []))
    (inGroup : Bool) :
    normalize inGroup (quotedLine gap number) = (quotedLine gap number, inGroup) := by
  have hdefb : Lexeme.name? (ofString "defb") = some (ofString "defb", []) := by decide +kernel
  have hclose : closeBrace ∉ quotedLine gap number := by
    intro hmem
    simp only [quotedLine, List.mem_append, List.mem_cons, List.not_mem_nil, or_false] at hmem
    rcases hmem with hword | hmem | hquote | hmem | hquote | hend
    · exact absurd hword (by decide +kernel)
    · exact absurd (hgap closeBrace hmem) (by decide)
    · exact absurd hquote (by decide)
    · exact absurd (Lexeme.number?_bytes hnumber closeBrace hmem) (by decide)
    · exact absurd hquote (by decide)
    · exact absurd hend (by decide)
  have hname : Lexeme.name? (skipBlanks (quotedLine gap number)) =
      some (ofString "defb", gap ++ doubleQuote :: (number ++ [doubleQuote, newline])) := by
    have hrest : Delimited (gap ++ doubleQuote :: (number ++ [doubleQuote, newline])) :=
      delimited_of_blanks hgap fun _ => delimited_cons.2 (by decide)
    rw [quotedLine, Lexeme.skipBlanks_name hdefb, Lexeme.name?_tail hrest (by decide +kernel),
      hdefb]
    rfl
  have hcolon : (gap ++ doubleQuote :: (number ++ [doubleQuote, newline])).head? ≠ some colon := by
    cases gap with
    | nil => exact fun hhead => absurd (Option.some.inj hhead) (by decide)
    | cons c gap =>
      rintro ⟨⟩
      exact absurd (hgap colon List.mem_cons_self) (by decide)
  refine normalize_unassigned inGroup hclose hname (by decide +kernel) ?_
  rw [assigned_eq (by decide +kernel) hcolon]
  dsimp only
  rw [skipBlanks_blanks hgap]
  exact afterSign?_quote rfl _

theorem whole_quotedLine (hnumber : Lexeme.number? number = some (number, [])) :
    Whole (quotedLine gap number) := by
  refine ⟨ofString "defb" ++ (gap ++ doubleQuote :: (number ++ [doubleQuote])),
    by simp [quotedLine], ?_⟩
  intro hmem
  simp only [List.mem_append, List.mem_cons, List.not_mem_nil, or_false] at hmem
  rcases hmem with hword | hmem | hquote | hmem | hquote
  · exact absurd hword (by decide +kernel)
  · exact absurd (hgap newline hmem) (by decide)
  · exact absurd hquote (by decide)
  · exact absurd (Lexeme.number?_bytes hnumber newline hmem) (by decide)
  · exact absurd hquote (by decide)

/-- The line makes one statement and does nothing else. -/
theorem processLine_spellingLine {σ : Type} [LineSource σ] (pp : Preprocessor) (src : σ)
    (hdefb : pp.table.contains "defb" = false)
    (hnumber : Lexeme.number? number = some (number, []))
    (hnone : Nameless pp.table.contains number) (hblanks : ∀ c ∈ blanks, isBlank c = true)
    (hne : blanks ≠ []) :
    pp.processLine (spellingLine gap blanks number) src =
      ({ pp with queue := pp.queue ++ [quotedLine gap number] }, src) := by
  have hhead : (spellingLine gap blanks number).head? ≠ some hash := by
    have hcons : ofString "defb" = 100 :: [101, 102, 98] := by decide
    rw [spellingLine, hcons]
    exact fun hhash => absurd (Option.some.inj hhash) (by decide)
  rw [processLine_of_head hhead, expandLine_of_piece
    (split_spellingLine hgap hdefb hnumber hnone hblanks hne) (whole_quotedLine hgap hnumber),
    normalize_quotedLine hgap hnumber]

end Line

/-- **Spelling a number quotes it as it is written**, in any notation: on a line of its own, and
in a call whose body spells its parameter.  Nothing is reported in either case. -/
theorem number_spelled {table : MacroTable}
    (hnumber : Lexeme.number? number = some (number, []))
    (hdefb : table.contains "defb" = false) (hwhole : table.contains (toName number) = false)
    (hbare : table.contains (toName number.tail) = false) :
    (∀ (σ : Type) [LineSource σ] (pp : Preprocessor) (src : σ) (gap blanks : Text),
      pp.table = table →
      (∀ c ∈ gap, isBlank c = true) → (∀ c ∈ blanks, isBlank c = true) → blanks ≠ [] →
        pp.processLine (spellingLine gap blanks number) src =
          ({ pp with queue := pp.queue ++ [quotedLine gap number] }, src)) ∧
    ∀ (budget : Nat) (st : State) (out : Buffer) (name gap x blanks after : Text) (m : Macro),
      st.table = table → Lexeme.name? name = some (name, []) →
      table.lookup (toName name) = some m → m.expanding = false →
      Lexeme.name? x = some (x, []) → m.params = [toName x] → x ≠ number → x ≠ number.tail →
      m.body = hash :: (blanks ++ x) → (∀ c ∈ blanks, isBlank c = true) → blanks ≠ [] →
      (∀ c ∈ gap, isBlank c = true) → table.weight ≤ budget →
        ∃ p, scanCall (expand budget)
            (name ++ (gap ++ openParen :: (number ++ closeParen :: after))) st out = some p ∧
          p.rest = after ∧ p.state.faults = st.faults ∧ p.state.table = table ∧
          p.out.toText = out.toText ++ doubleQuote :: (number ++ [doubleQuote]) := by
  refine ⟨?_, ?_⟩
  · rintro σ _ pp src gap blanks rfl hgap hblanks hne
    exact processLine_spellingLine hgap pp src hdefb hnumber ⟨hwhole, hbare⟩ hblanks hne
  · rintro budget st out name gap x blanks after m rfl hname hm hx hparam hparams hother hothertail
      hbody hblanks hne hgap hbudget
    have hnone : Nameless (inBody st.table m) number := by
      have hapart {s : Text} (h : x ≠ s) : m.params.contains (toName s) = false := by
        have hname : toName s ≠ toName x := fun heq => h (toName_inj heq).symm
        simp [hparams, hname]
      constructor
      · rw [inBody, hwhole, hapart hother]
        rfl
      · rw [inBody, hbare, hapart hothertail]
        rfl
    exact scanCall_spells st out after hname hm hx hparams hbody hparam hblanks hne hnumber hnone
      hgap hbudget

/-- A macro that spells its parameter. -/
def speller : Macro := { params := ["x"], body := ofString "# x" }

/-- A hexadecimal number that looks like a name. -/
theorem number_spelled_hexadecimal :
    processLine { table := { innermost := [("S", speller)] } } (ofString "defb # $FF\n")
        ({} : InputStack) =
      ({ table := { innermost := [("S", speller)] }, queue := [ofString "defb \"$FF\"\n"] }, {}) ∧
    ∃ p, scanCall (expand 2) (ofString "S($FF);") { table := { innermost := [("S", speller)] } }
        {} = some p ∧
      p.rest = ofString ";" ∧ p.state.faults = [] ∧
      p.state.table = { innermost := [("S", speller)] } ∧ p.out.toText = ofString "\"$FF\"" := by
  let table : MacroTable := { innermost := [("S", speller)] }
  have hblank : ∀ c ∈ [space], isBlank c = true := List.forall_mem_singleton.2 rfl
  have hnone : ∀ c ∈ ([] : Text), isBlank c = true := fun c hc => absurd hc List.not_mem_nil
  have hnumber : Lexeme.number? (ofString "$FF") = some (ofString "$FF", []) := by decide +kernel
  have hdefb : table.contains "defb" = false := by decide +kernel
  have hspelled := number_spelled hnumber hdefb (by decide +kernel) (by decide +kernel)
  refine ⟨hspelled.1 InputStack { table } {} [space] [space] rfl hblank hblank (by decide), ?_⟩
  exact hspelled.2 2 { table } {} (ofString "S") [] (ofString "x") [space] (ofString ";") speller
    rfl (by decide +kernel) (by decide +kernel) rfl (by decide +kernel) (by decide +kernel)
    (by decide +kernel) (by decide +kernel) (by decide +kernel) hblank (by decide) hnone (by decide)

end AsmPrep.Preprocessor
