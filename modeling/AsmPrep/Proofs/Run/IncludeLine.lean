/-
Lines that include a file.

Such a line is the word, a name in quotes and perhaps a comment, with blanks between them.
Where the word is no macro, the line is one statement, which asks for the file and does
nothing else.  It does so within a group too, as the name has no brace that would close one.
-/
import AsmPrep.Proofs.Run.Reading
import AsmPrep.Proofs.Statement.Assignment
import AsmPrep.Proofs.Statement.Verbatim

namespace AsmPrep.Run

open Byte Files

/-- The parts of a line that includes a file. -/
structure IncludeLine where
  indent : Text
  word : Text
  gap : Text
  quote : Byte
  name : Text
  trail : Text
  /-- What follows the semicolon, up to the next line. -/
  comment : Option Text
  indent_blank : ∀ c ∈ indent, isBlank c = true
  word_include : Text.sameLetters word (Text.ofString "include") = true
  gap_blank : ∀ c ∈ gap, isBlank c = true
  quote_isQuote : isQuote quote = true
  name_plain : ∀ c ∈ name, c ≠ quote ∧ c ≠ backslash ∧ c ≠ newline ∧ c ≠ closeBrace
  trail_blank : ∀ c ∈ trail, isBlank c = true

namespace IncludeLine

/-- What follows the word. -/
def operand (l : IncludeLine) : Text := l.gap ++ (l.quote :: l.name ++ l.quote :: l.trail)

/-- The statement that the line is. -/
def statement (l : IncludeLine) : Text := l.indent ++ (l.word ++ l.operand) ++ [newline]

def ending (l : IncludeLine) : Text :=
  match l.comment with
  | none => [newline]
  | some comment => semicolon :: comment

def text (l : IncludeLine) : Text := l.indent ++ (l.word ++ l.operand) ++ l.ending

variable (l : IncludeLine)

/-! ### The parts -/

theorem word_identifier : Lexeme.identifier? l.word = some (l.word, []) :=
  Lexeme.identifier?_spelled l.word_include (by decide) (by decide)

/-- What follows the word neither goes on with it nor makes it a label. -/
theorem operand_cons : ∃ d r, l.operand = d :: r ∧ isIdentChar d = false ∧ d ≠ colon := by
  unfold operand
  cases hgap : l.gap with
  | nil =>
    have hquote := l.quote_isQuote
    unfold isQuote at hquote
    simp only [Bool.or_eq_true, beq_iff_eq] at hquote
    refine ⟨l.quote, _, rfl, ?_⟩
    rcases hquote with h | h <;> rw [h] <;> decide
  | cons d gap =>
    have hd := l.gap_blank d (hgap ▸ List.mem_cons_self)
    refine ⟨d, _, rfl, ?_⟩
    rcases isBlank_cases hd with rfl | rfl | rfl | rfl <;> decide

theorem operand_delimited (s : Text) : Text.Delimited (l.operand ++ s) := by
  obtain ⟨d, r, hoperand, hd, -⟩ := l.operand_cons
  rw [hoperand, List.cons_append]
  exact Text.delimited_cons.2 hd

/-- No byte of the line before its end does that of a line or of a group. -/
theorem body_plain : ∀ c ∈ l.indent ++ (l.word ++ l.operand), c ≠ newline ∧ c ≠ closeBrace := by
  have hblank : ∀ c, isBlank c = true → c ≠ newline ∧ c ≠ closeBrace := by
    intro c hc
    constructor
    all_goals
      rintro rfl
      exact absurd hc (by decide)
  have hquote : l.quote ≠ newline ∧ l.quote ≠ closeBrace := by
    have hquote := l.quote_isQuote
    constructor
    all_goals
      intro h
      exact absurd (h ▸ hquote) (by decide)
  intro c hc
  unfold operand at hc
  simp only [List.mem_append, List.mem_cons] at hc
  rcases hc with hc | hc | hc | ((rfl | hc) | rfl | hc)
  · exact hblank c (l.indent_blank c hc)
  · have hletter := Lexeme.isLetter_of_sameLetters l.word_include (by decide) c hc
    exact ⟨ne_of_class hletter (by decide), ne_of_class hletter (by decide)⟩
  · exact hblank c (l.gap_blank c hc)
  · exact hquote
  · exact (l.name_plain c hc).2.2
  · exact hquote
  · exact hblank c (l.trail_blank c hc)

/-! ### The line as a statement -/

open Expansion Statement

theorem splitFrom_ending {e : Expander} {st : State} {out : Buffer} (n : Counts) :
    splitFrom e l.ending st out n = (st, [(out.push newline).toText]) := by
  have hkeep : effect newline n = .keep n.other := rfl
  unfold ending
  split
  · rw [splitFrom_keep (token_byte (by decide)) hkeep, splitFrom_nil]
  · rw [splitFrom_comment (token_byte (by decide)) rfl]

/-- The line is one piece, without its comment. -/
theorem split_text {table : MacroTable} (h : table.contains (Text.toName l.word) = false) :
    Statement.split l.text table = ({ table }, [l.statement]) := by
  have hending : l.trail ++ l.ending ≠ [] := by
    unfold ending
    split <;> simp
  have hname : Copied (full table) { table } l.word (l.operand ++ l.ending) :=
    copied_of_item (argumentItem_name l.word_identifier (l.operand_delimited l.ending) h)
  have hquoted : Copied (full table) { table } (l.quote :: l.name ++ [l.quote])
      (l.trail ++ l.ending) := by
    refine copied_of_item ?_
    rw [List.append_assoc]
    exact argumentItem_quoted l.quote_isQuote
      (fun d hd => ⟨(l.name_plain d hd).1, (l.name_plain d hd).2.1⟩) hending
  have hoperand : Copied (full table) { table } l.operand l.ending := by
    have hsplit : l.operand = l.gap ++ (l.quote :: l.name ++ [l.quote] ++ l.trail) := by
      simp [operand]
    rw [hsplit]
    exact (copied_of_blank l.gap_blank).append (hquoted.append (copied_of_blank l.trail_blank))
  have hline : Copied (full table) { table } (l.indent ++ (l.word ++ l.operand)) l.ending :=
    (copied_of_blank l.indent_blank).append (hname.append hoperand)
  obtain ⟨n, hdone⟩ := hline {} {}
  unfold Statement.split text
  rw [hdone, splitFrom_ending]
  simp [statement]

theorem statement_whole : Text.Whole l.statement :=
  ⟨l.indent ++ (l.word ++ l.operand), rfl, fun h => (l.body_plain _ h).1 rfl⟩

theorem skipBlanks_statement :
    Text.skipBlanks l.statement = l.word ++ (l.operand ++ [newline]) := by
  unfold statement
  rw [List.append_assoc, Text.skipBlanks_blanks l.indent_blank, List.append_assoc,
    Lexeme.skipBlanks_name (Lexeme.name?_of_identifier? l.word_identifier)]

theorem skipBlanks_operand (s : Text) :
    Text.skipBlanks (l.operand ++ s) = l.quote :: (l.name ++ l.quote :: (l.trail ++ s)) := by
  have hblank : isBlank l.quote = false := by
    cases hb : isBlank l.quote with
    | false => rfl
    | true =>
      have := not_beginsToken_of_isBlank hb
      simp [beginsToken, l.quote_isQuote] at this
  unfold Text.skipBlanks operand
  rw [List.append_assoc, List.dropWhile_append_of_pos l.gap_blank]
  simp [hblank]

theorem not_mem_statement : closeBrace ∉ l.statement := by
  intro hbrace
  rcases List.mem_append.1 hbrace with hbrace | hbrace
  · exact (l.body_plain _ hbrace).2 rfl
  · exact absurd hbrace (by decide)

theorem assigned_word (s : Text) : assigned l.word (l.operand ++ s) = (l.word, l.operand ++ s) := by
  obtain ⟨c, bare, hword, hc, -⟩ := Lexeme.identifier?_eq_some l.word_identifier
  obtain ⟨d, r, hoperand, -, hd⟩ := l.operand_cons
  refine assigned_eq ?_ ?_
  · rw [hword]
    exact fun hdot => ne_of_class hc (by decide) (Option.some.inj hdot)
  · rw [hoperand]
    exact fun hcolon => hd (Option.some.inj hcolon)

/-- In and out of a group the piece is the statement that it stands for. -/
theorem normalize_statement (inGroup : Bool) :
    Statement.normalize inGroup l.statement = (l.statement, inGroup) := by
  have hname : Lexeme.name? (Text.skipBlanks l.statement) =
      some (l.word, l.operand ++ [newline]) := by
    have hread := Lexeme.name?_identifier l.word_identifier (l.operand_delimited [newline])
    rw [Lexeme.skipBlanks_name (Lexeme.name?_of_identifier? l.word_identifier)] at hread
    rw [l.skipBlanks_statement, hread]
  have hgroup : Text.sameLetters l.word (Text.ofString "defgroup") = false := by
    have hletters := eq_of_beq l.word_include
    unfold Text.sameLetters
    rw [hletters]
    decide
  refine normalize_unassigned inGroup l.not_mem_statement hname hgroup ?_
  rw [assigned_word, skipBlanks_operand]
  exact afterSign?_quote l.quote_isQuote _

/-- The statement asks for the file. -/
theorem command_statement : Command.ofStatement? l.statement =
    some (.include (Text.readUtf8 l.name)) := by
  have hword : Lexeme.word? (Text.ofString "include") (l.word ++ (l.operand ++ [newline])) =
      some (l.operand ++ [newline]) :=
    Lexeme.word?_spelled l.word_include (l.operand_delimited [newline])
  have hname : Command.fileName? (Text.skipBlanks (l.operand ++ [newline])) =
      some (Text.readUtf8 l.name) := by
    have hinside : ∀ c ∈ l.name, (c != l.quote && c != newline) = true := by
      intro c hc
      simp [(l.name_plain c hc).1, (l.name_plain c hc).2.2.1]
    unfold Command.fileName? Command.quotedText?
    rw [l.skipBlanks_operand]
    dsimp only
    rw [if_pos l.quote_isQuote, List.dropWhile_append_of_pos hinside,
      List.takeWhile_append_of_pos hinside]
    simp
  unfold Command.ofStatement?
  rw [l.skipBlanks_statement]
  dsimp only
  rw [hword]
  dsimp only
  rw [hname]
  rfl

theorem ofLine?_text : Directive.ofLine? l.text = none := by
  refine Directive.ofLine?_eq_none ?_
  rw [text, List.append_assoc]
  refine Text.head?_blanks_ne l.indent_blank (by decide) fun _ => ?_
  obtain ⟨c, bare, hword, hc, -⟩ := Lexeme.identifier?_eq_some l.word_identifier
  rw [hword]
  exact fun hhash => ne_of_class hc (by decide) (Option.some.inj hhash)

/-- **A line of this shape includes the file that it names**, wherever the word is no macro. -/
theorem includes?_text {st : Standing} (h : st.table.contains (Text.toName l.word) = false) :
    st.includes? l.text = some (Text.readUtf8 l.name) := by
  have hmade : st.pp.expandLine l.text =
      { st.pp with queue := [l.statement] } := by
    rw [Preprocessor.expandLine_of_piece (l.split_text h) l.statement_whole, normalize_statement]
    rfl
  unfold Standing.includes?
  rw [l.ofLine?_text, hmade]
  dsimp only
  rw [l.command_statement]
  simp [Standing.pp, Log.isEmpty]

end IncludeLine

end AsmPrep.Run
