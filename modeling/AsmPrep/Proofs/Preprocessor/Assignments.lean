/-
The spellings of an assignment, and groups that suspend them.

An assignment is a name, a sign and a value.  The name may have a dot before it or be marked as a
label, the sign is `=` or the word `equ`, and blanks may stand about them.  Two passes deal with
such a line.  The splitter has to leave it in one piece: it keeps the colon of the label because
the label is the only name so far, and the colons of the value because each answers a question.
Then the piece is brought into the one spelling, which has neither dot nor colon.

In a `defgroup` block the second pass is left out.  The word opens the block and a brace closes
it, and so lines of this kind that have no brace come out as they went in.
-/
import AsmPrep.Proofs.Statement.Assignment
import AsmPrep.Proofs.Statement.Cutting
import AsmPrep.Proofs.Preprocessor.Undivided
import AsmPrep.Proofs.Macro.ArgumentList
import AsmPrep.Source.Feed
import Mathlib.Data.Bool.AllAny

namespace AsmPrep

open Byte Text Quoting

/-! ### Bytes that mean nothing to the splitter -/

abbrev Byte.openBrace : Byte := 123

/-- What is written before a value, a label's colon apart, and about a group. -/
def Byte.isMute (c : Byte) : Bool :=
  isBlank c || isIdentChar c || c == dot || c == equals || c == openBrace || c == closeBrace

section Mute

variable {c : Byte} {s : Text}

theorem Byte.isMute_of_isBlank (h : isBlank c = true) : isMute c = true := by simp [isMute, h]

theorem Byte.isMute_of_isIdentChar (h : isIdentChar c = true) : isMute c = true := by
  simp [isMute, h]

theorem Byte.not_quote_of_isMute (h : isMute c = true) : isQuote c = false := by
  have hdouble : c ≠ doubleQuote := ne_of_class h (by decide)
  have hsingle : c ≠ singleQuote := ne_of_class h (by decide)
  simp [isQuote, hdouble, hsingle]

theorem Text.isMute_identifier {rest : Text} (h : Lexeme.identifier? s = some (s, rest)) :
    ∀ c ∈ s, isMute c = true :=
  fun c hc => isMute_of_isIdentChar (Lexeme.identifier?_bytes h c hc)

theorem Statement.Undivided.of_mute {q : Quoting} {stmt : Text} (h : ∀ c ∈ s, isMute c = true) :
    Undivided q stmt s :=
  .of_plain fun c hc => ⟨ne_of_class (h c hc) (by decide), ne_of_class (h c hc) (by decide),
    ne_of_class (h c hc) (by decide)⟩

theorem Text.unanswered_mute (h : ∀ c ∈ s, isMute c = true ∨ c = colon) : unanswered s = 0 := by
  unfold unanswered
  induction s with
  | nil => rfl
  | cons c s ih =>
    rw [List.forall_mem_cons] at h
    rcases h.1 with hc | rfl
    · rw [questions, if_neg fun hq => ne_of_class hc (by decide) hq.2,
        if_neg fun hq => ne_of_class hc (by decide) hq.2, next_outside (not_quote_of_isMute hc)]
      exact ih h.2
    · exact ih h.2

theorem Text.after_mute (h : ∀ c ∈ s, isMute c = true ∨ c = colon) :
    outside.after s = outside :=
  after_outside fun c hc => (h c hc).elim not_quote_of_isMute fun hc => hc ▸ rfl

end Mute

namespace Assignment

/-! ### Assignments as they are written -/

/-- The value of an assignment.  It need not close its strings. -/
structure Value (value : Text) : Prop where
  start : ∃ c s, value = c :: s ∧ isBlank c = false
  plain : ∀ c ∈ value, c ≠ newline ∧ c ≠ hash ∧ c ≠ backslash
  comment : code value = value
  /-- A colon outside strings has a question mark to answer. -/
  answers : ∀ i < value.length, value[i]? = some colon → ¬ InString value i →
    0 < unanswered (value.take i)

/-- The name of an assignment alone, behind a dot, or as a label. -/
inductive Target (name : Text) : Text → Prop
  | bare : Target name name
  | dotted : Target name (dot :: name)
  | label : Target name (name ++ [colon])

/-- The sign of an assignment with the blanks about it. -/
inductive Sign (known : String → Bool) : Text → Prop
  | equals {before after : Text} (hbefore : ∀ c ∈ before, isBlank c = true)
      (hafter : ∀ c ∈ after, isBlank c = true) : Sign known (before ++ equals :: after)
  | word {before equ after : Text} (hbefore : ∀ c ∈ before, isBlank c = true)
      (hbefore_ne : before ≠ []) (hequ : sameLetters equ (ofString "equ") = true)
      (hknown : known (toName equ) = false) (hafter : ∀ c ∈ after, isBlank c = true)
      (hafter_ne : after ≠ []) : Sign known (before ++ (equ ++ after))

/-- The name that is assigned to. -/
structure Assignable (known : String → Bool) (name : Text) : Prop where
  identifier : Lexeme.identifier? name = some (name, [])
  not_group : sameLetters name (ofString "defgroup") = false
  free : known (toName name) = false
  free_dotted : known (toName (dot :: name)) = false

/-- `line` assigns `value` to `name`, and nothing in it means a macro. -/
inductive Assigns (known : String → Bool) (name value : Text) : Text → Prop
  | intro {indent target sign : Text} (hindent : ∀ c ∈ indent, isBlank c = true)
      (hname : Assignable known name) (htarget : Target name target) (hsign : Sign known sign)
      (hvalue : Value value) (hnames : Unnamed known value) :
      Assigns known name value (indent ++ (target ++ (sign ++ (value ++ [newline]))))

/-! ### The parts of an assignment -/

section Parts

variable {known : String → Bool} {name target sign indent rest s : Text}

namespace Target

variable (hname : Assignable known name) (h : Target name target)
include hname h

theorem isMute : ∀ c ∈ target, isMute c = true ∨ c = colon := by
  have hall := isMute_identifier hname.identifier
  cases h with
  | bare => exact fun c hc => .inl (hall c hc)
  | dotted =>
    rw [List.forall_mem_cons]
    exact ⟨.inl (by decide), fun c hc => .inl (hall c hc)⟩
  | label => exact fun c hc => (List.mem_append.1 hc).imp (hall c) List.mem_singleton.1

theorem unnamed (hrest : Delimited rest) (hnames : Unnamed known rest) :
    Unnamed known (target ++ rest) := by
  cases h with
  | bare => exact hnames.named hname.identifier hrest hname.free
  | dotted => exact hnames.dotted hname.identifier hrest hname.free hname.free_dotted
  | label =>
    rw [List.append_assoc]
    exact (hnames.byte (by decide)).named hname.identifier (delimited_cons.2 (by decide))
      hname.free

theorem undivided (hindent : ∀ c ∈ indent, isBlank c = true) :
    Statement.Undivided outside [] (indent ++ target) := by
  have hblank : ∀ c ∈ indent, Byte.isMute c = true := fun c hc => isMute_of_isBlank (hindent c hc)
  have hall := isMute_identifier hname.identifier
  cases h with
  | bare => exact .of_mute fun c hc => (List.mem_append.1 hc).elim (hblank c) (hall c)
  | dotted =>
    refine .of_mute fun c hc => (List.mem_append.1 hc).elim (hblank c) fun hc => ?_
    rcases List.mem_cons.1 hc with rfl | hc
    · decide
    · exact hall c hc
  | label =>
    rw [← List.append_assoc, Statement.Undivided.append_iff]
    refine ⟨.of_mute fun c hc => (List.mem_append.1 hc).elim (hblank c) (hall c), ?_⟩
    rintro front c back heq -
    obtain ⟨rfl, rfl, -⟩ : front = [] ∧ c = colon ∧ back = [] := by
      cases front with
      | nil => simpa [eq_comm] using heq
      | cons d front => exact absurd (List.cons.inj heq).2.symm (by simp)
    refine ⟨by decide, ?_⟩
    rintro (hback | ⟨-, -, hlabel⟩)
    · exact absurd hback (by decide)
    · rw [List.nil_append, List.append_nil] at hlabel
      exact hlabel (Statement.labelEnd_name hindent hname.identifier)

/-- What is read of the target when its line is brought into the one spelling. -/
theorem reads (hrest : Delimited rest) (hcolon : rest.head? ≠ some colon) :
    ∃ found after, Lexeme.name? (skipBlanks (target ++ rest)) = some (found, after) ∧
      sameLetters found (ofString "defgroup") = false ∧
      Statement.assigned found after = (name, rest) := by
  obtain ⟨c, bare, hcons, hc, -⟩ := Lexeme.identifier?_eq_some hname.identifier
  have hdot : c ≠ dot := ne_of_class hc (by decide)
  cases h with
  | bare =>
    exact ⟨name, rest, Lexeme.name?_identifier hname.identifier hrest, hname.not_group,
      Statement.assigned_eq (by rw [hcons]; exact fun heq => hdot (Option.some.inj heq)) hcolon⟩
  | dotted =>
    refine ⟨dot :: name, rest, ?_, ?_, ?_⟩
    · have hname' : Lexeme.identifier? (name ++ rest) = some (name, rest) := by
        rw [Lexeme.identifier?_tail hrest (hcons ▸ List.cons_ne_nil c bare), hname.identifier]
        rfl
      show Lexeme.name? (dot :: (name ++ rest)) = _
      rw [Lexeme.name?, if_pos (by decide), hname']
      rfl
    · have hgroup : ofString "defgroup" = [100, 101, 102, 103, 114, 111, 117, 112] := by decide
      have hd : toLower dot ≠ toLower 100 := by decide
      simp [sameLetters, hgroup, hd]
    · unfold Statement.assigned
      exact if_pos rfl
  | label =>
    refine ⟨name, colon :: rest, ?_, hname.not_group, ?_⟩
    · rw [List.append_assoc]
      exact Lexeme.name?_identifier hname.identifier (delimited_cons.2 (by decide))
    · rw [hcons, Statement.assigned, if_neg hdot]
      exact if_pos rfl

end Target

namespace Sign

theorem isMute (h : Sign known sign) : ∀ c ∈ sign, isMute c = true := by
  cases h with
  | equals hbefore hafter =>
    intro c hc
    rcases List.mem_append.1 hc with hc | hc
    · exact isMute_of_isBlank (hbefore c hc)
    · rcases List.mem_cons.1 hc with rfl | hc
      · decide
      · exact isMute_of_isBlank (hafter c hc)
  | word hbefore hbefore_ne hequ hfree hafter hafter_ne =>
    have hword := Lexeme.identifier?_spelled hequ (by decide) (by decide)
    intro c hc
    rcases List.mem_append.1 hc with hc | hc
    · exact isMute_of_isBlank (hbefore c hc)
    · rcases List.mem_append.1 hc with hc | hc
      · exact isMute_identifier hword c hc
      · exact isMute_of_isBlank (hafter c hc)

/-- It can stand behind a name, and makes no label of it. -/
theorem head (h : Sign known sign) (s : Text) :
    Delimited (sign ++ s) ∧ (sign ++ s).head? ≠ some colon := by
  cases h with
  | equals hbefore hafter =>
    rw [List.append_assoc]
    exact ⟨delimited_of_blanks hbefore fun _ => delimited_cons.2 (by decide),
      head?_blanks_ne hbefore (by decide) fun _ heq =>
        absurd (Option.some.inj heq) (by decide)⟩
  | word hbefore hbefore_ne hequ hfree hafter hafter_ne =>
    rw [List.append_assoc]
    exact ⟨delimited_of_blanks hbefore fun hnil => absurd hnil hbefore_ne,
      head?_blanks_ne hbefore (by decide) fun hnil => absurd hnil hbefore_ne⟩

theorem unnamed (h : Sign known sign) (hnames : Unnamed known s) : Unnamed known (sign ++ s) := by
  cases h with
  | equals hbefore hafter =>
    rw [List.append_assoc]
    exact ((hnames.blanks hafter).byte (by decide)).blanks hbefore
  | word hbefore hbefore_ne hequ hfree hafter hafter_ne =>
    rw [List.append_assoc, List.append_assoc]
    exact ((hnames.blanks hafter).named (Lexeme.identifier?_spelled hequ (by decide) (by decide))
      (delimited_of_blanks hafter fun hnil => absurd hnil hafter_ne) hfree).blanks hbefore

/-- Behind the sign, and the blanks about it, stands the value. -/
theorem reads (h : Sign known sign) (s : Text) :
    ∃ rest, Statement.afterSign? (skipBlanks (sign ++ s)) = some rest ∧
      skipBlanks rest = skipBlanks s := by
  cases h with
  | @equals before after hbefore hafter =>
    refine ⟨after ++ s, ?_, skipBlanks_blanks hafter s⟩
    rw [List.append_assoc, skipBlanks_blanks hbefore]
    rfl
  | @word before equ after hbefore hbefore_ne hequ hfree hafter hafter_ne =>
    refine ⟨after ++ s, ?_, skipBlanks_blanks hafter s⟩
    have hafter' : Delimited (after ++ s) :=
      delimited_of_blanks hafter fun hnil => absurd hnil hafter_ne
    have hword := Lexeme.identifier?_spelled hequ (by decide) (by decide)
    obtain ⟨c, bare, hcons, hc, -⟩ := Lexeme.identifier?_eq_some hword
    have hequals : c ≠ Byte.equals := ne_of_class hc (by decide)
    have hread := Lexeme.word?_spelled hequ hafter'
    rw [List.append_assoc, List.append_assoc, skipBlanks_blanks hbefore,
      Lexeme.skipBlanks_name (Lexeme.name?_of_identifier? hword)]
    rw [hcons] at hread ⊢
    rw [List.cons_append, Statement.afterSign?, if_neg hequals]
    exact hread

end Sign

/-- The colons of a value are answers, whatever nothing but names and blanks is before it. -/
theorem Value.undivided {value head : Text} (h : Value value)
    (hhead : ∀ c ∈ head, isMute c = true ∨ c = colon) :
    Statement.Undivided outside head value := by
  rintro front c back heq hfront
  have hmem : c ∈ value := heq ▸ List.mem_append_right front List.mem_cons_self
  refine ⟨?_, ?_⟩
  · rintro rfl
    have hcode := h.comment
    rw [heq, code, codeFrom_append_eq_iff, hfront, codeFrom, if_pos ⟨rfl, rfl⟩] at hcode
    exact absurd hcode.2 (by simp)
  · rintro (rfl | ⟨rfl, hzero, -⟩)
    · exact (h.plain _ hmem).2.2 rfl
    · have htake : value.take front.length = front := by rw [heq, List.take_left]
      have hopen := h.answers front.length (by simp [heq]) (by simp [heq]) fun hin =>
        hin (by rw [htake, hfront])
      -- No question is asked before the value, so its own are all there are.
      rw [unanswered, questions_append, after_mute hhead] at hzero
      have hhead_zero : questions outside 0 head = 0 := unanswered_mute hhead
      rw [hhead_zero] at hzero
      rw [htake] at hopen
      exact absurd hzero (Nat.ne_of_gt hopen)

end Parts

/-! ### Lines -/

section Lines

variable {known : String → Bool} {name value line : Text}

/-- A piece that is an assignment stands for the one spelling, outside groups. -/
theorem normalize_spelled {indent target sign : Text} (s : Text)
    (hindent : ∀ c ∈ indent, isBlank c = true) (hname : Assignable known name)
    (htarget : Target name target) (hsign : Sign known sign) :
    Statement.normalize false (indent ++ (target ++ (sign ++ s))) =
      (Statement.definition name (skipBlanks s), false) := by
  obtain ⟨hdelimited, hcolon⟩ := hsign.head s
  obtain ⟨found, after, hfound, hgroup, hassigned⟩ := htarget.reads hname hdelimited hcolon
  obtain ⟨rest, hrest, hskip⟩ := hsign.reads s
  unfold Statement.normalize
  rw [if_neg Bool.false_ne_true, skipBlanks_blanks hindent, hfound]
  dsimp only
  rw [hgroup, if_neg Bool.false_ne_true, hassigned, hrest]
  dsimp only
  rw [hskip]

namespace Assigns

theorem normalize_eq (h : Assigns known name value line) :
    Statement.normalize false line = (Statement.definition name (value ++ [newline]), false) := by
  cases h with
  | intro hindent hname htarget hsign hvalue hnames =>
    obtain ⟨c, s, rfl, hc⟩ := hvalue.start
    rw [normalize_spelled _ hindent hname htarget hsign]
    exact congrArg (fun value => (Statement.definition name value, false))
      (skipBlanks_eq_self fun d hd => Option.some.inj hd ▸ hc)

theorem unnamed (h : Assigns known name value line) : Unnamed known line := by
  cases h with
  | intro hindent hname htarget hsign hvalue hnames =>
    have hback : backslash ∉ value := fun hmem => (hvalue.plain _ hmem).2.2 rfl
    exact (htarget.unnamed hname (hsign.head _).1
      (hsign.unnamed (hnames.newline hback))).blanks hindent

/-- Two parts: what stands before the value, and the value. -/
theorem parts (h : Assigns known name value line) :
    ∃ head, line = head ++ (value ++ [newline]) ∧ (∀ c ∈ head, isMute c = true ∨ c = colon) ∧
      Statement.Undivided outside [] head ∧ Value value := by
  cases h with
  | @intro indent target sign hindent hname htarget hsign hvalue hnames =>
    refine ⟨indent ++ target ++ sign, by simp, ?_, ?_, hvalue⟩
    · intro c hc
      rcases List.mem_append.1 hc with hc | hc
      · exact (List.mem_append.1 hc).elim (fun hc => .inl (isMute_of_isBlank (hindent c hc)))
          (htarget.isMute hname c)
      · exact .inl (hsign.isMute c hc)
    · rw [Statement.Undivided.append_iff]
      exact ⟨htarget.undivided hname hindent, .of_mute hsign.isMute⟩

theorem undivided (h : Assigns known name value line) :
    Statement.Undivided outside [] line := by
  obtain ⟨head, rfl, hhead, hundivided, hvalue⟩ := h.parts
  rw [Statement.Undivided.append_iff, Statement.Undivided.append_iff, after_mute hhead,
    List.nil_append]
  refine ⟨hundivided, hvalue.undivided hhead, .of_plain fun c hc => ?_⟩
  rw [List.mem_singleton.1 hc]
  decide

theorem bytes (h : Assigns known name value line) : hash ∉ line ∧ Whole line := by
  obtain ⟨head, rfl, hhead, -, hvalue⟩ := h.parts
  have hplain : ∀ c ∈ head ++ value, c ≠ newline ∧ c ≠ hash := by
    intro c hc
    rcases List.mem_append.1 hc with hc | hc
    · rcases hhead c hc with hc | rfl
      · exact ⟨ne_of_class hc (by decide), ne_of_class hc (by decide)⟩
      · decide
    · exact ⟨(hvalue.plain c hc).1, (hvalue.plain c hc).2.1⟩
  rw [← List.append_assoc]
  refine ⟨fun hmem => ?_, head ++ value, rfl, fun hmem => (hplain _ hmem).1 rfl⟩
  rcases List.mem_append.1 hmem with hmem | hmem
  · exact (hplain _ hmem).2 rfl
  · exact absurd (List.mem_singleton.1 hmem) (by decide)

end Assigns

/-- A line that opens a group and does nothing more. -/
inductive Opens (known : String → Bool) : Text → Prop
  | intro {indent word gap trail : Text} (hindent : ∀ c ∈ indent, isBlank c = true)
      (hword : sameLetters word (ofString "defgroup") = true) (hfree : known (toName word) = false)
      (hgap : ∀ c ∈ gap, isBlank c = true) (htrail : ∀ c ∈ trail, isBlank c = true) :
      Opens known (indent ++ (word ++ (gap ++ openBrace :: (trail ++ [newline]))))

/-- A line that closes it. -/
inductive Closes : Text → Prop
  | intro {indent trail : Text} (hindent : ∀ c ∈ indent, isBlank c = true)
      (htrail : ∀ c ∈ trail, isBlank c = true) :
      Closes (indent ++ closeBrace :: (trail ++ [newline]))

theorem unnamed_trail {trail : Text} (h : ∀ c ∈ trail, isBlank c = true) :
    Unnamed known (trail ++ [newline]) :=
  (Unnamed.nil.byte (by decide)).blanks h

namespace Opens

theorem mute (h : Opens known line) :
    ∃ body, line = body ++ [newline] ∧ ∀ c ∈ body, isMute c = true := by
  cases h with
  | @intro indent word gap trail hindent hword hfree hgap htrail =>
    have hname := Lexeme.identifier?_spelled hword (by decide) (by decide)
    refine ⟨indent ++ (word ++ (gap ++ openBrace :: trail)), by simp, ?_⟩
    simp only [List.forall_mem_append, List.forall_mem_cons]
    exact ⟨fun c hc => isMute_of_isBlank (hindent c hc), isMute_identifier hname,
      fun c hc => isMute_of_isBlank (hgap c hc), by decide,
      fun c hc => isMute_of_isBlank (htrail c hc)⟩

theorem reads (h : Opens known line) :
    Unnamed known line ∧ Statement.normalize false line = (line, true) := by
  cases h with
  | @intro indent word gap trail hindent hword hfree hgap htrail =>
    have hname := Lexeme.identifier?_spelled hword (by decide) (by decide)
    have hend : Delimited (gap ++ openBrace :: (trail ++ [newline])) :=
      delimited_of_blanks hgap fun _ => delimited_cons.2 (by decide)
    have hopen : closeBrace ∉ gap ++ openBrace :: (trail ++ [newline]) := by
      have hblank {blanks : Text} (h : ∀ c ∈ blanks, isBlank c = true) : closeBrace ∉ blanks :=
        fun hmem => absurd (h _ hmem) (by decide)
      have hbrace : closeBrace ≠ openBrace := by decide
      have hnewline : closeBrace ≠ newline := by decide
      simp [hblank hgap, hblank htrail, hbrace, hnewline]
    refine ⟨((((unnamed_trail htrail).byte (by decide)).blanks hgap).named hname hend hfree).blanks
      hindent, ?_⟩
    rw [Statement.normalize, if_neg Bool.false_ne_true, skipBlanks_blanks hindent,
      Lexeme.name?_identifier hname hend]
    dsimp only
    rw [if_pos hword, Statement.not_closesGroup hopen, Bool.not_false]

end Opens

namespace Closes

theorem mute (h : Closes line) :
    ∃ body, line = body ++ [newline] ∧ ∀ c ∈ body, isMute c = true := by
  cases h with
  | @intro indent trail hindent htrail =>
    refine ⟨indent ++ closeBrace :: trail, by simp, ?_⟩
    simp only [List.forall_mem_append, List.forall_mem_cons]
    exact ⟨fun c hc => isMute_of_isBlank (hindent c hc), by decide,
      fun c hc => isMute_of_isBlank (htrail c hc)⟩

theorem reads (known : String → Bool) (h : Closes line) :
    Unnamed known line ∧ Statement.normalize true line = (line, false) := by
  cases h with
  | @intro indent trail hindent htrail =>
    refine ⟨((unnamed_trail htrail).byte (by decide)).blanks hindent, ?_⟩
    have hbefore : ∀ c ∈ indent, (c != semicolon) = true := fun c hc => by
      have hne : c ≠ semicolon := ne_of_class (hindent c hc) (by decide)
      simp [hne]
    have hclose : Statement.closesGroup (indent ++ closeBrace :: (trail ++ [newline])) = true := by
      unfold Statement.closesGroup
      rw [List.takeWhile_append_of_pos hbefore, List.takeWhile_cons_of_pos (by decide)]
      simp
    rw [Statement.normalize, if_pos rfl, hclose, Bool.not_true]

end Closes

end Lines

end Assignment

namespace Preprocessor

open Assignment Statement

variable {σ : Type} [LineSource σ] (pp : Preprocessor) (src : σ) {name value line : Text}

/-- A line is one statement if nothing in it means anything to the splitter. -/
theorem processLine_mute {body : Text} (hbody : ∀ c ∈ body, isMute c = true)
    (hnames : Unnamed pp.table.contains (body ++ [newline])) :
    pp.processLine (body ++ [newline]) src =
      ({ pp with
        queue := pp.queue ++ [(Statement.normalize pp.inGroup (body ++ [newline])).1]
        inGroup := (Statement.normalize pp.inGroup (body ++ [newline])).2 }, src) := by
  refine processLine_undivided pp src
    ⟨body, rfl, fun hmem => ne_of_class (hbody _ hmem) (by decide) rfl⟩ ?_ hnames ?_
  · intro hmem
    rcases List.mem_append.1 hmem with hmem | hmem
    · exact ne_of_class (hbody _ hmem) (by decide) rfl
    · exact absurd (List.mem_singleton.1 hmem) (by decide)
  · rw [Undivided.append_iff]
    refine ⟨.of_mute hbody, .of_plain fun c hc => ?_⟩
    rw [List.mem_singleton.1 hc]
    decide

/-- **Every spelling of an assignment makes one statement, which is the same for all of them.** -/
theorem processLine_assigns (h : Assigns pp.table.contains name value line)
    (hgroup : pp.inGroup = false) :
    pp.processLine line src =
      ({ pp with queue := pp.queue ++ [definition name (value ++ [newline])] }, src) := by
  rw [processLine_undivided pp src h.bytes.2 h.bytes.1 h.unnamed h.undivided, hgroup,
    h.normalize_eq, ← hgroup]

/-- In a group it makes the statement that it is. -/
theorem processLine_member (h : Assigns pp.table.contains name value line)
    (hclose : closeBrace ∉ line) (hgroup : pp.inGroup = true) :
    pp.processLine line src = ({ pp with queue := pp.queue ++ [line] }, src) := by
  rw [processLine_undivided pp src h.bytes.2 h.bytes.1 h.unnamed h.undivided, hgroup,
    Statement.normalize, if_pos rfl, not_closesGroup hclose, Bool.not_false, ← hgroup]

theorem processLine_opens (h : Opens pp.table.contains line) (hgroup : pp.inGroup = false) :
    pp.processLine line src = ({ pp with queue := pp.queue ++ [line], inGroup := true }, src) := by
  obtain ⟨hnames, hread⟩ := h.reads
  obtain ⟨body, rfl, hbody⟩ := h.mute
  rw [processLine_mute pp src hbody hnames, hgroup, hread]

theorem processLine_closes (h : Closes line) (hgroup : pp.inGroup = true) :
    pp.processLine line src = ({ pp with queue := pp.queue ++ [line], inGroup := false }, src) := by
  obtain ⟨hnames, hread⟩ := h.reads pp.table.contains
  obtain ⟨body, rfl, hbody⟩ := h.mute
  rw [processLine_mute pp src hbody hnames, hgroup, hread]

/-! ### Groups -/

variable {pp src}

/-- An assignment without a closing brace, which is left alone in a group. -/
def Member (known : String → Bool) (line : Text) : Prop :=
  closeBrace ∉ line ∧ ∃ name value, Assigns known name value line

/-- **Members of a group come out as they are.** -/
theorem Yields.members {members lines made : List Text} {pp' : Preprocessor} {src' : σ}
    (h : Yields pp src (members ++ lines) made pp' src')
    (hmembers : ∀ line ∈ members, Member pp.table.contains line) (hgroup : pp.inGroup = true)
    (hq : pp.queue = []) :
    ∃ locations src₁ more, made = members ++ more ∧
      Yields { pp with locations } src₁ lines more pp' src' := by
  induction members generalizing pp src made with
  | nil => exact ⟨pp.locations, src, made, rfl, h⟩
  | cons line members ih =>
    rw [List.forall_mem_cons] at hmembers
    obtain ⟨⟨hclose, name, value, hassigns⟩, hmembers⟩ := hmembers
    have hline (locations : Locations) (src : σ) :
        processLine { pp with locations } line src =
          ({ pp with queue := [line], locations }, src) := by
      rw [processLine_member { pp with locations } src hassigns hclose hgroup]
      simp only [hq, List.nil_append]
    obtain ⟨_, _, more, rfl, hothers⟩ := h.cons_statement hline hq
    obtain ⟨locations, src₁, more, rfl, hlines⟩ := ih hothers hmembers hgroup hq
    exact ⟨locations, src₁, more, rfl, hlines⟩

theorem Yields.opening {opening : Text} {lines made : List Text} {pp' : Preprocessor} {src' : σ}
    (h : Yields pp src (opening :: lines) made pp' src') (hopens : Opens pp.table.contains opening)
    (hgroup : pp.inGroup = false) (hq : pp.queue = []) :
    ∃ locations src₁ more, made = opening :: more ∧
      Yields { pp with inGroup := true, locations } src₁ lines more pp' src' := by
  have hline (locations : Locations) (src : σ) :
      processLine { pp with locations } opening src =
        ({ pp with queue := [opening], inGroup := true, locations }, src) := by
    rw [processLine_opens { pp with locations } src hopens hgroup]
    simp only [hq, List.nil_append]
  exact h.cons_statement hline hq

theorem Yields.closing {closing : Text} {lines made : List Text} {pp' : Preprocessor} {src' : σ}
    (h : Yields pp src (closing :: lines) made pp' src') (hcloses : Closes closing)
    (hgroup : pp.inGroup = true) (hq : pp.queue = []) :
    ∃ locations src₁ more, made = closing :: more ∧
      Yields { pp with inGroup := false, locations } src₁ lines more pp' src' := by
  have hline (locations : Locations) (src : σ) :
      processLine { pp with locations } closing src =
        ({ pp with queue := [closing], inGroup := false, locations }, src) := by
    rw [processLine_closes { pp with locations } src hcloses hgroup]
    simp only [hq, List.nil_append]
  exact h.cons_statement hline hq

/-- **All spellings of an assignment come to one, and groups suspend that.**  Outside a group the
line makes the one statement.  The assignments behind a line that opens a group come out as they
are, and once a line has closed the group they come to one spelling again. -/
theorem assignments_come_to_one_spelling (pp : Preprocessor) (src : σ)
    (hgroup : pp.inGroup = false) (hq : pp.queue = [])
    (hassigns : Assigns pp.table.contains name value line) :
    pp.processLine line src =
      ({ pp with queue := [definition name (value ++ [newline])] }, src) ∧
    ∀ opening members closing, Opens pp.table.contains opening →
      (∀ line ∈ members, Member pp.table.contains line) → Closes closing →
      ∀ made pp' (src' : σ),
        (Yields pp src (opening :: members) made pp' src' →
          made = opening :: members ∧
            pp' = { pp with inGroup := true, locations := pp'.locations }) ∧
        (Yields pp src (opening :: (members ++ [closing, line])) made pp' src' →
          made = opening :: (members ++ [closing, definition name (value ++ [newline])]) ∧
            pp' = { pp with locations := pp'.locations }) := by
  have hline (locations : Locations) (src : σ) :
      processLine { pp with locations } line src =
        ({ pp with queue := [definition name (value ++ [newline])], locations }, src) := by
    rw [processLine_assigns { pp with locations } src hassigns hgroup]
    simp only [hq, List.nil_append]
  refine ⟨hline pp.locations src, ?_⟩
  intro opening members closing hopens hmembers hcloses made pp' src'
  refine ⟨fun h => ?_, fun h => ?_⟩
  · obtain ⟨_, _, made, rfl, hopened⟩ := h.opening hopens hgroup hq
    rw [← List.append_nil members] at hopened
    obtain ⟨_, _, made, rfl, hpassed⟩ := hopened.members hmembers rfl hq
    cases hpassed with
    | done => exact ⟨by rw [List.append_nil], rfl⟩
  · obtain ⟨_, _, made, rfl, hopened⟩ := h.opening hopens hgroup hq
    obtain ⟨_, _, made, rfl, hpassed⟩ := hopened.members hmembers rfl hq
    obtain ⟨_, _, made, rfl, hclosed⟩ := hpassed.closing hcloses rfl hq
    rw [← hgroup] at hclosed
    obtain ⟨_, _, made, rfl, hlast⟩ :=
      hclosed.cons_statement (fun locations src => hline locations src) hq
    cases hlast with
    | done => exact ⟨rfl, rfl⟩

/-- A group with one member, and behind it a label with a conditional. -/
theorem spelling_behind_group :
    let lines := [ofString " DefGroup\x7b\n", ofString "\t.A =1\n", ofString "\x7d\n",
      ofString "N:\tEQU c ? 1 : ':'\n"]
    ∃ pp' src', Yields {} (Feed.ofAnswers "a" (lines.map fun line => .ok (some line))) lines
      [ofString " DefGroup\x7b\n", ofString "\t.A =1\n", ofString "\x7d\n",
        ofString "defc N = c ? 1 : ':'\n"] pp' src' := by
  intro lines
  have hassigns : Assigns MacroTable.empty.contains (ofString "N") (ofString "c ? 1 : ':'")
      (ofString "N:\tEQU c ? 1 : ':'\n") := by
    have hline : ofString "N:\tEQU c ? 1 : ':'\n" = [] ++ ((ofString "N" ++ [colon]) ++
        (([tab] ++ (ofString "EQU" ++ [space])) ++ (ofString "c ? 1 : ':'" ++ [newline]))) := by
      decide
    rw [hline]
    exact .intro (List.forall_mem_nil _) ⟨by decide, by decide, rfl, rfl⟩ .label
      (.word (List.forall_mem_singleton.2 rfl) (by decide) (by decide) rfl
        (List.forall_mem_singleton.2 rfl) (by decide))
      ⟨⟨_, _, rfl, by decide⟩, List.all_iff_forall_prop.1 (by decide), by decide, by decide⟩
      fun _ _ => rfl
  have hmember : Member MacroTable.empty.contains (ofString "\t.A =1\n") := by
    have hline : ofString "\t.A =1\n" = [tab] ++ ((dot :: ofString "A") ++
        (([space] ++ equals :: []) ++ (ofString "1" ++ [newline]))) := by decide
    refine ⟨by decide, ofString "A", ofString "1", ?_⟩
    rw [hline]
    exact .intro (List.forall_mem_singleton.2 rfl) ⟨by decide, by decide, rfl, rfl⟩ .dotted
      (.equals (List.forall_mem_singleton.2 rfl) (List.forall_mem_nil _))
      ⟨⟨_, _, rfl, by decide⟩, List.all_iff_forall_prop.1 (by decide), by decide, by decide⟩
      fun _ _ => rfl
  have hopens : Opens MacroTable.empty.contains (ofString " DefGroup\x7b\n") := by
    have hline : ofString " DefGroup\x7b\n" = [space] ++ (ofString "DefGroup" ++
        ([] ++ openBrace :: ([] ++ [newline]))) := by decide
    rw [hline]
    exact .intro (List.forall_mem_singleton.2 rfl) (by decide) rfl (List.forall_mem_nil _)
      (List.forall_mem_nil _)
  have hcloses : Closes (ofString "\x7d\n") := by
    have hline : ofString "\x7d\n" = [] ++ closeBrace :: ([] ++ [newline]) := by decide
    rw [hline]
    exact .intro (List.forall_mem_nil _) (List.forall_mem_nil _)
  let feed := Feed.ofAnswers "a" (lines.map fun line => .ok (some line))
  obtain ⟨made, pp', src', h⟩ : ∃ made pp' src', Yields {} feed lines made pp' src' :=
    ⟨_, _, _, .next rfl (processLine_opens _ _ hopens rfl) (.next rfl
      (processLine_member _ _ hmember.2.choose_spec.choose_spec hmember.1 rfl) (.next rfl
        (processLine_closes _ _ hcloses rfl) (.next rfl (processLine_assigns _ _ hassigns rfl)
          (.done _ _))))⟩
  obtain ⟨-, hgroups⟩ := assignments_come_to_one_spelling {} feed rfl rfl hassigns
  have hmade := (hgroups _ [ofString "\t.A =1\n"] _ hopens (by simpa using hmember) hcloses made
    pp' src').2 h
  have hlast : definition (ofString "N") (ofString "c ? 1 : ':'" ++ [newline]) =
      ofString "defc N = c ? 1 : ':'\n" := by decide
  rw [hmade.1, hlast] at h
  exact ⟨pp', src', h⟩

end Preprocessor

end AsmPrep
