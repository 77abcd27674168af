/-
Lines that are one statement.

Where nothing in a line ends a statement, and none of its names means a macro, the splitter hands
the line on as it stands, with whatever is in its strings.  A colon need not end a statement: it
may answer a question, and the one behind a name that is the only one so far is the mark of a
label.

A colon is judged by the text before it, back to where its statement begins.  So a line can be
looked at in parts, each behind the parts before it.
-/
import AsmPrep.Proofs.Preprocessor.Lines
import AsmPrep.Proofs.Statement.Splitting
import AsmPrep.Proofs.Text.LineEnd

namespace AsmPrep

open Byte

/-! ### Texts that name no macro -/

/-- A byte that is no sigil has no part in a name. -/
theorem Token.mentions_byte {c : Byte} (hc : isSigil c = false) (next : Option Token) :
    (Token.byte c).mentions next = [] := by
  cases next with
  | none => rfl
  | some t =>
    cases t with
    | name text => exact if_neg (by simp [hc])
    | number text => rfl
    | quoted text => rfl
    | byte d => rfl

namespace Text.Unnamed

open Quoting

variable {known : String → Bool} {s rest text : Text} {t : Token} {c : Byte}

theorem nil : Unnamed known [] := by
  intro name hname
  rw [tokens_nil] at hname
  exact absurd hname List.not_mem_nil

theorem of_at (hat : TokenAt s t rest)
    (hnames : ∀ name ∈ t.mentions (tokens rest).head?, known (toName name) = false)
    (h : Unnamed known rest) : Unnamed known s := by
  intro name hname
  rw [tokens_of hat, mentions] at hname
  exact (List.mem_append.1 hname).elim (hnames name) (h name)

theorem byte (hc : beginsToken c = false) (h : Unnamed known s) : Unnamed known (c :: s) := by
  have hsigil : isSigil c = false := by
    simp only [beginsToken, Bool.or_eq_false_iff] at hc
    exact hc.1.1.2
  refine of_at (tokenAt_byte hc s) (fun name hname => ?_) h
  rw [Token.mentions_byte hsigil] at hname
  exact absurd hname List.not_mem_nil

theorem blanks {blanks : Text} (hblanks : ∀ c ∈ blanks, isBlank c = true) (h : Unnamed known s) :
    Unnamed known (blanks ++ s) := by
  induction blanks with
  | nil => exact h
  | cons c blanks ih =>
    rw [List.forall_mem_cons] at hblanks
    exact (ih hblanks.2).byte (not_beginsToken_of_isBlank hblanks.1)

theorem named (hname : Lexeme.identifier? text = some (text, [])) (hrest : Delimited rest)
    (hknown : known (toName text) = false) (h : Unnamed known rest) :
    Unnamed known (text ++ rest) := by
  refine of_at (tokenAt_name hname hrest) (fun name hmem => ?_) h
  obtain rfl := List.mem_singleton.1 hmem
  exact hknown

/-- With a dot before the name, both names count. -/
theorem dotted (hname : Lexeme.identifier? text = some (text, [])) (hrest : Delimited rest)
    (hknown : known (toName text) = false) (hdot : known (toName (dot :: text)) = false)
    (h : Unnamed known rest) : Unnamed known (dot :: (text ++ rest)) := by
  have hnumber : Lexeme.number? (dot :: (text ++ rest)) = none := by
    cases text ++ rest <;> rfl
  have hat : TokenAt (dot :: (text ++ rest)) (.byte dot) (text ++ rest) := .byte hnumber rfl rfl
  refine of_at hat (fun name hmem => ?_) (h.named hname hrest hknown)
  rw [tokens_of (tokenAt_name hname hrest), List.head?_cons, Token.mentions,
    if_pos (by decide), List.mem_singleton] at hmem
  rw [hmem]
  exact hdot

/-- What is a name before the line end is one without it. -/
theorem identifier?_of_newline (h : (tokens (s ++ [newline])).head? = some (.name text)) :
    ∃ rest, Lexeme.identifier? s = some (text, rest) := by
  cases s with
  | nil =>
    rw [List.nil_append, tokens_of (tokenAt_byte (by decide) [])] at h
    exact absurd h (by simp)
  | cons c s =>
    have hat := firstToken_at c (s ++ [newline])
    rw [List.cons_append, tokens, List.head?_cons, Option.some.injEq] at h
    rw [h, ← List.cons_append] at hat
    cases hat with
    | name hnumber hname =>
      rw [Lexeme.identifier?_tail delimited_newline (List.cons_ne_nil c s)] at hname
      obtain ⟨found, hfound, heq⟩ := Option.map_eq_some_iff.1 hname
      obtain ⟨rfl, -⟩ := Prod.mk.inj heq
      exact ⟨found.2, hfound⟩

/-- No name comes of the end of the line behind what follows a token. -/
theorem mentions_newline (hat : TokenAt s t rest) (h : Unnamed known s) :
    ∀ name ∈ t.mentions (tokens (rest ++ [newline])).head?, known (toName name) = false := by
  intro name hname
  unfold Token.mentions at hname
  split at hname
  · rename_i text _
    obtain rfl := List.mem_singleton.1 hname
    exact h.name hat
  · rename_i d text hhead
    obtain ⟨behind, hidentifier⟩ := identifier?_of_newline hhead
    split at hname
    · rename_i hsigil
      obtain rfl := List.mem_singleton.1 hname
      obtain rfl : d :: rest = s := hat.spelled
      exact (h.sigil hat hsigil hidentifier).1
    · exact absurd hname List.not_mem_nil
  · exact absurd hname List.not_mem_nil

/-- A string that is open takes the end of the line along, and nothing follows it. -/
theorem tokenAt_open (hat : TokenAt (c :: s) t rest) (hback : backslash ∉ c :: s)
    (hopen : outside.after t.text ≠ outside) :
    TokenAt (c :: s ++ [newline]) (.quoted (c :: s ++ [newline])) [] := by
  cases hat with
  | quoted hnumber hname hquoted =>
    obtain ⟨quote, inner, heq, hquote, rfl, -⟩ := Lexeme.quoted?_eq_some hquoted
    obtain ⟨rfl, rfl⟩ := List.cons.inj heq
    rw [Token.text, after_cons, next, if_pos hquote] at hopen
    have hclose := Lexeme.closeQuote_open (fun hmem => hback (List.mem_cons_of_mem _ hmem)) hopen
    refine .quoted ?_ ?_ ?_
    · rw [Lexeme.number?_newline, hnumber, Option.map_none]
    · rw [Lexeme.identifier?_tail delimited_newline (List.cons_ne_nil c s), hname, Option.map_none]
    · rw [List.cons_append, Lexeme.quoted?, if_pos hquote, hclose]
      rfl
  | number hnumber =>
    exact absurd ((TokenAt.number hnumber).after_text_of_ne fun _ => by simp) hopen
  | name hnumber hname =>
    exact absurd ((TokenAt.name hnumber hname).after_text_of_ne fun _ => by simp) hopen
  | byte hnumber hname hquoted =>
    exact absurd ((TokenAt.byte hnumber hname hquoted).after_text_of_ne fun _ => by simp) hopen

/-- The end of the line adds no name, not even to a string that runs on over it. -/
theorem newline (hback : backslash ∉ s) (h : Unnamed known s) :
    Unnamed known (s ++ [Byte.newline]) := by
  induction s using tokens.induct with
  | case1 => exact nil.byte (by decide)
  | case2 c s ih =>
    have hat := firstToken_at c s
    have hspelled := hat.spelled
    -- Only a string can be left open by its token, and then it is the last one.
    by_cases hclosed : outside.after (firstToken c s).1.text = outside
    · have hothers := ih (fun hmem => hback (hspelled ▸ List.mem_append_right _ hmem)) (h.tail hat)
      exact of_at (hat.tail hclosed delimited_newline) (mentions_newline hat h) hothers
    · exact of_at (tokenAt_open hat hback hclosed) (fun _ hmem => absurd hmem List.not_mem_nil) nil

end Text.Unnamed

namespace Statement

open Expansion Text Quoting

variable {q : Quoting} {stmt s t : Text}

/-! ### Texts that end no statement -/

/-- Nothing in the text ends the statement, which is `stmt` before it, for a reader who is there. -/
def Undivided (q : Quoting) (stmt s : Text) : Prop :=
  ∀ front c back, s = front ++ c :: back → q.after front = outside →
    c ≠ semicolon ∧ ¬ Cuts (stmt ++ front) c

namespace Undivided

theorem nil (q : Quoting) (stmt : Text) : Undivided q stmt [] :=
  fun _ _ _ heq => absurd heq.symm (by simp)

/-- What is said of a text is said of each part of it behind the parts before. -/
theorem append_iff :
    Undivided q stmt (s ++ t) ↔ Undivided q stmt s ∧ Undivided (q.after s) (stmt ++ s) t := by
  constructor
  · intro h
    refine ⟨?_, ?_⟩
    · rintro front c back rfl hfront
      exact h front c (back ++ t) (by simp) hfront
    · rintro front c back rfl hfront
      have hnow := h (s ++ front) c back (by simp) (by rwa [after_append])
      rwa [← List.append_assoc] at hnow
  · rintro ⟨hs, ht⟩ front c back heq hfront
    rcases List.append_eq_append_iff.1 heq with ⟨more, rfl, hback⟩ | ⟨more, rfl, hmore⟩
    · rw [after_append] at hfront
      rw [← List.append_assoc]
      exact ht more c back hback hfront
    · cases more with
      | nil =>
        rw [List.append_nil] at ht
        have hnow := ht [] c back hmore.symm hfront
        rwa [List.append_nil] at hnow
      | cons d more =>
        obtain ⟨rfl, -⟩ := List.cons.inj hmore
        exact hs front c more rfl hfront

/-- Bytes that mean nothing to the splitter end no statement, be they in a string or not. -/
theorem of_plain (h : ∀ c ∈ s, c ≠ semicolon ∧ c ≠ backslash ∧ c ≠ colon) :
    Undivided q stmt s := by
  rintro front c back rfl -
  obtain ⟨hsemicolon, hback, hcolon⟩ := h c (List.mem_append_right _ List.mem_cons_self)
  exact ⟨hsemicolon, fun hcut => hcut.elim hback fun hcut => hcolon hcut.1⟩

end Undivided

/-! ### What the splitter hands on -/

/-- **A text that ends no statement and names no macro is handed on as it stands.** -/
theorem splitFrom_undivided {e : Expander} {st : State} {out : Buffer} {n : Counts}
    {ts : List Token} (hhash : hash ∉ s) (hnames : Unnamed st.table.contains s)
    (h : Underway ts s n) (hs : Undivided outside (spell ts) s) :
    splitFrom e s st out n = (st, [(out.append s).toText]) := by
  fun_induction splitFrom e s st out n generalizing ts with
  | case1 st out n => simp
  | case2 st out n c r isName p hp ih =>
    obtain ⟨t, hat, ht, rfl, hstate, hout⟩ :=
      at_of_token hp (fun hc => hhash (hc ▸ List.mem_cons_self)) hnames
    rw [← hat.spelled] at hhash hs
    have hrest : Undivided outside (spell (ts ++ [t])) p.rest := by
      by_cases hnil : p.rest = []
      · rw [hnil]
        exact .nil _ _
      · have hbehind := (Undivided.append_iff.1 hs).2
        rw [hat.after_text hnil] at hbehind
        simpa using hbehind
    have hothers := ih (fun hmem => hhash (List.mem_append_right _ hmem))
      (hstate ▸ hnames.tail hat) (h.token hat ht) hrest
    refine hothers.trans ?_
    rw [hstate, hout, Buffer.toText_append, Buffer.toText_append, Buffer.toText_append,
      List.append_assoc, hat.spelled]
  | case3 st out n c r hp he =>
    -- Here a comment would begin, and below the statement would end.
    rw [h.effect_eq] at he
    have hsemicolon := (hs [] c r rfl rfl).1
    grind
  | case4 st out n c r hp he ih =>
    rw [h.effect_eq] at he
    have hkeep := (hs [] c r rfl rfl).2
    rw [List.append_nil] at hkeep
    grind
  | case5 st out n c r hp n' he ih =>
    have hat := at_of_no_token hp hnames
    obtain ⟨hsemicolon, hkeep⟩ := hs [] c r rfl rfl
    rw [List.append_nil] at hkeep
    rw [h.effect_eq, if_neg hsemicolon, if_neg hkeep] at he
    obtain rfl := Effect.keep.inj he
    have hbehind := (Undivided.append_iff.1 (show Undivided outside (spell ts) ([c] ++ r) from hs)).2
    have hquote : outside.after [c] = outside := hat.next_byte
    rw [hquote] at hbehind
    have hothers := ih (fun hmem => hhash (List.mem_cons_of_mem _ hmem)) (hnames.tail hat)
      (h.byte hat) (by simpa [Token.text] using hbehind)
    rw [hothers]
    simp

end Statement

/-! ### The line as a whole -/

namespace Preprocessor

open Statement Text Quoting

/-- Such a line is the one piece that its statement is made of. -/
theorem processLine_undivided {σ : Type} [LineSource σ] (pp : Preprocessor) (src : σ) {line : Text}
    (hwhole : Whole line) (hhash : hash ∉ line) (hnames : Unnamed pp.table.contains line)
    (hline : Undivided outside [] line) :
    pp.processLine line src =
      ({ pp with
        queue := pp.queue ++ [(normalize pp.inGroup line).1]
        inGroup := (normalize pp.inGroup line).2 }, src) := by
  have hsplit : Statement.split line pp.table = ({ table := pp.table }, [line]) := by
    rw [Statement.split, splitFrom_undivided hhash hnames (underway_start line) hline]
    simp
  rw [processLine_of_head fun hhead => hhash (List.mem_of_mem_head? hhead),
    expandLine_of_piece hsplit hwhole]

end Preprocessor

end AsmPrep
