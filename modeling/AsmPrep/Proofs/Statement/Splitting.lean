/-
Where a line is cut into statements.

The splitter keeps counts of the statement it is in.  What they say can be read off the text of
the statement instead: how many of its questions are open, and whether a name just ends that is
its only one.  A line that mentions no macro is cut by that alone, byte after byte: `cutFrom`
puts a newline for a backslash, for a colon that neither answers a question nor marks a label,
and for the comment, and leaves every other byte where it is.

So nothing gets lost.  Cut into statements or not, the bytes of the line stay at their places,
those of strings all of them, and no colon is cut at that a question mark of its statement is
still waiting for.
-/
import AsmPrep.Proofs.Macro.Token
import AsmPrep.Proofs.Statement.LineEnd

namespace AsmPrep

open Byte

/-! ### Names in a text -/

/-- The names that a token can be taken for with the sigil before it or without. -/
def Token.mentions : Token → Option Token → List Text
  | .name text, _ => [text]
  | .byte c, some (.name text) => if isSigil c then [c :: text] else []
  | _, _ => []

namespace Text

/-- The names in a text, without their sigils and with them. -/
def mentions : List Token → List Text
  | [] => []
  | t :: ts => t.mentions ts.head? ++ mentions ts

/-- No name in the text means a macro, be it with its sigil or without. -/
def Unnamed (known : String → Bool) (s : Text) : Prop :=
  ∀ name ∈ mentions (tokens s), known (toName name) = false

instance (known : String → Bool) (s : Text) : Decidable (Unnamed known s) :=
  inferInstanceAs (Decidable (∀ name ∈ mentions (tokens s), known (toName name) = false))

/-- The text behind the last newline. -/
def lastLine : Text → Text
  | [] => []
  | c :: s => if newline ∈ s then lastLine s else if c = newline then s else c :: s

theorem lastLine_eq_self {s : Text} (h : newline ∉ s) : lastLine s = s := by
  cases s with
  | nil => rfl
  | cons c s =>
    rw [List.mem_cons, not_or] at h
    rw [lastLine, if_neg h.2, if_neg (Ne.symm h.1)]

theorem lastLine_append (front s : Text) : lastLine (front ++ newline :: s) = lastLine s := by
  induction front with
  | nil =>
    rw [List.nil_append, lastLine]
    split
    · rfl
    · rename_i hs
      rw [if_pos rfl, lastLine_eq_self hs]
  | cons c front ih => rw [List.cons_append, lastLine, if_pos (by simp), ih]

namespace Unnamed

variable {known : String → Bool} {s rest : Text} {t : Token}

theorem tail (h : Unnamed known s) (hat : TokenAt s t rest) : Unnamed known rest := by
  intro name hname
  refine h name ?_
  rw [tokens_of hat, mentions]
  exact List.mem_append_right _ hname

theorem name {text : Text} (h : Unnamed known s) (hat : TokenAt s (.name text) rest) :
    known (toName text) = false := by
  refine h text ?_
  rw [tokens_of hat, mentions]
  exact List.mem_append_left _ (List.mem_singleton.2 rfl)

theorem sigil {c : Byte} {text : Text} (h : Unnamed known (c :: s))
    (hat : TokenAt (c :: s) (.byte c) s) (hc : isSigil c = true)
    (hi : Lexeme.identifier? s = some (text, rest)) :
    known (toName (c :: text)) = false ∧ known (toName text) = false := by
  have hname : TokenAt s (.name text) rest := .name (Lexeme.number?_of_identifier? hi) hi
  refine ⟨h (c :: text) ?_, (h.tail hat).name hname⟩
  rw [tokens_of hat, tokens_of hname, mentions]
  refine List.mem_append_left _ ?_
  rw [List.head?_cons, Token.mentions, if_pos hc]
  exact List.mem_singleton.2 rfl

end Unnamed

end Text

namespace Statement

open Expansion Text Quoting

/-! ### The counts -/

/-- The text ends with a name, and has no other. -/
def LabelEnd (stmt : Text) : Prop :=
  (tokens stmt).countP Token.isName = 1 ∧ (tokens stmt).getLast?.any Token.isName = true

instance (stmt : Text) : Decidable (LabelEnd stmt) := inferInstanceAs (Decidable (_ ∧ _))

/-- The counts are those of a statement that is these tokens so far. -/
structure Counted (ts : List Token) (n : Counts) : Prop where
  questions : n.openQuestions = unanswered (spell ts)
  names : n.names = ts.countP Token.isName
  afterName : n.afterName = ts.getLast?.any Token.isName

theorem counted_nil : Counted [] {} := ⟨rfl, rfl, rfl⟩

section Counted

variable {ts : List Token} {n : Counts} {t : Token}

theorem Counted.name {text : Text} (h : Counted ts n)
    (hq : unanswered (spell (ts ++ [.name text])) = unanswered (spell ts)) :
    Counted (ts ++ [.name text]) n.name :=
  ⟨h.questions.trans hq.symm, by simp [Counts.name, h.names, Token.isName],
    by simp [Counts.name, Token.isName]⟩

theorem Counted.other (h : Counted ts n) (ht : t.isName = false)
    (hq : unanswered (spell (ts ++ [t])) = unanswered (spell ts)) :
    Counted (ts ++ [t]) n.other :=
  ⟨h.questions.trans hq.symm, by simp [Counts.other, h.names, ht], by simp [Counts.other, ht]⟩

/-- At a delimiter the counts tell whether a label ends. -/
theorem Counted.atLabel_iff (h : Counted ts n) (htokens : tokens (spell ts) = ts) :
    n.atLabel = true ↔ LabelEnd (spell ts) := by
  unfold Counts.atLabel LabelEnd
  rw [htokens, h.names, h.afterName, Bool.and_eq_true, beq_iff_eq]
  exact And.comm

end Counted

/-! ### Cutting by the text alone -/

/-- A statement that is `stmt` so far ends at the byte. -/
def Cuts (stmt : Text) (c : Byte) : Prop :=
  c = backslash ∨ c = colon ∧ unanswered stmt = 0 ∧ ¬ LabelEnd stmt

instance (stmt : Text) (c : Byte) : Decidable (Cuts stmt c) := inferInstanceAs (Decidable (_ ∨ _))

/-- The text with a newline where a statement ends and for the comment.  The statement it begins
in is `stmt` before it. -/
def cutFrom : Quoting → Text → Text → Text
  | _, _, [] => []
  | q, stmt, c :: s =>
    if q = outside ∧ c = semicolon then [newline]
    else if q = outside ∧ Cuts stmt c then newline :: cutFrom q [] s
    else c :: cutFrom (q.next c) (stmt ++ [c]) s

theorem cutFrom_enclosed {q : Quoting} {w : Text} (stmt s : Text) (h : Enclosed q w) :
    cutFrom q stmt (w ++ s) = w ++ cutFrom (q.after w) (stmt ++ w) s := by
  induction w generalizing q stmt with
  | nil => rw [List.append_nil]; rfl
  | cons c w ih =>
    rw [List.cons_append, cutFrom, if_neg fun hc => h.1 hc.1, if_neg fun hc => h.1 hc.1,
      ih _ h.2, List.append_assoc, List.singleton_append]
    rfl

theorem cutFrom_word {w : Text} (stmt s : Text) (h : ∀ c ∈ w, isWordByte c = true) :
    cutFrom outside stmt (w ++ s) = w ++ cutFrom outside (stmt ++ w) s := by
  induction w generalizing stmt with
  | nil => rw [List.append_nil]; rfl
  | cons c w ih =>
    obtain ⟨hquote, hsemicolon, hback, -, hcolon, -⟩ :=
      not_special_of_isWordByte (h c List.mem_cons_self)
    have hcuts : ¬ Cuts stmt c := fun hc => hc.elim hback fun hc => hcolon hc.1
    rw [List.cons_append, cutFrom, if_neg fun hc => hsemicolon hc.2, if_neg fun hc => hcuts hc.2,
      next_outside hquote, ih _ fun d hd => h d (List.mem_cons_of_mem _ hd), List.append_assoc,
      List.singleton_append]
    rfl

/-- A token other than a byte is left as it is. -/
theorem cutFrom_token {s rest : Text} {t : Token} (stmt : Text) (h : TokenAt s t rest)
    (ht : ∀ c, t ≠ .byte c) :
    cutFrom outside stmt s = t.text ++ cutFrom outside (stmt ++ t.text) rest := by
  have hafter := h.after_text
  rw [← h.spelled]
  cases h with
  | number h => exact cutFrom_word stmt rest (Lexeme.number?_bytes h)
  | name _ h =>
    exact cutFrom_word stmt rest
      fun c hc => isWordByte_of_isIdentChar (Lexeme.identifier?_bytes h c hc)
  | quoted _ _ h =>
    obtain ⟨quote, inner, -, hquote, rfl, hrest⟩ := Lexeme.quoted?_eq_some h
    have hkeep : ¬ Cuts stmt quote := by
      rintro (hback | ⟨hcolon, -⟩)
      · exact ne_of_class hquote (by decide) hback
      · exact ne_of_class hquote (by decide) hcolon
    have hsemicolon : quote ≠ semicolon := ne_of_class hquote (by decide)
    show cutFrom outside stmt (quote :: (_ ++ rest)) = quote :: (_ ++ cutFrom outside _ rest)
    rw [cutFrom, if_neg fun hc => hsemicolon hc.2, if_neg fun hc => hkeep hc.2, next, if_pos hquote,
      cutFrom_enclosed _ _ (Lexeme.enclosed_closeQuote quote inner), List.append_assoc,
      List.singleton_append]
    cases rest with
    | nil => rfl
    | cons d rest =>
      have hclosed := hafter (List.cons_ne_nil d rest)
      rw [Token.text, after_cons, next, if_pos hquote] at hclosed
      rw [hclosed]
      rfl
  | byte => exact absurd rfl (ht _)

/-- It asks and answers nothing, either. -/
theorem questions_token {s rest : Text} {t : Token} (n : Nat) (h : TokenAt s t rest)
    (ht : ∀ c, t ≠ .byte c) : questions outside n t.text = n := by
  have hword {text : Text} (hbytes : ∀ c ∈ text, isWordByte c = true) :
      questions outside n text = n := by
    refine questions_inert n ?_
    intro c hc
    obtain ⟨hquote, -, -, hquestion, hcolon, -⟩ := not_special_of_isWordByte (hbytes c hc)
    exact ⟨hquote, hquestion, hcolon⟩
  cases h with
  | number h => exact hword (Lexeme.number?_bytes h)
  | name _ h => exact hword fun c hc => isWordByte_of_isIdentChar (Lexeme.identifier?_bytes h c hc)
  | quoted _ _ h =>
    obtain ⟨quote, inner, -, hquote, rfl, -⟩ := Lexeme.quoted?_eq_some h
    have hquestion : quote ≠ question := ne_of_class hquote (by decide)
    have hcolon : quote ≠ colon := ne_of_class hquote (by decide)
    rw [Token.text, questions, if_neg fun hc => hquestion hc.2, if_neg fun hc => hcolon hc.2, next,
      if_pos hquote]
    exact questions_enclosed n (Lexeme.enclosed_closeQuote quote inner)
  | byte => exact absurd rfl (ht _)

/-! ### What the splitter takes -/

section Token

variable {e : Expander} {s rest : Text} {st : State} {out : Buffer} {t : Token}

/-- A token that is no macro's name is copied, and counts as a name if it is one. -/
theorem token_of_at (e : Expander) (st : State) (out : Buffer) (h : TokenAt s t rest)
    (ht : ∀ c, t ≠ .byte c)
    (hname : ∀ text, t = .name text → st.table.contains (toName text) = false) :
    ∃ p, token e s st out = some (t.isName, p) ∧ p.parts = (rest, st, out.append t.text) := by
  have hnumber' := number_perform e s st out
  cases h with
  | number h =>
    rw [numberItem, h] at hnumber'
    obtain ⟨p, hp, hparts⟩ := Option.map_eq_some_iff.1 hnumber'
    refine ⟨p, ?_, hparts⟩
    rw [token, hp]
    rfl
  | name hnumber h =>
    rw [numberItem_none hnumber] at hnumber'
    have hcall := scanCall_perform e s st out
    rw [nameItem_identifier h, if_neg (by simp [hname _ rfl])] at hcall
    obtain ⟨p, hp, hparts⟩ := Option.map_eq_some_iff.1 hcall
    refine ⟨p, ?_, hparts⟩
    rw [token, Option.map_eq_none_iff.1 hnumber', hp]
    rfl
  | quoted hnumber hident h =>
    rw [numberItem_none hnumber] at hnumber'
    have hcall := scanCall_perform e s st out
    rw [nameItem_quoted hident h] at hcall
    have hquoted := quoted_perform e s st out
    rw [quotedItem, h] at hquoted
    obtain ⟨p, hp, hparts⟩ := Option.map_eq_some_iff.1 hquoted
    refine ⟨p, ?_, hparts⟩
    rw [token, Option.map_eq_none_iff.1 hnumber', Option.map_eq_none_iff.1 hcall, hp]
    rfl
  | byte => exact absurd rfl (ht _)

/-- A byte that no token begins with is left to the splitter. -/
theorem token_of_byte {c : Byte} (h : TokenAt (c :: s) (.byte c) s) (hhash : c ≠ hash)
    (hnames : Unnamed st.table.contains (c :: s)) : token e (c :: s) st out = none :=
  token_none (argumentItem_byte h hhash fun hc _ _ hi => hnames.sigil h hc hi)

/-- What the splitter takes, a byte apart, is the token that stands there. -/
theorem at_of_token {c : Byte} {isName : Bool} {p : Progress (c :: s)}
    (h : token e (c :: s) st out = some (isName, p)) (hhash : c ≠ hash)
    (hnames : Unnamed st.table.contains (c :: s)) :
    ∃ t, TokenAt (c :: s) t p.rest ∧ (∀ d, t ≠ .byte d) ∧ isName = t.isName ∧
      p.state = st ∧ p.out = out.append t.text := by
  rcases first_cases c s with ⟨t, rest, hat, ht⟩ | hat
  · obtain ⟨q, hq, hparts⟩ := token_of_at e st out hat ht
      fun text htext => hnames.name (htext ▸ hat)
    obtain ⟨rfl, rfl⟩ := Prod.mk.inj (Option.some.inj (h.symm.trans hq))
    simp only [Progress.parts, Prod.mk.injEq] at hparts
    obtain ⟨rfl, hstate, hout⟩ := hparts
    exact ⟨t, hat, ht, rfl, hstate, hout⟩
  · rw [token_of_byte hat hhash hnames] at h
    exact absurd h (by simp)

/-- Where it takes nothing, a byte stands. -/
theorem at_of_no_token {c : Byte} (h : token e (c :: s) st out = none)
    (hnames : Unnamed st.table.contains (c :: s)) : TokenAt (c :: s) (.byte c) s := by
  rcases first_cases c s with ⟨t, rest, hat, ht⟩ | hat
  · obtain ⟨q, hq, -⟩ := token_of_at e st out hat ht
      fun text htext => hnames.name (htext ▸ hat)
    exact absurd (h.symm.trans hq) (by simp)
  · exact hat

end Token

/-! ### The whole line -/

/-- What is known of the splitter on its way: the statement so far is these tokens, they are
tokens of the line too, no string is open, and the counts are theirs. -/
structure Underway (ts : List Token) (s : Text) (n : Counts) : Prop where
  tokens : tokens (spell ts ++ s) = ts ++ tokens s
  closed : s ≠ [] → outside.after (spell ts) = outside
  counted : Counted ts n

theorem underway_start (s : Text) : Underway [] s {} := ⟨rfl, fun _ => rfl, counted_nil⟩

section Underway

variable {ts : List Token} {s rest : Text} {n : Counts} {t : Token}

theorem Underway.unanswered_append (h : Underway ts s n) (hs : s ≠ []) (w : Text) :
    unanswered (spell ts ++ w) = questions outside n.openQuestions w := by
  rw [unanswered, questions_append, h.closed hs, h.counted.questions]
  rfl

/-- At a delimiter the tokens of the statement are those of its text. -/
theorem Underway.tokens_spell (h : Underway ts s n) (hs : s ≠ []) (hd : Delimited s) :
    Text.tokens (spell ts) = ts := by
  have happend := tokens_append (h.closed hs) hd
  rw [h.tokens] at happend
  exact (List.append_cancel_right happend).symm

theorem Underway.step {n' : Counts} (h : Underway ts s n) (hat : TokenAt s t rest)
    (hcounted : Counted (ts ++ [t]) n') : Underway (ts ++ [t]) rest n' := by
  refine ⟨?_, ?_, hcounted⟩
  · have htokens := h.tokens
    rw [tokens_of hat, ← hat.spelled] at htokens
    simpa using htokens
  · intro hrest
    rw [spell_append, after_append, h.closed hat.ne_nil]
    simpa using hat.after_text hrest

theorem Underway.token (h : Underway ts s n) (hat : TokenAt s t rest) (ht : ∀ c, t ≠ .byte c) :
    Underway (ts ++ [t]) rest (if t.isName then n.name else n.other) := by
  have hquestions : unanswered (spell (ts ++ [t])) = unanswered (spell ts) := by
    rw [spell_append, h.unanswered_append hat.ne_nil, ← h.counted.questions]
    simpa using questions_token n.openQuestions hat ht
  refine h.step hat ?_
  cases t with
  | name text => exact h.counted.name hquestions
  | number text => exact h.counted.other rfl hquestions
  | quoted text => exact h.counted.other rfl hquestions
  | byte c => exact absurd rfl (ht c)

/-- The counts behind a byte that is kept. -/
def passed (c : Byte) (n : Counts) : Counts :=
  if c = question then n.question else if c = colon then n.answer else n.other

/-- What a byte does to the statement it stands in is told by the text of the statement. -/
theorem Underway.effect_eq {c : Byte} (h : Underway ts (c :: s) n) :
    effect c n =
      if c = semicolon then .comment
      else if Cuts (spell ts) c then .cut
      else .keep (passed c n) := by
  unfold effect
  by_cases hsemicolon : c = semicolon
  · rw [if_pos hsemicolon, if_pos hsemicolon]
  rw [if_neg hsemicolon, if_neg hsemicolon]
  by_cases hback : c = backslash
  · rw [if_pos hback, if_pos (.inl hback)]
  rw [if_neg hback]
  by_cases hcolon : c = colon
  · subst hcolon
    have hne : colon :: s ≠ [] := List.cons_ne_nil colon s
    have hlabel := h.counted.atLabel_iff (h.tokens_spell hne (delimited_cons.2 (by decide)))
    have hcuts : Cuts (spell ts) colon ↔ n.openQuestions = 0 ∧ ¬ n.atLabel = true := by
      rw [hlabel, h.counted.questions]
      exact ⟨fun hc => (hc.resolve_left hback).2, fun hc => .inr ⟨rfl, hc⟩⟩
    rw [if_neg (by decide), if_pos rfl]
    by_cases hopen : 0 < n.openQuestions
    · rw [if_pos hopen, if_neg fun hc => Nat.ne_of_gt hopen (hcuts.1 hc).1]
      rfl
    · have hzero : n.openQuestions = 0 := Nat.eq_zero_of_not_pos hopen
      rw [if_neg hopen]
      by_cases hat : n.atLabel = true
      · -- With no question open, there is none to be answered.
        have hanswer : n.other = n.answer := by simp [Counts.answer, Counts.other, hzero]
        rw [if_pos hat, if_neg fun hc => (hcuts.1 hc).2 hat, hanswer]
        rfl
      · rw [if_neg hat, if_pos (hcuts.2 ⟨hzero, hat⟩)]
  · have hkeep : ¬ Cuts (spell ts) c := fun hc => hc.elim hback fun hc => hcolon hc.1
    rw [if_neg hkeep, passed, if_neg hcolon, if_neg hcolon]
    split
    · rfl
    · rfl

theorem Underway.byte {c : Byte} (h : Underway ts (c :: s) n)
    (hat : TokenAt (c :: s) (.byte c) s) : Underway (ts ++ [.byte c]) s (passed c n) := by
  have hasked := h.unanswered_append (List.cons_ne_nil c s) [c]
  have hspell : spell (ts ++ [.byte c]) = spell ts ++ [c] := by simp [Token.text]
  refine h.step hat ?_
  unfold passed
  split
  · rename_i hquestion
    refine ⟨?_, by simp [Counts.question, Counts.other, h.counted.names, Token.isName],
      by simp [Counts.question, Counts.other, Token.isName]⟩
    rw [hspell, hasked, hquestion]
    rfl
  · rename_i hquestion
    split
    · rename_i hcolon
      refine ⟨?_, by simp [Counts.answer, Counts.other, h.counted.names, Token.isName],
        by simp [Counts.answer, Counts.other, Token.isName]⟩
      rw [hspell, hasked, hcolon]
      rfl
    · rename_i hcolon
      refine h.counted.other rfl ?_
      rw [hspell, hasked, questions, if_neg fun hc => hquestion hc.2, if_neg fun hc => hcolon hc.2,
        ← h.counted.questions]
      rfl

end Underway

/-- **A line that mentions no macro is cut by its text alone.** -/
theorem flatten_splitFrom {e : Expander} {s : Text} {st : State} {out : Buffer} {n : Counts}
    {ts : List Token} (hhash : hash ∉ s) (hnames : Unnamed st.table.contains s)
    (h : Underway ts s n) :
    (splitFrom e s st out n).2.flatten = out.toText ++ cutFrom outside (spell ts) s := by
  fun_induction splitFrom e s st out n generalizing ts with
  | case1 st out n => simp [cutFrom]
  | case2 st out n c r isName p hp ih =>
    obtain ⟨t, hat, ht, rfl, hstate, hout⟩ := at_of_token hp (by grind) hnames
    have hrest : hash ∉ p.rest := fun hmem => hhash (hat.spelled ▸ List.mem_append_right _ hmem)
    have hothers := ih hrest (hstate ▸ hnames.tail hat) (h.token hat ht)
    refine hothers.trans ?_
    rw [hout, cutFrom_token _ hat ht]
    simp
  | case3 st out n c r hp he =>
    rw [h.effect_eq] at he
    have hsemicolon : c = semicolon := by grind
    rw [cutFrom, if_pos ⟨rfl, hsemicolon⟩]
    simp
  | case4 st out n c r hp he ih =>
    have hat := at_of_no_token hp hnames
    rw [h.effect_eq] at he
    obtain ⟨hsemicolon, hcuts⟩ : c ≠ semicolon ∧ Cuts (spell ts) c := by grind
    have hothers := ih (fun hmem => hhash (List.mem_cons_of_mem _ hmem)) (hnames.tail hat)
      (underway_start r)
    rw [cutFrom, if_neg fun hc => hsemicolon hc.2, if_pos ⟨rfl, hcuts⟩]
    show ((out.push newline).toText :: (splitFrom e r st {} {}).2).flatten = _
    rw [List.flatten_cons, hothers]
    simp
  | case5 st out n c r hp n' he ih =>
    have hat := at_of_no_token hp hnames
    rw [h.effect_eq] at he
    obtain ⟨hsemicolon, hkeep, rfl⟩ : c ≠ semicolon ∧ ¬ Cuts (spell ts) c ∧ passed c n = n' := by
      grind
    have hothers := ih (fun hmem => hhash (List.mem_cons_of_mem _ hmem)) (hnames.tail hat)
      (h.byte hat)
    have hquote : outside.next c = outside := hat.next_byte
    rw [hothers, cutFrom, if_neg fun hc => hsemicolon hc.2, if_neg fun hc => hkeep hc.2, hquote]
    simp [Token.text]

end Statement

end AsmPrep
