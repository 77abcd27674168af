/-
Lists of arguments.

The arguments of a call stand with commas between them, in parentheses or up to the end of the
statement.  The two differ in how a list is opened and closed, and in what may end an argument.
What is between the commas is the same: an argument that is read as a text wherever an argument
can end gives that text in either list and at every place of it.

So a list is read argument by argument, and all that is asked of an argument is `Taken`.  A call
then binds the texts of its arguments in order and reports nothing.
-/
import AsmPrep.Proofs.Macro.Substitution
import AsmPrep.Proofs.Macro.Token
import AsmPrep.Proofs.Text.PlainText

namespace AsmPrep.Expansion

open Byte Text

variable {known : String → Bool} {inParens : Bool} {s tail text : Text}

/-! ### Where an argument ends -/

/-- What ends an argument is no blank, and goes on with no name or number. -/
theorem ends_head (h : isEmptyArgument inParens tail = true) :
    ∀ c ∈ tail.head?, isBlank c = false ∧ isIdentChar c = false ∧ c ≠ openParen := by
  cases tail with
  | nil => exact fun c hc => absurd hc (by simp)
  | cons d r =>
    have hd : d = comma ∨ d = closeParen ∨ d = semicolon ∨ d = newline := by
      cases inParens with
      | true =>
        have hends : d = comma ∨ d = closeParen := by simpa [isEmptyArgument] using h
        exact hends.imp_right .inl
      | false =>
        have hends : d = comma ∨ d = semicolon ∨ d = newline := by
          simpa [isEmptyArgument, atEndOfStatement] using h
        exact hends.imp_right .inr
    rintro c ⟨⟩
    rcases hd with rfl | rfl | rfl | rfl <;> decide

theorem skipBlanks_of_ends (h : isEmptyArgument inParens tail = true) : skipBlanks tail = tail :=
  dropWhile_tail (fun c hc => (ends_head h c hc).1) []

theorem delimited_of_ends (h : isEmptyArgument inParens tail = true) : Delimited tail :=
  fun c hc => (ends_head h c hc).2.1

theorem ends_closeParen (tail : Text) : isEmptyArgument true (closeParen :: tail) = true ∧
    (closeParen :: tail).head? ≠ some comma :=
  ⟨by simp [isEmptyArgument], by simp [closeParen, comma]⟩

/-! ### One argument -/

/-- The reading gives that text to bind and stops before `tail`, and no call is in it. -/
structure Reading.Gives (got : Reading) (text tail : Text) : Prop where
  literal : Literal got.items
  text : got.text = text
  rest : skipBlanks got.rest = tail
  fault : got.fault = none

/-- Wherever an argument can end behind it, `s` is read as the argument `text`, and calls
nothing. -/
def Taken (known : String → Bool) (inParens : Bool) (s text : Text) : Prop :=
  ∀ tail, isEmptyArgument inParens tail = true →
    (argumentReading known inParens (skipBlanks (s ++ tail))).Gives text tail

/-- What calls nothing is read the same with no name known. -/
theorem Taken.unknown (h : Taken known inParens s text) :
    Taken (fun _ => false) inParens s text := by
  intro tail htail
  have hgives := h tail htail
  rwa [argumentReading_unknown hgives.literal]

/-! ### The list -/

section List

variable {α : Type} {written bound : α → Text} {args : List α}

/-- The arguments with commas between them, and what follows the last. -/
def joined (written : α → Text) (args : List α) (tail : Text) : Text :=
  [comma].intercalate (args.map written) ++ tail

/-- What stands behind an argument that these follow. -/
def behindFirst (written : α → Text) (others : List α) (tail : Text) : Text :=
  match others with
  | [] => tail
  | next :: others => comma :: joined written (next :: others) tail

theorem joined_cons (written : α → Text) (arg : α) (others : List α) (tail : Text) :
    joined written (arg :: others) tail = written arg ++ behindFirst written others tail := by
  cases others with
  | nil => rw [joined, List.map_singleton, List.intercalate_singleton, behindFirst]
  | cons next others => simp [joined, behindFirst, List.intercalate_cons_cons]

theorem behindFirst_ends (written : α → Text) (others : List α)
    (htail : isEmptyArgument inParens tail = true) :
    isEmptyArgument inParens (behindFirst written others tail) = true := by
  cases others with
  | nil => exact htail
  | cons next others => simp [behindFirst, isEmptyArgument]

variable (htaken : ∀ arg ∈ args, Taken known inParens (written arg) (bound arg)) (hne : args ≠ [])
  (htail : isEmptyArgument inParens tail = true) (hlast : tail.head? ≠ some comma)
include htaken hne htail hlast

/-- The first `n` arguments are read, if there are so many. -/
theorem readArguments_joined {n : Nat} (hn : n ≠ 0) :
    readArguments inParens n (joined written args tail) =
      { texts := (args.take n).map bound
        rest := behindFirst written (args.drop n) tail
        fault := if args.length < n then some .missingArguments else none } := by
  induction args generalizing n with
  | nil => exact absurd rfl hne
  | cons arg args ih =>
    rw [List.forall_mem_cons] at htaken
    obtain ⟨n, rfl⟩ := Nat.exists_eq_succ_of_ne_zero hn
    have hbehind := behindFirst_ends written args htail
    obtain ⟨-, htext, hrest, hfault⟩ := htaken.1.unknown _ hbehind
    rw [Nat.succ_eq_add_one, readArguments, joined_cons]
    simp only [htext, hrest, hfault]
    rw [List.take_succ_cons, List.drop_succ_cons, List.map_cons]
    by_cases hzero : n = 0
    · subst hzero
      rfl
    · rw [if_neg hzero]
      cases args with
      | nil =>
        have hlength : [arg].length < n + 1 := Nat.succ_lt_succ (Nat.pos_of_ne_zero hzero)
        rw [behindFirst, if_neg hlast, List.take_nil, List.drop_nil, if_pos hlength]
        rfl
      | cons next args =>
        have hlength : (arg :: next :: args).length < n + 1 ↔ (next :: args).length < n :=
          Nat.succ_lt_succ_iff
        rw [behindFirst, List.head?_cons, if_pos rfl, List.tail_cons,
          ih htaken.2 (List.cons_ne_nil next args) hzero]
        simp only [hlength]

/-- No argument calls anything. -/
theorem quiet_joined (n : Nat) : Quiet inParens (fun _ => known) n (joined written args tail) := by
  induction args generalizing n with
  | nil => exact absurd rfl hne
  | cons arg args ih =>
    rw [List.forall_mem_cons] at htaken
    cases n with
    | zero => exact trivial
    | succ n =>
      have hgives := htaken.1 _ (behindFirst_ends written args htail)
      rw [Quiet, joined_cons]
      refine ⟨hgives.literal, fun _ hcomma => ?_⟩
      rw [hgives.rest] at hcomma ⊢
      cases args with
      | nil => exact absurd hcomma hlast
      | cons next args => exact ih htaken.2 (List.cons_ne_nil next args) n

end List

/-! ### How a list is opened and closed -/

/-- Blanks before a list of arguments make no difference to it. -/
theorem readArguments_skipBlanks (inParens : Bool) (n : Nat) (s : Text) :
    readArguments inParens (n + 1) (skipBlanks s) = readArguments inParens (n + 1) s := by
  rw [readArguments, readArguments, skipBlanks_skipBlanks]

theorem quiet_skipBlanks {known : Nat → String → Bool} {n : Nat} {s : Text} :
    Quiet inParens known (n + 1) (skipBlanks s) ↔ Quiet inParens known (n + 1) s := by
  rw [Quiet, Quiet, skipBlanks_skipBlanks]

/-- The arguments of a call are read in the list that they stand in. -/
theorem readCall_of_open {list : Text} (hopen : openArguments s = (inParens, skipBlanks list))
    {n : Nat} (hn : n ≠ 0) :
    readCall n s =
      let read := readArguments inParens n list
      match read.fault with
      | some _ => read
      | none =>
        { read with
          rest := (closing inParens read.rest).1, reported := (closing inParens read.rest).2 } := by
  obtain ⟨n, rfl⟩ := Nat.exists_eq_succ_of_ne_zero hn
  have hread := readArguments_skipBlanks inParens n list
  rw [readCall, if_neg hn, hopen]
  dsimp only
  generalize readArguments inParens (n + 1) (skipBlanks list) = read at hread ⊢
  subst hread
  rfl

/-- Names that are no parameters and mean nothing are unknown to every argument. -/
theorem quietCall_of_open {t : MacroTable} {m : Macro} {list : Text}
    (hopen : openArguments s = (inParens, skipBlanks list))
    (hquiet : Quiet inParens (fun _ => inBody t m) m.params.length list) :
    QuietCall t.contains m.params s := by
  rw [QuietCall, hopen]
  cases hn : m.params.length with
  | zero => exact trivial
  | succ n =>
    rw [hn] at hquiet
    refine (quiet_skipBlanks.2 hquiet).less ?_
    intro i name _ hname
    rw [inBody]
    rw [knowing] at hname
    rcases Bool.or_eq_true_iff.1 hname with hdefined | hparam
    · rw [hdefined, Bool.true_or]
    · have hmem : toName name ∈ m.params := List.mem_of_mem_take (by simpa using hparam)
      simp [hmem]

variable {blanks : Text}

/-- Where arguments stand in parentheses. -/
theorem openArguments_parens (h : ∀ c ∈ blanks, isBlank c = true) (s : Text) :
    openArguments (blanks ++ openParen :: s) = (true, skipBlanks s) := by
  have hskip : skipBlanks (blanks ++ openParen :: s) = openParen :: s := skipBlanks_blanks h _
  rw [openArguments, hskip]
  rfl

/-- Where they do not. -/
theorem openArguments_bare (h : ∀ c ∈ blanks, isBlank c = true)
    (hs : (skipBlanks s).head? ≠ some openParen) :
    openArguments (blanks ++ s) = (false, skipBlanks s) := by
  rw [openArguments, skipBlanks_blanks h]
  cases hcons : skipBlanks s with
  | nil => rfl
  | cons c r =>
    rw [hcons] at hs
    dsimp only
    rw [if_neg fun hc => hs (congrArg some hc)]

section Called

variable {α : Type} {written bound : α → Text} {args : List α}

/-- What stands behind the last argument: the parenthesis that closes the list, if there is
one. -/
def behindList (inParens : Bool) (tail : Text) : Text :=
  if inParens then closeParen :: tail else tail

/-- The arguments as they stand behind the name of a macro, in parentheses or bare. -/
def called (inParens : Bool) (written : α → Text) (args : List α) (tail : Text) : Text :=
  if inParens then openParen :: joined written args (behindList inParens tail)
  else joined written args (behindList inParens tail)

/-- A bare list ends with the statement, and does not begin as one in parentheses would. -/
structure BareList (written : α → Text) (args : List α) (tail : Text) : Prop where
  ends : atEndOfStatement tail = true
  unopened : ∀ arg ∈ args.head?, (skipBlanks (written arg)).head? ≠ some openParen

/-- Of a list in parentheses none of this is asked. -/
theorem bareList_parens (h : true = false) : BareList written args tail := absurd h (by decide)

theorem delimited_parens (written : α → Text) (args : List α) (tail : Text) :
    Delimited (called true written args tail) :=
  delimited_cons.2 (by decide)

variable (hblanks : ∀ c ∈ blanks, isBlank c = true) (hne : args ≠ [])
  (hbare : inParens = false → BareList written args tail)

include hbare in
theorem behindList_ends :
    isEmptyArgument inParens (behindList inParens tail) = true ∧
      (behindList inParens tail).head? ≠ some comma := by
  cases inParens with
  | true => exact ends_closeParen tail
  | false =>
    have hends := (hbare rfl).ends
    refine ⟨by simp [behindList, isEmptyArgument, hends], fun hcomma => ?_⟩
    obtain ⟨r, hr⟩ := List.head?_eq_some_iff.1 hcomma
    rw [show tail = comma :: r from hr] at hends
    exact absurd hends (by simp [atEndOfStatement, comma, semicolon, newline])

include hbare in
theorem closing_behindList : closing inParens (behindList inParens tail) = (tail, []) := by
  cases inParens with
  | true => rfl
  | false =>
    show (if atEndOfStatement tail = true then _ else _) = _
    rw [if_pos (hbare rfl).ends]
    rfl

include hblanks hne hbare

theorem openArguments_called :
    openArguments (blanks ++ called inParens written args tail) =
      (inParens, skipBlanks (joined written args (behindList inParens tail))) := by
  have hends := (behindList_ends hbare).1
  cases inParens with
  | true => exact openArguments_parens hblanks _
  | false =>
    refine openArguments_bare hblanks ?_
    obtain ⟨arg, others, rfl⟩ := List.exists_cons_of_ne_nil hne
    have hbehind := ends_head (behindFirst_ends written others hends)
    have hskip : skipBlanks (written arg ++ behindFirst written others (behindList false tail)) =
        skipBlanks (written arg) ++ behindFirst written others (behindList false tail) :=
      dropWhile_tail (fun c hc => (hbehind c hc).1) (written arg)
    have hfirst := (hbare rfl).unopened arg rfl
    show (skipBlanks (joined written (arg :: others) (behindList false tail))).head? ≠ _
    rw [joined_cons, hskip]
    cases hcons : skipBlanks (written arg) with
    | nil => exact fun hopen => (hbehind openParen hopen).2.2 rfl
    | cons c r =>
      rw [hcons] at hfirst
      exact hfirst

/-- Of a list that a call opens the first `n` arguments are read, if there are so many. -/
theorem readCall_first (htaken : ∀ arg ∈ args, Taken known inParens (written arg) (bound arg))
    {n : Nat} (hn : n ≠ 0) :
    readCall n (blanks ++ called inParens written args tail) =
      let texts := (args.take n).map bound
      let rest := behindFirst written (args.drop n) (behindList inParens tail)
      if args.length < n then { texts, rest, fault := some .missingArguments }
      else { texts, rest := (closing inParens rest).1, reported := (closing inParens rest).2 } := by
  obtain ⟨hends, hlast⟩ := behindList_ends hbare
  rw [readCall_of_open (openArguments_called hblanks hne hbare) hn,
    readArguments_joined htaken hne hends hlast hn]
  by_cases hfew : args.length < n
  · simp only [if_pos hfew]
  · simp only [if_neg hfew]

variable {t : MacroTable} {m : Macro}
  (htaken : ∀ arg ∈ args, Taken (inBody t m) inParens (written arg) (bound arg))
include htaken

theorem readCall_called :
    readCall args.length (blanks ++ called inParens written args tail) =
      { texts := args.map bound, rest := tail } := by
  have hn : args.length ≠ 0 := (List.length_pos_iff.2 hne).ne'
  rw [readCall_first hblanks hne hbare htaken hn, List.take_length, List.drop_length]
  dsimp only [behindFirst]
  rw [if_neg (Nat.lt_irrefl _), closing_behindList hbare]

theorem quietCall_called :
    QuietCall t.contains m.params (blanks ++ called inParens written args tail) := by
  obtain ⟨hends, hlast⟩ := behindList_ends hbare
  exact quietCall_of_open (openArguments_called hblanks hne hbare)
    (quiet_joined htaken hne hends hlast m.params.length)

/-- **A call binds its arguments in order, in whichever list they stand.**  It reports nothing
and takes the text to the end of the list. -/
theorem takeArguments_called (e : Expander) {st : State} (ht : st.table = t) (name : String)
    (hlength : args.length = m.params.length) :
    (takeArguments e m.params (blanks ++ called inParens written args tail)
        (st.enter name)).parts =
      (tail, (st.enter name).bindAll (m.params.zip (args.map bound)), {}, none) := by
  subst ht
  have hquiet := quietCall_called hblanks hne hbare htaken
  rw [← State.contains_enter st name] at hquiet
  have htake := takeArguments_quiet e (st.enter name) hquiet
  rw [← hlength, readCall_called hblanks hne hbare htaken] at htake
  refine htake.trans ?_
  rw [List.append_nil]

end Called

/-! ### The call -/

/-- Where a macro's name stands the scan expands it. -/
theorem scanCall_known (e : Expander) (st : State) (out : Buffer) {name s : Text}
    (hname : Lexeme.name? name = some (name, [])) (hs : Delimited s)
    (hknown : st.table.contains (toName name) = true) :
    ∃ p, scanCall e (name ++ s) st out = some p ∧
      p.rest = (e (toName name) s st (out.append [])).rest ∧
      p.state = (e (toName name) s st (out.append [])).state ∧
      p.out = (e (toName name) s st (out.append [])).out := by
  have hcall := scanCall_perform e (name ++ s) st out
  rw [nameItem_known hname hs hknown] at hcall
  obtain ⟨p, hp, hparts⟩ := Option.map_eq_some_iff.1 hcall
  refine ⟨p, hp, ?_⟩
  simpa only [Progress.parts, Item.perform, Expanded.parts, Prod.mk.injEq] using hparts

section Call

variable (inParens tail) {α : Type} (written bound : α → Text) (args : List α) {name : Text}
  {m : Macro} (budget : Nat) (st : State) (out : Buffer)
  (hname : Lexeme.name? name = some (name, []))
  (hm : st.table.lookup (toName name) = some m) (hx : m.expanding = false)
  (hne : args ≠ []) (hlength : args.length = m.params.length)
  (htaken : ∀ arg ∈ args, Taken (inBody st.table m) inParens (written arg) (bound arg))
  (hblanks : ∀ c ∈ blanks, isBlank c = true)
  (hstart : blanks = [] → Delimited (called inParens written args tail))
  (hbare : inParens = false → BareList written args tail)
include hname hm hx hne hlength htaken hblanks hstart hbare

/-- **A call scans the body with its arguments bound**, in whichever list they stand, and goes
on behind the list. -/
theorem scanCall_called :
    ∃ p, scanCall (expand (budget + 1)) (name ++ (blanks ++ called inParens written args tail))
        st out = some p ∧ p.rest = tail ∧
      let made := rescan (expand budget) m.body
        ((st.enter (toName name)).bindAll (m.params.zip (args.map bound))) out
      p.state = made.1.leave (toName name) ∧ p.out = made.2 := by
  have hknown : st.table.contains (toName name) = true := by
    rw [MacroTable.contains, hm]
    rfl
  obtain ⟨p, hp, hrest, hstate, hout⟩ := scanCall_known (expand (budget + 1)) st out hname
    (delimited_of_blanks hblanks hstart) hknown
  have hbound := takeArguments_called hblanks hne hbare htaken (expand budget) rfl (toName name)
    hlength
  have hmade : (expand (budget + 1) (toName name) _ st (out.append [])).parts = _ :=
    expand_body hm hx hbound
  simp only [Expanded.parts, Prod.mk.injEq] at hmade
  exact ⟨p, hp, hrest.trans hmade.1, hstate.trans hmade.2.1, hout.trans hmade.2.2⟩

/-- When the body calls nothing but parameters, and their texts call nothing, it is written with
the texts for the parameters. -/
theorem scanCall_substitutes (hbudget : st.table.weight ≤ budget)
    (hcalls : ∀ item ∈ bodyItems (inBody st.table m) m.body, ∀ param,
      item.called? = some param → param ∈ m.params)
    (hliteral : ∀ item ∈ bodyItems (inBody st.table m) m.body, ∀ param,
      item.called? = some param → ∀ text, (m.params.zip (args.map bound)).lookup param = some text →
        Literal (bodyItems (inBody st.table m) text)) :
    ∃ p, scanCall (expand budget) (name ++ (blanks ++ called inParens written args tail)) st out =
        some p ∧ p.rest = tail ∧ p.state.faults = st.faults ∧ p.state.table = st.table ∧
      p.out = substitute st.table m (m.params.zip (args.map bound)) out := by
  have hknown : st.table.contains (toName name) = true := by
    rw [MacroTable.contains, hm]
    rfl
  obtain ⟨p, hp, hrest, hstate, hout⟩ := scanCall_known (expand budget) st out hname
    (delimited_of_blanks hblanks hstart) hknown
  have hread := readCall_called hblanks hne hbare htaken
  rw [hlength] at hread
  have hbindings : bindings m (blanks ++ called inParens written args tail) =
      m.params.zip (args.map bound) := by
    rw [bindings, hread]
  have hfree : CaptureFree st.table m (blanks ++ called inParens written args tail) :=
    ⟨quietCall_called hblanks hne hbare htaken, fun _ => hbindings ▸ hliteral⟩
  have hnesting : m.params.length < budget := by
    have hmark := MacroTable.weight_mark hm hx
    omega
  obtain ⟨hrest', hfaults, hout'⟩ :=
    expand_captureFree budget st (out.append []) hm hx hnesting hcalls hfree rfl
  rw [hread] at hrest' hfaults hout'
  rw [hbindings] at hout'
  refine ⟨p, hp, hrest.trans hrest', ?_, ?_, hout.trans hout'⟩
  · rw [hstate, hfaults]
    simp
  · rw [hstate]
    exact expand_table budget (toName name) _ st (out.append [])

/-- When the body is one item that a parameter stands in, that item is written. -/
theorem scanCall_item (hbudget : st.table.weight ≤ budget) {item : Item} {param : String}
    {text : Text} (hitems : bodyItems (inBody st.table m) m.body = [item])
    (hcall : item.called? = some param)
    (htext : (m.params.zip (args.map bound)).lookup param = some text)
    (hliteral : Literal (bodyItems (inBody st.table m) text)) :
    ∃ p, scanCall (expand budget) (name ++ (blanks ++ called inParens written args tail)) st out =
        some p ∧ p.rest = tail ∧ p.state.faults = st.faults ∧ p.state.table = st.table ∧
      p.out = item.write (paramValue (m.params.zip (args.map bound))) out := by
  have honly : ∀ other ∈ bodyItems (inBody st.table m) m.body, ∀ p,
      other.called? = some p → p = param := by
    intro other hother p hp
    rw [hitems, List.mem_singleton] at hother
    subst hother
    exact Option.some.inj (hp.symm.trans hcall)
  have hparam : param ∈ m.params := by
    have hlengths : (args.map bound).length = m.params.length := by rw [List.length_map, hlength]
    have hcontains := isSome_lookup_zip hlengths param
    rw [htext] at hcontains
    simpa using hcontains.symm
  obtain ⟨p, hp, hrest, hfaults, htable, hout⟩ :=
    scanCall_substitutes inParens tail written bound args budget st out hname hm hx hne hlength
      htaken hblanks hstart hbare hbudget
      (fun other hother p hp => honly other hother p hp ▸ hparam)
      (by
        intro other hother p hp found hfound
        rw [honly other hother p hp, htext] at hfound
        exact Option.some.inj hfound ▸ hliteral)
  refine ⟨p, hp, hrest, hfaults, htable, ?_⟩
  rw [hout, substitute, hitems]
  rfl

end Call

end AsmPrep.Expansion
