/-
What a call gives.

A call of a macro with plain arguments is its body with the arguments in place of the
parameters, each without the white space around it.  Commas and parentheses within an argument
are part of it as long as its own parentheses enclose them, and strings hide theirs.

The arguments are bound in a scope of their own, whatever macros or parameters of other
expansions there are.  A bound text is scanned again where the body has its parameter, and gives
itself, for it mentions neither a macro nor a parameter.
-/
import AsmPrep.Proofs.Macro.ArgumentList
import AsmPrep.Proofs.Macro.PlainText

namespace AsmPrep.Expansion

open Byte Text

variable {known : String → Bool} {inParens : Bool} {ts : List Token} {c : Byte} {tail : Text}

/-! ### Tokens that are copied -/

/-- No name in the text means a macro. -/
def Unknown (known : String → Bool) (ts : List Token) : Prop :=
  ∀ text, .name text ∈ ts → known (toName text) = false

theorem tokenItem_unknown {t : Token}
    (h : ∀ text, t = .name text → known (toName text) = false) :
    tokenItem known t = .copy t.text := by
  cases t with
  | name text => exact if_neg (by simp [h text rfl])
  | number text => rfl
  | quoted text => rfl
  | byte c => rfl

/-- What a token calls is the name that it is. -/
theorem tokenItem_called {t : Token} {name : String}
    (h : (tokenItem known t).called? = some name) :
    ∃ text, t = .name text ∧ name = toName text ∧ known name = true := by
  cases t with
  | name text =>
    cases hk : known (toName text) with
    | true =>
      rw [tokenItem, if_pos hk] at h
      obtain rfl := Option.some.inj h
      exact ⟨text, rfl, rfl, hk⟩
    | false =>
      rw [tokenItem, if_neg (by simp [hk])] at h
      exact absurd h (by simp [Item.called?])
  | number text => exact absurd h (by simp [tokenItem, Item.called?])
  | quoted text => exact absurd h (by simp [tokenItem, Item.called?])
  | byte c => exact absurd h (by simp [tokenItem, Item.called?])

theorem literal_unknown (h : Unknown known ts) : Literal (ts.map (tokenItem known)) := by
  intro item hi
  obtain ⟨t, ht, rfl⟩ := List.mem_map.1 hi
  rw [tokenItem_unknown fun text htext => h text (htext ▸ ht)]
  rfl

/-- Tokens that call nothing write what they spell. -/
theorem writeAll_unknown (value : String → Buffer → Buffer) (h : Unknown known ts) (out : Buffer) :
    Item.writeAll value (ts.map (tokenItem known)) out = out.append (spell ts) := by
  induction ts generalizing out with
  | nil => exact Buffer.ext_toText (by simp [Item.writeAll])
  | cons t ts ih =>
    have hfirst := tokenItem_unknown (t := t) fun text htext => h text (htext ▸ List.mem_cons_self)
    have hothers := ih (fun text ht => h text (List.mem_cons_of_mem _ ht)) (out.append t.text)
    rw [List.map_cons, hfirst]
    refine hothers.trans (Buffer.ext_toText ?_)
    simp

/-! ### One argument -/

/-- A plain text that a call can have as an argument: its parentheses are balanced, and each
comma stands in some.  In an argument that begins with an angle bracket they would not count. -/
structure Argument (known : String → Bool) (ts : List Token) : Prop where
  plain : PlainText ts
  unknown : Unknown known ts
  balanced : nested 0 ts = some 0
  bare : (skipBlanks (spell ts)).head? ≠ some openAngle

/-- The byte behind an argument. -/
def EndsArgument (c : Byte) : Prop := c = comma ∨ c = closeParen

theorem EndsArgument.delimiter (h : EndsArgument c) : isIdentChar c = false := by
  rcases h with rfl | rfl <;> decide

theorem EndsArgument.not_quote (h : EndsArgument c) : isQuote c = false := by
  rcases h with rfl | rfl <;> decide

/-- Nothing is read where an argument ends. -/
theorem argumentItems_ended (known : String → Bool) (h : isEmptyArgument inParens tail = true) :
    argumentItems known tail 0 = { rest := tail } := by
  by_cases hend : atEndOfStatement tail = true
  · exact argumentItems_end hend
  · cases tail with
    | nil => exact absurd rfl hend
    | cons c r =>
      have hc : c = closeParen ∨ c = comma := by
        have hends : (c = comma ∨ inParens = true ∧ c = closeParen) ∨
            inParens = false ∧ atEndOfStatement (c :: r) = true := by
          simpa [isEmptyArgument] using h
        rcases hends with (hcomma | hclose) | hstop
        · exact .inr hcomma
        · exact .inl hclose.2
        · exact absurd hstop.2 hend
      have hplain : isPlain c = true := by
        rcases hc with rfl | rfl <;> decide
      rw [argumentItems_none (by simpa using hend) (not_taken_of_isPlain known hplain r).2,
        if_pos (by simpa using hc)]

/-- An argument does not begin with what would end it. -/
theorem not_endsArgument {t : Token} {r : Text} (ht : t.Plain) (h : nested 0 (t :: ts) = some 0)
    (hcons : t.text = c :: r) : ¬ EndsArgument c := by
  intro hends
  by_cases hword : t.isWord = true
  · have hc := ht.bytes hword c (hcons ▸ List.mem_cons_self)
    exact ne_of_class hc hends.delimiter rfl
  · cases t with
    | number text => exact absurd rfl hword
    | name text => exact absurd rfl hword
    | quoted text =>
      obtain ⟨quote, hquote, hhead, -⟩ := ht.quotes
      rw [show text = c :: r from hcons] at hhead
      obtain rfl := Option.some.inj hhead
      exact ne_of_class hquote hends.not_quote rfl
    | byte d =>
      obtain ⟨rfl, -⟩ := List.cons.inj hcons
      rw [nested, if_pos (by simpa [EndsArgument, Or.comm] using hends)] at h
      exact absurd h (by simp)

/-- **A plain argument gives its text without the white space around it.** -/
theorem Argument.taken (h : Argument known ts) (inParens : Bool) :
    Taken known inParens (spell ts) (trim (spell ts)) := by
  intro tail htail
  have hblank := fun c hc => (ends_head htail c hc).1
  have hunknown : Unknown known (ts.dropWhile Token.isSpace) :=
    fun text htext => h.unknown text ((List.dropWhile_suffix _).subset htext)
  have hbalanced := h.balanced
  have hbare := h.bare
  rw [trim, h.plain.skipBlanks_spell hblank]
  rw [h.plain.skipBlanks_spell_alone] at hbare ⊢
  rw [← nested_dropWhile] at hbalanced
  have hplain : PlainText (ts.dropWhile Token.isSpace) :=
    h.plain.sub (List.dropWhile_suffix _).isInfix
  generalize ts.dropWhile Token.isSpace = us at hunknown hbalanced hbare hplain ⊢
  have hreading : argumentReading known inParens (spell us ++ tail) =
      { items := us.map (tokenItem known), rest := tail } := by
    cases us with
    | nil => exact if_pos htail
    | cons t us =>
      obtain ⟨d, front, hcons, -, hsemicolon, hnewline⟩ := hplain.first.head
      have hstart : spell (t :: us) ++ tail = d :: (front ++ (spell us ++ tail)) := by
        rw [spell_cons, hcons, List.append_assoc, List.cons_append]
      have hd := not_endsArgument hplain.first hbalanced hcons
      have hempty : ¬ isEmptyArgument inParens (d :: (front ++ (spell us ++ tail))) = true := by
        rw [EndsArgument, not_or] at hd
        simp [isEmptyArgument, atEndOfStatement, hd, hsemicolon, hnewline]
      have hangle : d ≠ openAngle := by
        rintro rfl
        rw [spell_cons, hcons] at hbare
        exact hbare rfl
      have hitems := argumentItems_plain known hplain (delimited_of_ends htail) hbalanced
      rw [hstart] at hitems ⊢
      unfold argumentReading
      rw [if_neg hempty]
      dsimp only
      rw [if_neg hangle, hitems, argumentItems_ended known htail, List.append_nil]
  rw [hreading]
  refine ⟨literal_unknown hunknown, ?_, skipBlanks_of_ends htail, rfl⟩
  rw [Reading.text, writeAll_unknown _ hunknown]
  simp

/-! ### The body -/

/-- The body with the bound texts in place of its names. -/
def filled (bindings : List (String × Text)) (body : List Token) : Text :=
  body.flatMap fun
    | .name text => (bindings.lookup (toName text)).getD text
    | t => t.text

theorem filled_cons (bindings : List (String × Text)) (t : Token) (body : List Token) :
    filled bindings (t :: body) = filled bindings [t] ++ filled bindings body := by
  simp [filled]

/-- A parameter that is bound to a plain text writes it. -/
theorem paramValue_plain {bindings : List (String × Text)} {param : String}
    (h : bindings.lookup param = some (spell ts)) (hplain : PlainText ts) (out : Buffer) :
    paramValue bindings param out = out.append (spell ts) := by
  rw [paramValue, h]
  dsimp only
  rw [bodyItems_plain _ hplain]
  exact writeAll_unknown _ (fun _ _ => rfl) out

/-- What a plain body writes whose parameters are bound to plain texts. -/
theorem substitute_plain {t : MacroTable} {m : Macro} {bindings : List (String × Text)}
    {body : List Token} (hbody : m.body = spell body) (hplain : PlainText body)
    (hbound : ∀ text, .name text ∈ body → inBody t m (toName text) = true →
      ∃ ts, bindings.lookup (toName text) = some (spell ts) ∧ PlainText ts)
    (hfree : ∀ text, .name text ∈ body → inBody t m (toName text) = false →
      bindings.lookup (toName text) = none) (out : Buffer) :
    (substitute t m bindings out).toText = out.toText ++ filled bindings body := by
  rw [substitute, hbody, bodyItems_plain _ hplain]
  clear hbody hplain
  induction body generalizing out with
  | nil => simp [Item.writeAll, filled]
  | cons tok body ih =>
    have hothers := ih (fun text htext => hbound text (List.mem_cons_of_mem _ htext))
      (fun text htext => hfree text (List.mem_cons_of_mem _ htext))
    have hfirst : ((tokenItem (inBody t m) tok).write (paramValue bindings) out).toText =
        out.toText ++ filled bindings [tok] := by
      cases tok with
      | name text =>
        cases hknown : inBody t m (toName text) with
        | true =>
          obtain ⟨ts, hlookup, hplain⟩ := hbound text List.mem_cons_self hknown
          rw [tokenItem, if_pos hknown, Item.write, paramValue_plain hlookup hplain]
          simp [filled, hlookup]
        | false =>
          have hlookup := hfree text List.mem_cons_self hknown
          rw [tokenItem, if_neg (by simp [hknown]), Item.write]
          simp [filled, hlookup]
      | number text => simp [tokenItem, Item.write, filled, Token.text]
      | quoted text => simp [tokenItem, Item.write, filled, Token.text]
      | byte c => simp [tokenItem, Item.write, filled, Token.text]
    rw [List.map_cons]
    show (Item.writeAll _ (body.map _) ((tokenItem _ tok).write _ out)).toText = _
    rw [hothers, hfirst, List.append_assoc, ← filled_cons]

/-- The names of the body are parameters, or mean nothing. -/
def ParamsOnly (known : String → Bool) (params : List String) (body : List Token) : Prop :=
  ∀ text, .name text ∈ body → toName text ∈ params ∨ known (toName text) = false

section Bound

variable {t : MacroTable} {m : Macro} {args : List (List Token)} {body : List Token}

/-- The names of the body that are known are those that are bound. -/
theorem lookup_isSome (hlength : args.length = m.params.length)
    (hparams : ParamsOnly t.contains m.params body) {text : Text} (htext : .name text ∈ body) :
    ((m.params.zip (args.map fun arg => trim (spell arg))).lookup (toName text)).isSome =
      inBody t m (toName text) := by
  have htexts : (args.map fun arg => trim (spell arg)).length = m.params.length := by
    rw [List.length_map, hlength]
  rw [isSome_lookup_zip htexts, inBody]
  rcases hparams text htext with hmem | hunknown
  · simp [hmem]
  · simp [hunknown]

variable (hargs : ∀ arg ∈ args, Argument (inBody t m) arg)
include hargs

/-- What a parameter is bound to is plain, and calls nothing. -/
theorem plain_of_lookup {param : String} {text : Text}
    (h : (m.params.zip (args.map fun arg => trim (spell arg))).lookup param = some text) :
    ∃ ts, text = spell ts ∧ PlainText ts ∧ Unknown (inBody t m) ts := by
  obtain ⟨arg, harg, rfl⟩ := List.mem_map.1 (mem_of_lookup_zip h)
  have hplain := (hargs arg harg).plain
  refine ⟨trimmed arg, hplain.trim_spell, hplain.trimmed, ?_⟩
  intro text htext
  refine (hargs arg harg).unknown text ?_
  exact (List.dropWhile_suffix _).subset ((List.rdropWhile_prefix _ _).subset htext)

theorem literal_of_lookup {param : String} {text : Text}
    (h : (m.params.zip (args.map fun arg => trim (spell arg))).lookup param = some text) :
    Literal (bodyItems (inBody t m) text) := by
  obtain ⟨ts, rfl, hplain, hunknown⟩ := plain_of_lookup hargs h
  rw [bodyItems_plain _ hplain]
  exact literal_unknown hunknown

end Bound

/-- **A call gives the body with its arguments for the parameters.**  Whatever is before the call
and behind it, it takes the text up to the parenthesis that closes its arguments, reports nothing
and leaves the table as it was. -/
theorem scanCall_fills {budget : Nat} {name blanks : Text} {m : Macro} {body : List Token}
    {args : List (List Token)} (st : State) (out : Buffer) (after : Text)
    (hname : Lexeme.name? name = some (name, []))
    (hm : st.table.lookup (toName name) = some m) (hx : m.expanding = false)
    (hbody : m.body = spell body) (hplain : PlainText body)
    (hparams : ParamsOnly st.table.contains m.params body) (hne : m.params ≠ [])
    (hlength : args.length = m.params.length)
    (hargs : ∀ arg ∈ args, Argument (inBody st.table m) arg)
    (hblanks : ∀ c ∈ blanks, isBlank c = true) (hbudget : st.table.weight ≤ budget) :
    ∃ p, scanCall (expand budget) (name ++ (blanks ++ called true spell args after)) st out =
        some p ∧
      p.rest = after ∧ p.state.faults = st.faults ∧ p.state.table = st.table ∧
      p.out.toText = out.toText ++
        filled (m.params.zip (args.map fun arg => trim (spell arg))) body := by
  have hargsne : args ≠ [] := by
    rw [← List.length_pos_iff, hlength, List.length_pos_iff]
    exact hne
  have hcalls : ∀ item ∈ bodyItems (inBody st.table m) m.body, ∀ param,
      item.called? = some param → param ∈ m.params := by
    intro item hitem param hparam
    rw [hbody, bodyItems_plain _ hplain] at hitem
    obtain ⟨tok, htok, rfl⟩ := List.mem_map.1 hitem
    obtain ⟨text, rfl, rfl, hin⟩ := tokenItem_called hparam
    refine (hparams text htok).elim id fun hunknown => ?_
    rw [inBody, hunknown, Bool.false_or] at hin
    simpa using hin
  obtain ⟨p, hp, hrest, hfaults, htable, hout⟩ :=
    scanCall_substitutes true after spell (fun arg => trim (spell arg)) args budget st out hname hm
      hx hargsne hlength (fun arg harg => (hargs arg harg).taken true) hblanks
      (fun _ => delimited_parens _ _ _) bareList_parens hbudget
      hcalls fun _ _ _ _ text htext => literal_of_lookup hargs htext
  refine ⟨p, hp, hrest, hfaults, htable, ?_⟩
  rw [hout, substitute_plain hbody hplain]
  · intro text htext hin
    rw [← lookup_isSome hlength hparams htext, Option.isSome_iff_exists] at hin
    obtain ⟨bound, hbound⟩ := hin
    obtain ⟨ts, rfl, hts, -⟩ := plain_of_lookup hargs hbound
    exact ⟨ts, hbound, hts⟩
  · intro text htext hin
    rw [← lookup_isSome hlength hparams htext] at hin
    simpa using hin

/-- A macro with two parameters. -/
def twofold : Macro := { params := ["a", "b"], body := ofString "a+b*a" }

/-- Commas in parentheses and in strings end no argument. -/
theorem scanCall_fills_twofold :
    ∃ p, scanCall (expand 3) (ofString "M ( (1,2), 'x,)' )+c")
        { table := { innermost := [("M", twofold)] } } {} = some p ∧
      p.rest = ofString "+c" ∧ p.state.faults = [] ∧
      p.state.table = { innermost := [("M", twofold)] } ∧
      p.out.toText = ofString "(1,2)+'x,)'*(1,2)" := by
  let table : MacroTable := { innermost := [("M", twofold)] }
  let pair : List Token := [.byte 32, .byte 40, .number [49], .byte 44, .number [50], .byte 41]
  let string : List Token := [.byte 32, .quoted (ofString "'x,)'"), .byte 32]
  let body : List Token := [.name [97], .byte 43, .name [98], .byte 42, .name [97]]
  have hm : table.lookup (toName (ofString "M")) = some twofold := by decide +kernel
  have hplain : PlainText body := by decide +kernel
  have hparams : ParamsOnly table.contains twofold.params body := by
    intro text htext
    have hmem : text = [97] ∨ text = [98] := by simpa [body, or_assoc, or_comm] using htext
    rcases hmem with rfl | rfl
    · exact .inl (by decide +kernel)
    · exact .inl (by decide +kernel)
  have hargs : ∀ arg ∈ [pair, string], Argument (inBody table twofold) arg := by
    intro arg harg
    rcases List.mem_pair.1 harg with rfl | rfl
    · refine ⟨by decide +kernel, ?_, by decide +kernel, by decide +kernel⟩
      exact fun _ hname => by simp [pair] at hname
    · refine ⟨by decide +kernel, ?_, by decide +kernel, by decide +kernel⟩
      exact fun _ hname => by simp [string] at hname
  have hname : Lexeme.name? (ofString "M") = some (ofString "M", []) := by decide +kernel
  have hblanks : ∀ c ∈ [32], isBlank c = true := List.forall_mem_singleton.2 rfl
  have hweight : table.weight ≤ 3 := by decide
  exact scanCall_fills { table } {} (ofString "+c") hname hm rfl (by decide +kernel) hplain hparams
    (by decide) rfl hargs hblanks hweight

end AsmPrep.Expansion
