/-
The text of a macro in place of its name.

A line that calls a macro without parameters, and the line that has the macro's text where the
other has its name, come to the same.  The scan of a line and the scan of a body know the same
tokens, but they try them in a different order: a line tries numbers first and then calls, a
body the other way about.  So the two part where a number and a call begin at one place, as in
`$F` when `F` is a macro, and that is the only place where they do.

The rest of the difference is overlooked.  The macro is marked while its text is scanned as a
body and not while it is scanned as a line, and a body ends where the line goes on with its
newline.  Neither shows unless the macro is met once more, or a string that is not closed takes
the newline along.
-/
import AsmPrep.Proofs.Preprocessor.Lines
import AsmPrep.Source.Stack
import AsmPrep.Proofs.Macro.Budget
import AsmPrep.Proofs.Macro.Mark
import AsmPrep.Proofs.Statement.Verbatim

namespace AsmPrep

open Byte

/-! ### The order of numbers and calls -/

namespace Expansion

variable {e : Expander} {known : String → Bool} {s : Text} {st : State} {out : Buffer}

/-- A number and a call or a name do not both begin here. -/
def Undisputed (known : String → Bool) (s : Text) : Prop :=
  Lexeme.number? s = none ∨ nameItem known s = none

theorem undisputed_newline : Undisputed known (s ++ [newline]) ↔ Undisputed known s := by
  unfold Undisputed
  rw [Lexeme.number?_newline, nameItem_newline, Option.map_eq_none_iff, Option.map_eq_none_iff]

/-- What is read as a number and as a name has a sigil. -/
theorem undisputed_of_not_sigil (known : String → Bool) (hs : ∀ c ∈ s, isSigil c = false) :
    Undisputed known s := by
  cases s with
  | nil => exact .inl rfl
  | cons c r =>
    have hsigil := hs c List.mem_cons_self
    by_cases hident : isIdentStart c = true
    · exact .inl (Lexeme.number?_none (not_number_of_isIdentStart hident).1 hsigil r)
    · right
      simp [nameItem, Lexeme.name?, Lexeme.identifier?, hsigil, hident]

/-- There the order makes no difference. -/
theorem Undisputed.bodyToken (h : Undisputed st.table.contains s) :
    bodyToken e s st out = argumentToken e s st out := by
  unfold Expansion.bodyToken argumentToken
  rcases h with hnumber | hname
  · have hnone := number_perform e s st out
    rw [numberItem, hnumber, Option.map_none, Option.map_none, Option.map_eq_none_iff] at hnone
    rw [hnone, Option.none_or, Option.none_or]
  · have hnone := scanCall_perform e s st out
    rw [hname, Option.map_none, Option.map_eq_none_iff] at hnone
    rw [hnone, Option.none_or, Option.none_or]

/-- A text without quotes leaves no string unclosed. -/
theorem not_unclosed_of_not_quote (hs : ∀ c ∈ s, isQuote c = false) : ¬ Unclosed s := by
  rintro ⟨t, lexeme, ht, hq⟩
  cases t with
  | nil => exact absurd hq (by simp [Lexeme.quoted?])
  | cons c r =>
    have hc := hs c (ht.subset List.mem_cons_self)
    exact absurd hq (by simp [Lexeme.quoted?, hc])

theorem bodyToken_suffix (he : ∀ name s st out, Held (e name s st out).rest s) {p : Progress s}
    (h : bodyToken e s st out = some p) : p.rest <:+ s := by
  obtain ⟨item, rest, hitem, hdone⟩ := bodyItem_of_some h
  have hrest : (item.perform e rest st out).1 = p.rest := congrArg Prod.fst hdone
  exact hrest ▸ (item.perform_held he rest st out).suffix.trans (bodyItem_shorter hitem).1

end Expansion

/-! ### A line that ends no statement before its newline -/

namespace Statement

open Expansion

variable {e : Expander} {name : String} {s : Text} {st st' : State} {out : Buffer} {n : Counts}
  {c : Byte}

/-- The places that the scan of a line comes to, token after token and byte after byte: what is
left of the text there, the state and the buffer. -/
inductive Place (e : Expander) : Text → State → Buffer → Text → State → Buffer → Prop
  | start {s : Text} {st : State} {out : Buffer} : Place e s st out s st out
  | token {s t : Text} {st now : State} {out made : Buffer} {isName : Bool} {p : Progress s}
      (hp : token e s st out = some (isName, p)) (h : Place e p.rest p.state p.out t now made) :
      Place e s st out t now made
  | byte {c : Byte} {r t : Text} {st now : State} {out made : Buffer}
      (hp : token e (c :: r) st out = none) (h : Place e r st (out.push c) t now made) :
      Place e (c :: r) st out t now made

/-- The text ends no statement, so that its line is one piece. -/
def Unbroken (s : Text) : Prop :=
  ∀ c ∈ s, c ≠ newline ∧ c ≠ semicolon ∧ c ≠ backslash ∧ c ≠ colon

theorem Unbroken.plain (h : Unbroken s) : s.Plain := fun c hc => ⟨(h c hc).1, (h c hc).2.2.1⟩

theorem Unbroken.suffix {rest : Text} (h : Unbroken s) (hs : rest <:+ s) : Unbroken rest :=
  fun c hc => h c (hs.subset hc)

theorem effect_unbroken (hc : c ≠ semicolon ∧ c ≠ backslash ∧ c ≠ colon) :
    ∃ n', effect c n = .keep n' := by
  unfold effect
  rw [if_neg hc.1, if_neg hc.2.1, if_neg hc.2.2]
  split
  · exact ⟨_, rfl⟩
  · exact ⟨_, rfl⟩

section Place

variable {t : Text} {now : State} {made : Buffer}
  (he : ∀ name s st out, Held (e name s st out).rest s)
include he

theorem Place.suffix (h : Place e s st out t now made) : t <:+ s := by
  induction h with
  | start => exact List.suffix_rfl
  | token hp _ ih => exact ih.trans (token_held he hp).suffix
  | byte _ _ ih => exact ih.trans (List.suffix_cons _ _)

/-- Where no string can run to the line end, no token takes it. -/
theorem Place.rest_ne_nil (h : Place e s st out t now made) (hs : Text.Whole s) (hun : ¬ Unclosed s)
    {isName : Bool} {p : Progress t} (hp : Statement.token e t now made = some (isName, p)) :
    p.rest ≠ [] := by
  have hsuffix := h.suffix he
  have hline := (token_held he hp).line (hs.suffix hsuffix (token_ne_nil hp))
  exact (hline.resolve_right fun hun' => hun (hun'.of_suffix hsuffix)).ne_nil

end Place

theorem token_of_argumentToken {p : Progress s} (h : argumentToken e s st out = some p) :
    ∃ isName, token e s st out = some (isName, p) := by
  rw [← token_argumentToken] at h
  obtain ⟨⟨isName, p'⟩, htoken, rfl⟩ := Option.map_eq_some_iff.1 h
  exact ⟨isName, htoken⟩

theorem token_of_none (h : argumentToken e s st out = none) : token e s st out = none := by
  rw [← token_argumentToken] at h
  exact Option.map_eq_none_iff.1 h

theorem splitFrom_of_token {isName : Bool} {p : Progress s}
    (h : token e s st out = some (isName, p)) :
    splitFrom e s st out n =
      splitFrom e p.rest p.state p.out (if isName then n.name else n.other) := by
  cases s with
  | nil => exact absurd rfl (token_ne_nil h)
  | cons c r => exact splitFrom_token h

theorem splitFrom_newline (e : Expander) (st : State) (out : Buffer) (n : Counts) :
    splitFrom e [newline] st out n = (st, [(out.push newline).toText]) := by
  rw [splitFrom_keep (token_byte (by decide)) (show effect newline n = .keep n.other from rfl),
    splitFrom_nil]

theorem splitFrom_blank (hc : isBlank c = true) :
    splitFrom e (c :: s) st out n = splitFrom e s st (out.push c) n.other :=
  splitFrom_keep (token_byte (not_beginsToken_of_isBlank hc)) (effect_blank hc)

/-- Where the order makes no difference, a line and a body find the same token. -/
theorem agree_of_undisputed (he : Overlooks name e) (ht : Twin name st st') (hs : Unbroken s)
    (hplace : Undisputed st.table.contains (s ++ [newline]) ∧
      ∀ isName p, token e (s ++ [newline]) st out = some (isName, p) → p.rest ≠ [])
    (hunmet : ∀ q, bodyToken e s st' out = some q → .macroRecursion name ∉ q.state.faults) :
    Agree name [newline] (argumentToken e (s ++ [newline]) st out) (bodyToken e s st' out) := by
  have hsame : Undisputed st'.table.contains s := by
    rw [ht.table.contains]
    exact undisputed_newline.1 hplace.1
  rw [hsame.bodyToken] at hunmet ⊢
  refine argumentToken_match he out (.inr ⟨rfl, hs.plain⟩) ht ?_ hunmet
  intro p hp
  obtain ⟨isName, htoken⟩ := token_of_argumentToken hp
  exact .inr (hplace.2 isName p htoken)

/-- **Scanned as a line, a text comes to what it comes to as a body**, and the newline. -/
theorem splitFrom_rescan (he : Overlooks name e) (ht : Twin name st st') (hs : Unbroken s)
    (hplaces : ∀ t now made, Place e (s ++ [newline]) st out t now made →
      Undisputed now.table.contains t ∧
        ∀ isName p, token e t now made = some (isName, p) → p.rest ≠ [])
    (hunmet : .macroRecursion name ∉ (rescan e s st' out).1.faults) :
    (splitFrom e (s ++ [newline]) st out n).2 =
        [((rescan e s st' out).2.push newline).toText] ∧
      Twin name (splitFrom e (s ++ [newline]) st out n).1 (rescan e s st' out).1 := by
  fun_induction rescan e s st' out generalizing st n with
  | case1 st' out =>
    rw [List.nil_append, splitFrom_newline]
    exact ⟨rfl, ht⟩
  | case2 st' out c r q hq ih =>
    have hlater : q.state.faults <+: (rescan e q.rest q.state q.out).1.faults :=
      (rescan_reads e q.rest q.state q.out).faults he.faults
    have hagree := agree_of_undisputed he ht hs (hplaces _ _ _ .start) fun q' hq' => by
      obtain rfl := Option.some.inj (hq.symm.trans hq')
      exact unmet_of_prefix hlater hunmet
    obtain ⟨p, hp, hrest, hstate, hout⟩ := hagree.some hq
    obtain ⟨isName, htoken⟩ := token_of_argumentToken hp
    rw [splitFrom_of_token htoken, hrest, hout]
    refine ih hstate (hs.suffix (bodyToken_suffix he.held hq)) ?_ hunmet
    intro t now made h
    rw [← hrest, ← hout] at h
    exact hplaces t now made (.token htoken h)
  | case3 st' out c r hq ih =>
    have hagree := agree_of_undisputed he ht hs (hplaces _ _ _ .start) fun q hq' =>
      absurd (hq.symm.trans hq') (by simp)
    have htoken := token_of_none (hagree.none hq)
    obtain ⟨n', heffect⟩ := effect_unbroken (n := n) (hs c List.mem_cons_self).2
    rw [List.cons_append] at hplaces htoken ⊢
    rw [splitFrom_keep htoken heffect]
    exact ih ht (hs.suffix (List.suffix_cons c r))
      (fun t now made h => hplaces t now made (.byte htoken h)) hunmet

/-! ### A line that calls a macro -/

section Call

variable {table : MacroTable} {a body : Text}

/-- A name that is no number and that the table knows is a call. -/
theorem argumentItem_call (ha : Lexeme.name? a = some (a, [])) (hnumber : Lexeme.number? a = none)
    {known : String → Bool} (hknown : known (Text.toName a) = true) :
    argumentItem known (a ++ [newline]) = some (.call [] (Text.toName a), [newline]) := by
  have hitem : nameItem known (a ++ [newline]) = some (.call [] (Text.toName a), [newline]) := by
    unfold nameItem
    rw [Lexeme.name?_newline, ha]
    simp [lineEnded, hknown]
  unfold argumentItem numberItem
  rw [Lexeme.number?_newline, hnumber, hitem]
  rfl

/-- The rest of the line is one piece, made of the text that the macro's body comes to. -/
theorem splitFrom_call (ha : Lexeme.name? a = some (a, [])) (hnumber : Lexeme.number? a = none)
    (hlookup : table.lookup (Text.toName a) = some { body }) (out : Buffer) (n : Counts) :
    let made := rescan (full table) body (({ table } : State).enter (Text.toName a)) out
    splitFrom (expand (table.weight + 1)) (a ++ [newline]) { table } out n =
      (made.1.leave (Text.toName a), [(made.2.push newline).toText]) := by
  intro made
  have hknown : table.contains (Text.toName a) = true := by
    unfold MacroTable.contains
    rw [hlookup]
    rfl
  have hperform := argumentToken_perform (expand (table.weight + 1)) (a ++ [newline]) { table } out
  rw [argumentItem_call ha hnumber hknown] at hperform
  obtain ⟨p, hp, hparts⟩ := Option.map_eq_some_iff.1 hperform
  obtain ⟨isName, htoken⟩ := token_of_argumentToken hp
  have htake : (takeArguments (expand table.weight) [] [newline]
      (({ table } : State).enter (Text.toName a))).parts =
        ([newline], ({ table } : State).enter (Text.toName a), {}, none) := rfl
  have happend : out.append [] = out := Buffer.ext_toText (by simp)
  have hcall : p.parts = ([newline], made.1.leave (Text.toName a), made.2) := by
    rw [hparts]
    dsimp only [Item.perform]
    rw [happend]
    exact expand_body (m := { body }) hlookup rfl htake
  obtain ⟨hrest, hstate, hout⟩ : p.rest = _ ∧ p.state = _ ∧ p.out = _ := by
    simpa only [Progress.parts, Prod.mk.injEq] using hcall
  rw [splitFrom_of_token htoken, hrest, hstate, hout, splitFrom_newline]

/-- A line that is a call. -/
theorem split_call (ha : Lexeme.name? a = some (a, [])) (hnumber : Lexeme.number? a = none)
    (hlookup : table.lookup (Text.toName a) = some { body }) :
    let made := rescan (full table) body (({ table } : State).enter (Text.toName a)) {}
    split (a ++ [newline]) table =
      (made.1.leave (Text.toName a), [(made.2.push newline).toText]) := by
  intro made
  -- One level more of nesting than the table weighs, so that the body is scanned with its weight.
  rw [← splitFrom_budget _ (Nat.le_succ table.weight)]
  exact splitFrom_call ha hnumber hlookup {} {}

/-- A line that is a call behind a blank. -/
theorem split_blank_call (hblank : isBlank c = true) (ha : Lexeme.name? a = some (a, []))
    (hnumber : Lexeme.number? a = none) (hlookup : table.lookup (Text.toName a) = some { body }) :
    let made := rescan (full table) body (({ table } : State).enter (Text.toName a))
      (Buffer.push {} c)
    split (c :: (a ++ [newline])) table =
      (made.1.leave (Text.toName a), [(made.2.push newline).toText]) := by
  intro made
  rw [← splitFrom_budget _ (Nat.le_succ table.weight), splitFrom_blank hblank]
  exact splitFrom_call ha hnumber hlookup _ _

end Call

end Statement

namespace Preprocessor

open Expansion Statement

/-- Lines whose pieces and faults are the same are dealt with alike. -/
theorem expandLine_congr {pp : Preprocessor} {line line' : Text}
    (hfaults : (split line pp.table).1.faults = (split line' pp.table).1.faults)
    (hpieces : (split line pp.table).2 = (split line' pp.table).2) :
    pp.expandLine line = pp.expandLine line' := by
  unfold expandLine
  dsimp only
  rw [split_table, split_table, hfaults, hpieces]

/-- **The text of a macro reads in a line as the macro's name does.**  The name is no number,
and the text ends no statement.  Wherever the scan of the text comes to, a number and a name do
not both begin there, and what is read leaves the line end.  And the macro is not met once more
while it is expanded. -/
theorem body_reads_as_name {σ : Type} [LineSource σ] (pp : Preprocessor) (src : σ)
    {a body : Text} {blank : Byte} (hblank : isBlank blank = true)
    (ha : Lexeme.name? a = some (a, [])) (hnumber : Lexeme.number? a = none)
    (hlookup : pp.table.lookup (Text.toName a) = some { body }) (hbody : Unbroken body)
    (horder : ∀ s st out,
      Place (full pp.table) (blank :: (body ++ [newline])) { table := pp.table } {} s st out →
        Undisputed st.table.contains s)
    (hclosed : ∀ s st out,
      Place (full pp.table) (blank :: (body ++ [newline])) { table := pp.table } {} s st out →
        ∀ isName p, token (full pp.table) s st out = some (isName, p) → p.rest ≠ [])
    (hunmet : .macroRecursion (Text.toName a) ∉
      (split (blank :: (a ++ [newline])) pp.table).1.faults) :
    pp.processLine (blank :: (a ++ [newline])) src =
      pp.processLine (blank :: (body ++ [newline])) src := by
  have hcall := split_blank_call hblank ha hnumber hlookup
  dsimp only at hcall
  rw [hcall] at hunmet
  have hmarked : Twin (Text.toName a) { table := pp.table }
      (({ table := pp.table } : State).enter (Text.toName a)) :=
    ⟨MacroTable.MarkedApart.of_mark hlookup, rfl⟩
  have hstep {t now made} (h : Place (full pp.table) (body ++ [newline]) { table := pp.table }
      (Buffer.push {} blank) t now made) :
      Place (full pp.table) (blank :: (body ++ [newline])) { table := pp.table } {} t now made :=
    .byte (token_byte (not_beginsToken_of_isBlank hblank)) h
  obtain ⟨hpieces, hafter⟩ := splitFrom_rescan (n := Counts.other {})
    (expand_overlooks _ pp.table.weight) hmarked hbody
    (fun t now made h => ⟨horder t now made (hstep h), hclosed t now made (hstep h)⟩) hunmet
  have htext : split (blank :: (body ++ [newline])) pp.table = splitFrom (full pp.table)
      (body ++ [newline]) { table := pp.table } (Buffer.push {} blank) (Counts.other {}) :=
    splitFrom_blank hblank
  have hhead (s : Text) : (blank :: s).head? ≠ some hash :=
    fun hhash => ne_of_class hblank (by decide) (Option.some.inj hhash)
  rw [processLine_of_head (hhead _), processLine_of_head (hhead _)]
  refine congrArg (·, src) (expandLine_congr ?_ ?_)
  · rw [hcall, htext]
    exact hafter.faults
  · rw [hcall, htext]
    exact hpieces.symm

/-- `F` is a macro with a parameter, and `A` stands for a call of it. -/
def loadCall : Preprocessor :=
  let defined := (({} : Preprocessor).processLine (Text.ofString "#define F(x) x+1\n")
    ({} : InputStack)).1
  (defined.define "A" "ld F(2)").2

theorem body_reads_as_name_of_load :
    loadCall.processLine (space :: (Text.ofString "A" ++ [newline])) ({} : InputStack) =
        loadCall.processLine (space :: (Text.ofString "ld F(2)" ++ [newline])) ({} : InputStack) ∧
      (loadCall.processLine (space :: (Text.ofString "A" ++ [newline])) ({} : InputStack)).1.queue =
        [Text.ofString " ld 2+1\n"] := by
  have hheld := expand_held loadCall.table.weight
  have hsigil : ∀ c ∈ space :: (Text.ofString "ld F(2)" ++ [newline]), isSigil c = false := by
    decide +kernel
  have hquote : ∀ c ∈ space :: (Text.ofString "ld F(2)" ++ [newline]), isQuote c = false := by
    decide +kernel
  have hwhole : Text.Whole (space :: (Text.ofString "ld F(2)" ++ [newline])) :=
    ⟨space :: Text.ofString "ld F(2)", rfl, by decide⟩
  have hname : Lexeme.name? (Text.ofString "A") = some (Text.ofString "A", []) := by decide
  have hlookup : loadCall.table.lookup (Text.toName (Text.ofString "A")) =
      some { body := Text.ofString "ld F(2)" } := by decide +kernel
  have hbody : Unbroken (Text.ofString "ld F(2)") := by
    unfold Unbroken
    decide +kernel
  have hunmet : .macroRecursion (Text.toName (Text.ofString "A")) ∉
      (split (space :: (Text.ofString "A" ++ [newline])) loadCall.table).1.faults := by
    decide +kernel
  refine ⟨body_reads_as_name loadCall ({} : InputStack) (show isBlank space = true from rfl)
    hname (by decide) hlookup hbody ?_ ?_ hunmet, by decide +kernel⟩
  · intro s st out h
    exact undisputed_of_not_sigil _ fun c hc => hsigil c ((h.suffix hheld).subset hc)
  · intro s st out h isName p hp
    exact h.rest_ne_nil hheld hwhole (not_unclosed_of_not_quote hquote) hp

/-! ### Where a number hides a call -/

/-- `F` is a macro, and `A` stands for its name with a sigil before it. -/
def sigilCall : Preprocessor := ((({} : Preprocessor).define "F" "1").2.define "A" "$F").2

/-- In the text of `A` the name is called, and in a line it is a hexadecimal number. -/
theorem number_hides_call :
    sigilCall.lookup "A" = some { body := Text.ofString "$F" } ∧
      (sigilCall.processLine (Text.ofString " A\n") ({} : InputStack)).1.queue =
        [Text.ofString " $1\n"] ∧
      (sigilCall.processLine (Text.ofString " $F\n") ({} : InputStack)).1.queue =
        [Text.ofString " $F\n"] := by
  refine ⟨?_, ?_, ?_⟩
  · decide +kernel
  · decide +kernel
  · decide +kernel

end Preprocessor

end AsmPrep
