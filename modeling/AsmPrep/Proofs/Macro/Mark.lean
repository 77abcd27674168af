/-
A mark that is not met makes no difference.

The mark on a macro that is being expanded is looked at in one place only, when the macro is
called once more, and then that is reported.  So expanding with the mark and without it comes
to the same, as long as no such report is made.

Nor does it make a difference whether the text ends after a call or its line does.  Arguments
stop at the line end as they stop at the end of the text, unless a string in them is not closed
and takes the line end along.

Both are shown of each scanner in turn, given that they hold of the calls it comes to, and then
of expanding, by induction on how deep calls are nested.
-/
import AsmPrep.Proofs.Macro.Arguments
import AsmPrep.Proofs.Macro.Capture
import AsmPrep.Proofs.Macro.LineEnd
import AsmPrep.Proofs.Macro.Token
import AsmPrep.Proofs.Text.LineEnd
import Mathlib.Data.Option.Basic

namespace AsmPrep

open Byte

/-! ### Tables -/

namespace MacroTable

/-- The tables know the same macros, but the one of that name is marked in the second. -/
def MarkedApart (name : String) (t u : MacroTable) : Prop :=
  ∀ other, u.lookup other = t.lookup other ∨
    other = name ∧ t.contains name = true ∧ ∃ m, u.lookup name = some m ∧ m.expanding = true

namespace MarkedApart

variable {name other : String} {t u : MacroTable}

theorem contains (h : MarkedApart name t u) : u.contains = t.contains := by
  funext other
  rcases h other with hsame | ⟨rfl, hknown, m, hm, -⟩
  · unfold MacroTable.contains
    rw [hsame]
  · rw [hknown]
    unfold MacroTable.contains
    rw [hm]
    rfl

/-- Entering a macro that is the same in both. -/
theorem enter (h : MarkedApart name t u) (hsame : u.lookup other = t.lookup other)
    (f : Macro → Macro) :
    MarkedApart name (t.update other f).pushScope (u.update other f).pushScope := by
  intro third
  rw [lookup_pushScope, lookup_pushScope, lookup_update, lookup_update, lookup_pushScope,
    lookup_update, contains_pushScope, contains_update]
  by_cases hthird : other = third
  · subst hthird
    left
    rw [if_pos rfl, if_pos rfl, hsame]
  · rw [if_neg hthird, if_neg hthird]
    rcases h third with heq | ⟨rfl, hknown, m, hm, hmarked⟩
    · exact .inl heq
    · right
      refine ⟨rfl, hknown, m, ?_, hmarked⟩
      rw [if_neg hthird, hm]

theorem bind (h : MarkedApart name t u) (hscope : u.innermost = t.innermost) (param : String)
    (body : Text) : MarkedApart name (t.bind param body) (u.bind param body) := by
  intro third
  rw [lookup_bind, lookup_bind, lookup_bind, contains_bind, hscope]
  by_cases hthird : param = third ∧ t.innermost.contains param = false
  · left
    rw [if_pos hthird, if_pos hthird]
  · rw [if_neg hthird, if_neg hthird]
    rcases h third with heq | ⟨rfl, hknown, m, hm, hmarked⟩
    · exact .inl heq
    · right
      refine ⟨rfl, by rw [hknown, Bool.true_or], m, ?_, hmarked⟩
      rw [if_neg hthird, hm]

/-- Marking a macro and opening a scope. -/
theorem of_mark {m : Macro} (hm : t.lookup name = some m) :
    MarkedApart name t (t.update name (·.setExpanding true)).pushScope := by
  intro other
  rw [lookup_pushScope, lookup_update]
  by_cases hother : name = other
  · subst hother
    right
    refine ⟨rfl, ?_, m.setExpanding true, ?_, rfl⟩
    · unfold MacroTable.contains
      rw [hm]
      rfl
    · rw [lookup_pushScope, lookup_update, if_pos rfl, hm]
      rfl
  · left
    rw [if_neg hother]

theorem innermost_bind (hscope : u.innermost = t.innermost) (param : String) (body : Text) :
    (u.bind param body).innermost = (t.bind param body).innermost := by
  unfold MacroTable.bind
  rw [hscope]
  split
  · exact hscope
  · rfl

end MarkedApart

end MacroTable

namespace Expansion

open MacroTable (MarkedApart)

/-! ### Two scans side by side -/

/-- Nothing stands behind the text, or a newline that the text does not guard. -/
def Ending (tail s : Text) : Prop := tail = [] ∨ tail = [newline] ∧ s.Plain

/-- States that differ in the mark on that macro at most. -/
structure Twin (name : String) (st st' : State) : Prop where
  table : MarkedApart name st.table st'.table
  faults : st'.faults = st.faults

section Even

variable {α : Type}

/-- Two scans have come to the same, the first with `tail` behind its text, the second with the
mark on the macro. -/
structure Even (name : String) (tail : Text) (x y : Text × State × α) : Prop where
  rest : x.1 = y.1 ++ tail
  state : Twin name x.2.1 y.2.1
  made : x.2.2 = y.2.2

/-- The tail is still there, and the macro was not met once more. -/
structure Clear (name : String) (tail : Text) (x y : Text × State × α) : Prop where
  kept : tail = [] ∨ x.1 ≠ []
  unmet : .macroRecursion name ∉ y.2.1.faults

/-- The scans come to the same, if that can be said of them at all. -/
def Match (name : String) (tail : Text) (x y : Text × State × α) : Prop :=
  Clear name tail x y → Even name tail x y

/-- What the two have in common, and what they have not. -/
theorem Even.parts {name : String} {tail : Text} {x y : Text × State × α} (h : Even name tail x y) :
    ∃ rest st st' made, x = (rest ++ tail, st, made) ∧ y = (rest, st', made) ∧
      Twin name st st' :=
  ⟨y.1, x.2.1, y.2.1, y.2.2, Prod.ext h.rest (Prod.ext rfl h.made), rfl, h.state⟩

end Even

/-- Two scanners find a token each that comes to the same, or none. -/
def Agree (name : String) (tail : Text) {s t : Text} (x : Option (Progress t))
    (y : Option (Progress s)) : Prop :=
  Option.Rel (Even name tail) (x.map Progress.parts) (y.map Progress.parts)

section Agree

variable {name : String} {tail s t : Text} {x : Option (Progress t)} {y : Option (Progress s)}

theorem Agree.none (h : Agree name tail x y) (hy : y = none) : x = .none := by
  subst hy
  unfold Agree at h
  rw [Option.map_none] at h
  rcases hx : x.map Progress.parts with _ | parts
  · exact Option.map_eq_none_iff.1 hx
  · rw [hx] at h
    cases h

theorem Agree.some (h : Agree name tail x y) {q : Progress s} (hy : y = some q) :
    ∃ p, x = .some p ∧ p.rest = q.rest ++ tail ∧ Twin name p.state q.state ∧ p.out = q.out := by
  subst hy
  unfold Agree at h
  rw [Option.map_some] at h
  cases x with
  | none => cases h
  | some p =>
    rw [Option.map_some] at h
    cases h with
    | some heven => exact ⟨p, rfl, heven.rest, heven.state, heven.made⟩

end Agree

variable {name : String} {tail s rest : Text} {st st' : State} {out : Buffer}
  {known : String → Bool} {e : Expander}

theorem kept_of_suffix {before : Text} (hs : rest <:+ before) (h : tail = [] ∨ rest ≠ []) :
    tail = [] ∨ before ≠ [] := by
  refine h.imp_right fun hne hnil => hne ?_
  rw [hnil] at hs
  exact List.suffix_nil.1 hs

theorem unmet_of_prefix {fault : Fault} {faults later : List Fault} (hf : faults <+: later)
    (h : fault ∉ later) : fault ∉ faults := fun hmem => h (hf.subset hmem)

namespace Ending

theorem suffix (h : Ending tail s) (hs : rest <:+ s) : Ending tail rest :=
  h.imp_right fun hline => ⟨hline.1, hline.2.suffix hs⟩

theorem skipBlanks (h : Ending tail s) :
    Text.skipBlanks (s ++ tail) = Text.skipBlanks s ++ tail := by
  rcases h with rfl | ⟨rfl, -⟩
  · rw [List.append_nil, List.append_nil]
  · exact Text.skipBlanks_newline s

theorem atEndOfStatement (h : Ending tail s) :
    Text.atEndOfStatement (s ++ tail) = Text.atEndOfStatement s := by
  rcases h with rfl | ⟨rfl, -⟩
  · rw [List.append_nil]
  · exact Text.atEndOfStatement_newline s

/-- The newline is not mistaken for a byte of the text. -/
theorem head (h : Ending tail s) {c : Byte} (hc : newline ≠ c) :
    (s ++ tail).head? = some c ↔ s.head? = some c := by
  cases s with
  | nil =>
    rcases h with rfl | ⟨rfl, -⟩
    · exact Iff.rfl
    · simp [hc]
  | cons d s => exact Iff.rfl

end Ending

/-! ### Items -/

theorem nameItem_newline (known : String → Bool) (s : Text) :
    nameItem known (s ++ [newline]) = (nameItem known s).map lineEnded := by
  cases s with
  | nil => rfl
  | cons c s => exact nameItem_tail Text.delimited_newline known (List.cons_ne_nil c s)

theorem numberItem_newline (s : Text) :
    numberItem (s ++ [newline]) = (numberItem s).map lineEnded := by
  cases s with
  | nil => rfl
  | cons c s => exact numberItem_tail Text.delimited_newline (List.cons_ne_nil c s)

theorem pasteItem_newline (s : Text) :
    pasteItem (s ++ [newline]) = (pasteItem s).map lineEnded := by
  unfold pasteItem
  rw [Lexeme.paste?_newline, Option.map_map, Option.map_map]
  rfl

theorem quotedItem_newline (hs : s.Plain)
    (hkept : ∀ item, quotedItem (s ++ [newline]) ≠ some (item, [])) :
    quotedItem (s ++ [newline]) = (quotedItem s).map lineEnded := by
  unfold quotedItem at hkept ⊢
  rw [Lexeme.quoted?_newline hs, Option.map_map, Option.map_map]
  · rfl
  · intro lexeme hq
    exact hkept (.copy lexeme) (by rw [hq]; rfl)

theorem spellItem_newline (known : String → Bool) (s : Text) :
    spellItem known (s ++ [newline]) = (spellItem known s).map lineEnded := by
  cases s with
  | nil => rfl
  | cons c r =>
    rw [List.cons_append, spellItem, spellItem]
    split
    · dsimp only
      rw [Text.skipBlanks_newline, nameItem_newline, numberItem_newline, ← Option.map_or,
        Option.map_map, Option.map_map]
      rfl
    · rfl

/-- The same item is read in front of the tail, unless it takes the tail along. -/
theorem argumentItem_ending (known : String → Bool) (h : Ending tail s)
    (hkept : ∀ item rest, argumentItem known (s ++ tail) = some (item, rest) →
      tail = [] ∨ rest ≠ []) :
    argumentItem known (s ++ tail) =
      (argumentItem known s).map fun found => (found.1, found.2 ++ tail) := by
  rcases h with rfl | ⟨rfl, hs⟩
  · simp
  · show _ = (argumentItem known s).map lineEnded
    unfold argumentItem at hkept ⊢
    rw [numberItem_newline, nameItem_newline, pasteItem_newline, spellItem_newline] at hkept ⊢
    cases hnumber : numberItem s with
    | some found => rfl
    | none =>
      cases hname : nameItem known s with
      | some found => rfl
      | none =>
        rw [hnumber, hname] at hkept
        have hquoted : quotedItem (s ++ [newline]) = (quotedItem s).map lineEnded := by
          refine quotedItem_newline hs ?_
          intro item hitem
          rw [hitem] at hkept
          exact (hkept item [] rfl).elim (by simp) (fun hne => hne rfl)
        simp only [hquoted, Option.map_or, Option.map_none, Option.none_or]

/-! ### What an expander has to keep -/

/-- The expander does not see the mark on that macro, nor whether the text ends or its line. -/
structure Overlooks (name : String) (e : Expander) : Prop where
  held : ∀ called s st out, Held (e called s st out).rest s
  faults : ∀ called s st out, st.faults <+: (e called s st out).state.faults
  table : ∀ called s st out, (e called s st out).state.table = st.table
  calls : ∀ called {tail s : Text} {st st' : State} (out : Buffer), Ending tail s →
    Twin name st st' →
    Match name tail (e called (s ++ tail) st out).parts (e called s st' out).parts

section Scans

variable (he : Overlooks name e)
include he

theorem Item.perform_match (item : Item) (out : Buffer) (h : Ending tail rest)
    (ht : Twin name st st') :
    Match name tail (item.perform e (rest ++ tail) st out) (item.perform e rest st' out) := by
  induction item generalizing out with
  | copy text => exact fun _ => ⟨rfl, ht, rfl⟩
  | paste => exact fun _ => ⟨rfl, ht, rfl⟩
  | call front called => exact he.calls called _ h ht
  | spell item ih =>
    intro hclear
    obtain ⟨hrest, hstate, hmade⟩ := ih {} ⟨hclear.kept, hclear.unmet⟩
    refine ⟨hrest, hstate, ?_⟩
    show out.append (spelling _) = out.append (spelling _)
    rw [hmade]

/-- Two tokens, or none in either text. -/
theorem argumentToken_match (out : Buffer) (h : Ending tail s) (ht : Twin name st st')
    (hkept : ∀ p, argumentToken e (s ++ tail) st out = some p → tail = [] ∨ p.rest ≠ [])
    (hunmet : ∀ q, argumentToken e s st' out = some q → .macroRecursion name ∉ q.state.faults) :
    Agree name tail (argumentToken e (s ++ tail) st out) (argumentToken e s st' out) := by
  have hfirst := argumentToken_perform e (s ++ tail) st out
  have hsecond := argumentToken_perform e s st' out
  rw [ht.table.contains] at hsecond
  have hitem := argumentItem_ending st.table.contains h (by
    intro item rest hfound
    rw [hfound] at hfirst
    obtain ⟨p, hp, hparts⟩ := Option.map_eq_some_iff.1 hfirst
    have hrest : (item.perform e rest st out).1 = p.rest := (congrArg Prod.fst hparts).symm
    exact kept_of_suffix (hrest ▸ (item.perform_held he.held rest st out).suffix) (hkept p hp))
  rw [hitem] at hfirst
  unfold Agree
  rw [hfirst, hsecond]
  cases hfound : argumentItem st.table.contains s with
  | none => exact .none
  | some found =>
    obtain ⟨item, rest⟩ := found
    rw [hfound] at hitem hfirst hsecond
    obtain ⟨p, hp, hp'⟩ := Option.map_eq_some_iff.1 hfirst
    obtain ⟨q, hq, hq'⟩ := Option.map_eq_some_iff.1 hsecond
    refine .some (item.perform_match he out (h.suffix (argumentItem_shorter hfound).1) ht ⟨?_, ?_⟩)
    · rw [← congrArg Prod.fst hp']
      exact hkept p hp
    · rw [← congrArg (·.2.1) hq']
      exact hunmet q hq

/-- Two bodies are the same text, so nothing stands behind either. -/
theorem bodyToken_match (out : Buffer) (ht : Twin name st st')
    (hunmet : ∀ q, bodyToken e s st' out = some q → .macroRecursion name ∉ q.state.faults) :
    Agree name [] (bodyToken e s st out) (bodyToken e s st' out) := by
  have hfirst := bodyToken_perform e s st out
  have hsecond := bodyToken_perform e s st' out
  rw [ht.table.contains] at hsecond
  unfold Agree
  rw [hfirst, hsecond]
  cases hfound : bodyItem st.table.contains s with
  | none => exact .none
  | some found =>
    obtain ⟨item, rest⟩ := found
    rw [hfound] at hsecond
    obtain ⟨q, hq, hq'⟩ := Option.map_eq_some_iff.1 hsecond
    have hmatch : Match name [] (item.perform e (rest ++ []) st out) _ :=
      item.perform_match he out (.inl rfl) ht
    rw [List.append_nil] at hmatch
    refine .some (hmatch ⟨.inl rfl, ?_⟩)
    rw [← congrArg (·.2.1) hq']
    exact hunmet q hq

/-! ### Bodies and arguments -/

theorem rescan_match (out : Buffer) (ht : Twin name st st')
    (hunmet : .macroRecursion name ∉ (rescan e s st' out).1.faults) :
    Twin name (rescan e s st out).1 (rescan e s st' out).1 ∧
      (rescan e s st out).2 = (rescan e s st' out).2 := by
  fun_induction rescan e s st' out generalizing st with
  | case1 st' out =>
    rw [rescan_nil]
    exact ⟨ht, rfl⟩
  | case2 st' out c r q hq ih =>
    have hlater : q.state.faults <+: (rescan e q.rest q.state q.out).1.faults :=
      (rescan_reads e q.rest q.state q.out).faults he.faults
    have hagree := bodyToken_match he (s := c :: r) out ht fun q' hq' => by
      obtain rfl := Option.some.inj (hq.symm.trans hq')
      exact unmet_of_prefix hlater hunmet
    obtain ⟨p, hp, hrest, hstate, hout⟩ := hagree.some hq
    rw [List.append_nil] at hrest
    rw [rescan_some hp, hrest, hout]
    exact ih hstate hunmet
  | case3 st' out c r hq ih =>
    have hagree := bodyToken_match he (s := c :: r) out ht fun q hq' => by
      rw [hq] at hq'
      exact absurd hq' (by simp)
    rw [rescan_none (hagree.none hq)]
    exact ih ht hunmet

/-- What is left after an argument is left after each of its tokens. -/
theorem kept_token {depth : Nat} (hend : Text.atEndOfStatement s = false) {p : Progress s}
    (hp : argumentToken e s st out = some p)
    (hkept : tail = [] ∨ (scanArgument e s st out depth).parts.1 ≠ []) :
    tail = [] ∨ p.rest ≠ [] := by
  rw [scanArgument_some hend hp] at hkept
  exact kept_of_suffix (scanArgument_held he.held _ _ _ _).suffix hkept

theorem scanArgument_match (out : Buffer) (depth : Nat) (h : Ending tail s)
    (ht : Twin name st st') :
    Match name tail (scanArgument e (s ++ tail) st out depth).parts
      (scanArgument e s st' out depth).parts := by
  fun_induction scanArgument e s st' out depth generalizing st with
  | case1 s st' out depth hend =>
    intro _
    rw [scanArgument_end (h.atEndOfStatement.trans hend)]
    exact ⟨rfl, ht, rfl⟩
  | case2 s st' out depth hend q hq ih =>
    rintro ⟨hkept, hunmet⟩
    have hend' : Text.atEndOfStatement (s ++ tail) = false := by
      rw [h.atEndOfStatement]
      simpa using hend
    have hagree := argumentToken_match he out h ht
      (fun p hp => kept_token he hend' hp hkept)
      (fun q' hq' => by
        obtain rfl := Option.some.inj (hq.symm.trans hq')
        exact unmet_of_prefix ((scanArgument_reads e _ _ _ _).faults he.faults) hunmet)
    obtain ⟨p, hp, hrest, hstate, hout⟩ := hagree.some hq
    rw [scanArgument_some hend' hp, hrest, hout] at hkept ⊢
    exact ih (h.suffix (argumentToken_held he.held hq).suffix) hstate ⟨hkept, hunmet⟩
  | case3 st' out depth hend => exact absurd rfl hend
  | case4 st' out depth c r hstop hend hq =>
    rintro ⟨hkept, -⟩
    have hend' : Text.atEndOfStatement (c :: (r ++ tail)) = false :=
      h.atEndOfStatement.trans (by simpa using hend)
    have hagree := argumentToken_match he out h ht
      (fun p hp => kept_token he hend' hp hkept)
      (fun q hq' => absurd (hq.symm.trans hq') (by simp))
    obtain ⟨hdepth, hc⟩ : depth = 0 ∧ (c = closeParen ∨ c = comma) := by simpa using hstop
    subst hdepth
    have hparts := scanArgument_stop hend' (hagree.none hq) hc
    show Even name tail (scanArgument e (c :: (r ++ tail)) st out 0).parts _
    rw [hparts]
    exact ⟨rfl, ht, rfl⟩
  | case5 st' out depth c r hstop hend hq ih =>
    rintro ⟨hkept, hunmet⟩
    have hend' : Text.atEndOfStatement (c :: (r ++ tail)) = false :=
      h.atEndOfStatement.trans (by simpa using hend)
    have hagree := argumentToken_match he out h ht
      (fun p hp => kept_token he hend' hp hkept)
      (fun q hq' => absurd (hq.symm.trans hq') (by simp))
    have hparts := scanArgument_step hend' (hagree.none hq) (by simpa using hstop)
    have hinner := ih (h.suffix (List.suffix_cons c r)) ht
    rw [← hparts] at hinner
    exact hinner ⟨hkept, hunmet⟩

omit he in
theorem angleReading_ending (h : Ending tail s) :
    angleReading (s ++ tail) = { angleReading s with rest := (angleReading s).rest ++ tail } := by
  rcases h with rfl | ⟨rfl, hs⟩
  · rw [List.append_nil, List.append_nil]
  · unfold angleReading
    rw [Lexeme.angleText_newline hs]
    rcases Lexeme.angleText s with ⟨text, _ | ⟨c, rest⟩⟩
    · rfl
    · dsimp only [lineEnded, List.cons_append]
      split
      · rfl
      · rfl

theorem collectArgument_match (h : Ending tail s) (ht : Twin name st st') :
    Match name tail (collectArgument e (s ++ tail) st).parts (collectArgument e s st').parts := by
  cases s with
  | nil =>
    have hscan := scanArgument_match he {} 0 h ht
    rcases h with rfl | ⟨rfl, -⟩
    · exact hscan
    · exact hscan
  | cons c r =>
    rw [List.cons_append]
    unfold collectArgument
    dsimp only
    by_cases hc : c = openAngle
    · rw [if_pos hc, if_pos hc]
      intro _
      show Even name tail (angleArgument (r ++ tail) st).parts (angleArgument r st').parts
      rw [angleArgument_parts (fun _ out => out), angleArgument_parts (fun _ out => out),
        angleReading_ending (h.suffix (List.suffix_cons c r))]
      exact ⟨rfl, ht, rfl⟩
    · rw [if_neg hc, if_neg hc]
      exact scanArgument_match he {} 0 h ht

omit he in
theorem isEmptyArgument_ending (h : Ending tail s) (inParens : Bool) :
    isEmptyArgument inParens (s ++ tail) = isEmptyArgument inParens s := by
  unfold isEmptyArgument
  rw [h.atEndOfStatement]
  cases s with
  | nil =>
    rcases h with rfl | ⟨rfl, -⟩
    · rfl
    · rfl
  | cons c r => rfl

theorem argument_match (inParens : Bool) (h : Ending tail s) (ht : Twin name st st') :
    Match name tail (argument e inParens (s ++ tail) st).parts
      (argument e inParens s st').parts := by
  unfold argument
  rw [isEmptyArgument_ending h]
  split
  · exact fun _ => ⟨rfl, ht, rfl⟩
  · exact collectArgument_match he h ht

/-- An argument leaves what binding goes on from: the same text and the same innermost scope. -/
theorem argument_parts (inParens : Bool) (h : Ending tail s) (ht : Twin name st st')
    (hscope : st'.table.innermost = st.table.innermost)
    (hclear : Clear name tail (argument e inParens (s ++ tail) st).parts
      (argument e inParens s st').parts) :
    ∃ rest now now' text fault?,
      (argument e inParens (s ++ tail) st).parts = (rest ++ tail, now, text, fault?) ∧
      (argument e inParens s st').parts = (rest, now', text, fault?) ∧ rest <:+ s ∧
      Twin name now now' ∧ now'.table.innermost = now.table.innermost := by
  obtain ⟨rest, now, now', ⟨text, fault?⟩, hgot, hgot', hstate⟩ :=
    (argument_match he inParens h ht hclear).parts
  have hnow : (argument e inParens (s ++ tail) st).state = now := congrArg (·.2.1) hgot
  have hnow' : (argument e inParens s st').state = now' := congrArg (·.2.1) hgot'
  have hafter : (argument e inParens s st').rest = rest := congrArg (·.1) hgot'
  refine ⟨rest, now, now', text, fault?, hgot, hgot', ?_, hstate, ?_⟩
  · rw [← hafter]
    exact (argument_held he.held inParens s st').suffix
  · rw [← hnow, ← hnow', (argument_reads e inParens s st').table_eq he.table,
      (argument_reads e inParens (s ++ tail) st).table_eq he.table, hscope]

/-- Binding goes on from where the first argument ends. -/
theorem bindArguments_after (inParens : Bool) (param : String) (others : List String) (s : Text)
    (st : State) :
    let got := argument e inParens (Text.skipBlanks s) st
    let bound := bindArguments e inParens (param :: others) s st
    bound.rest <:+ got.rest ∧ got.state.faults <+: bound.state.faults := by
  intro got bound
  unfold bound
  rw [bindArguments]
  dsimp only
  split
  · exact ⟨List.suffix_rfl, List.prefix_rfl⟩
  · split
    · exact ⟨Text.skipBlanks_suffix _, List.prefix_rfl⟩
    · split
      · obtain ⟨n, -, hreads⟩ := bindArguments_reads e inParens others
          (Text.skipBlanks got.rest).tail (got.state.bind param got.text.chomp.toText)
        have hrest := (bindArguments_held he.held inParens others
          (Text.skipBlanks got.rest).tail (got.state.bind param got.text.chomp.toText)).suffix
        exact ⟨(hrest.trans (List.tail_suffix _)).trans (Text.skipBlanks_suffix _),
          hreads.faults he.faults⟩
      · exact ⟨Text.skipBlanks_suffix _, List.prefix_rfl⟩

theorem bindArguments_match (inParens : Bool) (params : List String) (h : Ending tail s)
    (ht : Twin name st st') (hscope : st'.table.innermost = st.table.innermost) :
    Match name tail (bindArguments e inParens params (s ++ tail) st).parts
      (bindArguments e inParens params s st').parts := by
  induction params generalizing s st st' with
  | nil => exact fun _ => ⟨rfl, ht, rfl⟩
  | cons param others ih =>
    rintro ⟨hkept, hunmet⟩
    have hblanks := h.suffix (Text.skipBlanks_suffix s)
    -- The first argument is clear when the whole list is.
    obtain ⟨hrest, -⟩ := bindArguments_after he inParens param others (s ++ tail) st
    obtain ⟨-, hfaults⟩ := bindArguments_after he inParens param others s st'
    rw [h.skipBlanks] at hrest
    obtain ⟨rest, now, now', text, fault?, hgot, hgot', hsuffix, hstate, hscope'⟩ :=
      argument_parts he inParens hblanks ht hscope
        ⟨kept_of_suffix hrest hkept, unmet_of_prefix hfaults hunmet⟩
    rw [← h.skipBlanks] at hgot
    have hending := h.suffix (hsuffix.trans (Text.skipBlanks_suffix s))
    have hending' := hending.suffix (Text.skipBlanks_suffix rest)
    have hbound : Twin name (now.bind param text.chomp.toText)
        (now'.bind param text.chomp.toText) := ⟨hstate.table.bind hscope' param _, hstate.faults⟩
    cases fault? with
    | some fault =>
      rw [bindArguments_fault hgot, bindArguments_fault hgot']
      exact ⟨rfl, hstate, rfl⟩
    | none =>
      by_cases ho : others = []
      · subst ho
        rw [bindArguments_last hgot, bindArguments_last hgot', hending.skipBlanks]
        exact ⟨rfl, hbound, rfl⟩
      · by_cases hr : (Text.skipBlanks rest).head? = some comma
        · obtain ⟨r, hr⟩ := List.head?_eq_some_iff.1 hr
          have hr' : Text.skipBlanks (rest ++ tail) = comma :: (r ++ tail) := by
            rw [hending.skipBlanks, hr, List.cons_append]
          rw [bindArguments_next ho hgot hr'] at hkept ⊢
          rw [bindArguments_next ho hgot' hr] at hunmet ⊢
          rw [hr] at hending'
          exact ih (hending'.suffix (List.suffix_cons comma r)) hbound
            (MarkedApart.innermost_bind hscope' param _) ⟨hkept, hunmet⟩
        · have hr' : (Text.skipBlanks (rest ++ tail)).head? ≠ some comma := by
            rw [hending.skipBlanks]
            exact fun hcomma => hr ((hending'.head (by decide)).1 hcomma)
          rw [bindArguments_missing ho hgot hr', bindArguments_missing ho hgot' hr,
            hending.skipBlanks]
          exact ⟨rfl, hbound, rfl⟩

/-! ### Argument lists -/

omit he in
theorem openArguments_ending (h : Ending tail s) :
    openArguments (s ++ tail) = ((openArguments s).1, (openArguments s).2 ++ tail) := by
  have hblanks := h.suffix (Text.skipBlanks_suffix s)
  unfold openArguments
  rw [h.skipBlanks]
  cases hs : Text.skipBlanks s with
  | nil =>
    rcases h with rfl | ⟨rfl, -⟩
    · rfl
    · rfl
  | cons c r =>
    rw [hs] at hblanks
    dsimp only [List.cons_append]
    split
    · rw [(hblanks.suffix (List.suffix_cons c r)).skipBlanks]
    · rfl

end Scans

/-- Surplus arguments are dropped up to the same place. -/
theorem skipSurplus_newline {s : Text} {depth : Nat} (hs : s.Plain)
    (hkept : skipSurplus (s ++ [newline]) depth ≠ []) :
    skipSurplus (s ++ [newline]) depth = skipSurplus s depth ++ [newline] := by
  by_cases hend : Text.atEndOfStatement s = true
  · rw [skipSurplus_end hend, skipSurplus_end ((Text.atEndOfStatement_newline s).trans hend)]
  · replace hend : Text.atEndOfStatement s = false := by simpa using hend
    have hend' : Text.atEndOfStatement (s ++ [newline]) = false :=
      (Text.atEndOfStatement_newline s).trans hend
    have hquoted : Lexeme.quoted? (s ++ [newline]) = (Lexeme.quoted? s).map lineEnded := by
      refine Lexeme.quoted?_newline hs fun lexeme hq => hkept ?_
      rw [skipSurplus_quoted hend' hq, skipSurplus_end rfl]
    cases hq : Lexeme.quoted? s with
    | some found =>
      obtain ⟨lexeme, rest⟩ := found
      rw [hq] at hquoted
      rw [skipSurplus_quoted hend' hquoted] at hkept ⊢
      rw [skipSurplus_quoted hend hq]
      exact skipSurplus_newline (hs.suffix ⟨lexeme, Lexeme.quoted?_append hq⟩) hkept
    | none =>
      rw [hq] at hquoted
      match s with
      | [] => exact absurd hend (by simp [Text.atEndOfStatement])
      | c :: r =>
        rw [List.cons_append] at hkept hend' hquoted ⊢
        rw [skipSurplus_byte hend' hquoted] at hkept ⊢
        rw [skipSurplus_byte hend hq]
        split
        · rfl
        · rename_i hclose
          rw [if_neg hclose] at hkept
          exact skipSurplus_newline (hs.suffix (List.suffix_cons c r)) hkept
termination_by s.length
decreasing_by
  · exact Nat.lt_succ_self _
  · exact Lexeme.quoted?_lt hq

theorem closing_ending {inParens : Bool} (h : Ending tail s)
    (hkept : tail = [] ∨ (closing inParens (s ++ tail)).1 ≠ []) :
    closing inParens (s ++ tail) = ((closing inParens s).1 ++ tail, (closing inParens s).2) := by
  rcases h with rfl | ⟨rfl, hs⟩
  · rw [List.append_nil, List.append_nil]
  · replace hkept := hkept.resolve_left (by simp)
    unfold closing at hkept ⊢
    rw [Text.atEndOfStatement_newline] at hkept ⊢
    cases inParens with
    | false =>
      simp only [Bool.false_eq_true, if_false]
      split
      · rfl
      · rfl
    | true =>
      simp only [if_true] at hkept ⊢
      cases s with
      | nil => rfl
      | cons c r =>
        dsimp only [List.cons_append] at hkept ⊢
        split
        · rfl
        · rename_i hclose
          rw [if_neg hclose] at hkept
          split
          · rename_i hcomma
            rw [if_pos hcomma] at hkept
            exact congrArg (·, _) (skipSurplus_newline hs hkept)
          · rfl

theorem closeArguments_match (inParens : Bool) (h : Ending tail s) (ht : Twin name st st') :
    Match name tail (closeArguments inParens (s ++ tail) st).parts
      (closeArguments inParens s st').parts := by
  rintro ⟨hkept, -⟩
  rw [closeArguments_parts] at hkept ⊢
  rw [closeArguments_parts, closing_ending h hkept]
  exact ⟨rfl, ⟨ht.table, by rw [ht.faults]⟩, rfl⟩

section Scans

variable (he : Overlooks name e)
include he

omit he in
/-- Closing the list goes on from where the last argument ends. -/
theorem collectArguments_after (e : Expander) (params : List String) (s : Text) (st : State) :
    let bound := bindArguments e (openArguments s).1 params (openArguments s).2 st
    let list := collectArguments e params s st
    list.rest <:+ bound.rest ∧ bound.state.faults <+: list.state.faults := by
  intro bound list
  unfold list
  rw [collectArguments]
  split
  · exact ⟨List.suffix_rfl, List.prefix_rfl⟩
  · refine ⟨?_, ?_⟩
    · rw [Gathered.widen_rest]
      exact (closeArguments_held _ _ _).suffix
    · show _ <+: (closeArguments (openArguments s).1 bound.rest bound.state).parts.2.1.faults
      rw [closeArguments_parts]
      exact List.prefix_append _ _

theorem collectArguments_match (params : List String) (h : Ending tail s) (ht : Twin name st st')
    (hscope : st'.table.innermost = st.table.innermost) :
    Match name tail (collectArguments e params (s ++ tail) st).parts
      (collectArguments e params s st').parts := by
  rintro ⟨hkept, hunmet⟩
  obtain ⟨hrest, -⟩ := collectArguments_after e params (s ++ tail) st
  obtain ⟨-, hfaults⟩ := collectArguments_after e params s st'
  have hending := h.suffix (openArguments_suffix s)
  have hopen := openArguments_ending h
  have hmatch := bindArguments_match he (openArguments s).1 params hending ht hscope
  have hlist : (bindArguments e (openArguments (s ++ tail)).1 params (openArguments (s ++ tail)).2
      st).parts = (bindArguments e (openArguments s).1 params ((openArguments s).2 ++ tail)
      st).parts := by rw [hopen]
  rw [← hlist] at hmatch
  have hbound := hmatch ⟨kept_of_suffix hrest hkept, unmet_of_prefix hfaults hunmet⟩
  have hsuffix :=
    (bindArguments_held he.held (openArguments s).1 params (openArguments s).2 st').suffix
  obtain ⟨rest, now, now', ⟨text, fault?⟩, hgot, hgot', hstate⟩ := hbound.parts
  have hafter : (bindArguments e (openArguments s).1 params (openArguments s).2 st').rest = rest :=
    congrArg (·.1) hgot'
  rw [hafter] at hsuffix
  cases fault? with
  | some fault =>
    rw [collectArguments_fault hgot, collectArguments_fault hgot']
    exact ⟨rfl, hstate, rfl⟩
  | none =>
    rw [collectArguments_close hgot] at hkept ⊢
    rw [collectArguments_close hgot'] at hunmet ⊢
    rw [hopen] at hkept ⊢
    exact closeArguments_match _ (hending.suffix hsuffix) hstate ⟨hkept, hunmet⟩

theorem takeArguments_match (params : List String) (h : Ending tail s) (ht : Twin name st st')
    (hscope : st'.table.innermost = st.table.innermost) :
    Match name tail (takeArguments e params (s ++ tail) st).parts
      (takeArguments e params s st').parts := by
  unfold takeArguments
  split
  · exact fun _ => ⟨rfl, ht, rfl⟩
  · exact collectArguments_match he params h ht hscope

end Scans

/-! ### Expanding -/

section Expand

variable {budget : Nat} {called : String} {m : Macro}

/-- An expansion leaves the text that its arguments leave. -/
theorem expand_rest (hm : st.table.lookup called = some m) (hx : m.expanding = false) :
    (expand (budget + 1) called s st out).rest =
      (takeArguments (expand budget) m.params s (st.enter called)).rest := by
  cases hf : (takeArguments (expand budget) m.params s (st.enter called)).fault with
  | some fault => exact congrArg (·.1) (expand_fault hm hx (Gathered.parts_eq hf))
  | none => exact congrArg (·.1) (expand_body hm hx (Gathered.parts_eq hf))

/-- What its arguments report, an expansion reports. -/
theorem expand_argument_faults (hm : st.table.lookup called = some m) (hx : m.expanding = false) :
    (takeArguments (expand budget) m.params s (st.enter called)).state.faults <+:
      (expand (budget + 1) called s st out).state.faults := by
  cases hf : (takeArguments (expand budget) m.params s (st.enter called)).fault with
  | some fault =>
    have hfaults : (expand (budget + 1) called s st out).state.faults = _ :=
      congrArg (·.2.1.faults) (expand_fault hm hx (Gathered.parts_eq hf))
    rw [hfaults]
    exact List.prefix_append _ [fault]
  | none =>
    have hfaults : (expand (budget + 1) called s st out).state.faults = _ :=
      congrArg (·.2.1.faults) (expand_body hm hx (Gathered.parts_eq hf))
    rw [hfaults]
    exact (rescan_reads _ m.body _ out).faults (expand_faults budget)

/-- Expanding a macro that is the same in both tables and not marked. -/
theorem expand_match (he : Overlooks name (expand budget)) (h : Ending tail s)
    (ht : Twin name st st') (hsame : st'.table.lookup called = st.table.lookup called)
    (hm : st.table.lookup called = some m) (hx : m.expanding = false) :
    Match name tail (expand (budget + 1) called (s ++ tail) st out).parts
      (expand (budget + 1) called s st' out).parts := by
  rintro ⟨hkept, hunmet⟩
  have hm' := hsame.trans hm
  have hentered : Twin name (st.enter called) (st'.enter called) :=
    ⟨ht.table.enter hsame _, ht.faults⟩
  have hclear : Clear name tail
      (takeArguments (expand budget) m.params (s ++ tail) (st.enter called)).parts
      (takeArguments (expand budget) m.params s (st'.enter called)).parts :=
    ⟨hkept.imp_right ((congrArg (· ≠ []) (expand_rest hm hx)).mp ·),
      unmet_of_prefix (expand_argument_faults hm' hx) hunmet⟩
  have hbound := takeArguments_match he m.params h hentered rfl hclear
  -- Both tables are what they were before.
  have htable : MarkedApart name (expand (budget + 1) called (s ++ tail) st out).parts.2.1.table
      (expand (budget + 1) called s st' out).parts.2.1.table := by
    show MarkedApart name (expand _ called (s ++ tail) st out).state.table
      (expand _ called s st' out).state.table
    rw [expand_table, expand_table]
    exact ht.table
  obtain ⟨rest, now, now', ⟨text, fault?⟩, hgot, hgot', hstate⟩ := hbound.parts
  cases fault? with
  | some fault =>
    rw [expand_fault hm hx hgot, expand_fault hm' hx hgot'] at htable ⊢
    refine ⟨rfl, ⟨htable, ?_⟩, rfl⟩
    show now'.faults ++ [fault] = now.faults ++ [fault]
    rw [hstate.faults]
  | none =>
    rw [expand_body hm' hx hgot'] at hunmet
    obtain ⟨hafter, hout⟩ := rescan_match he out hstate hunmet
    rw [expand_body hm hx hgot, expand_body hm' hx hgot'] at htable ⊢
    exact ⟨rfl, ⟨htable, hafter.faults⟩, hout⟩

end Expand

/-- A call comes to the same, if that is so one level further down. -/
theorem expand_calls {budget : Nat}
    (he : ∀ below, budget = below + 1 → Overlooks name (expand below)) (called : String)
    (h : Ending tail s) (ht : Twin name st st') :
    Match name tail (expand budget called (s ++ tail) st out).parts
      (expand budget called s st' out).parts := by
  rcases ht.table called with hsame | ⟨rfl, -, m, hm, hmarked⟩
  · cases hm : st.table.lookup called with
    | none =>
      rw [expand_unknown hm, expand_unknown (hsame.trans hm)]
      exact fun _ => ⟨rfl, ht, rfl⟩
    | some m =>
      cases hx : m.expanding with
      | true =>
        rw [expand_recursive hm hx, expand_recursive (hsame.trans hm) hx]
        exact fun _ => ⟨rfl, ⟨ht.table, congrArg (· ++ _) ht.faults⟩, rfl⟩
      | false =>
        cases budget with
        | zero =>
          rw [expand_starved hm hx, expand_starved (hsame.trans hm) hx]
          exact fun _ => ⟨rfl, ⟨ht.table, ht.faults⟩, rfl⟩
        | succ below => exact expand_match (he below rfl) h ht hsame hm hx
  · -- The macro with the mark is met once more.
    rintro ⟨-, hunmet⟩
    rw [expand_recursive hm hmarked] at hunmet
    exact absurd (List.mem_append_right _ List.mem_cons_self) hunmet

/-- **Expanding overlooks the mark and the line end.** -/
theorem expand_overlooks (name : String) (budget : Nat) : Overlooks name (expand budget) := by
  induction budget with
  | zero =>
    refine ⟨expand_held 0, expand_faults 0, expand_table 0, fun called _ _ _ _ _ => ?_⟩
    exact expand_calls (fun _ hb => absurd hb (Nat.succ_ne_zero _).symm) called
  | succ budget ih =>
    refine ⟨expand_held _, expand_faults _, expand_table _, fun called _ _ _ _ _ => ?_⟩
    exact expand_calls (fun _ hb => Nat.succ.inj hb ▸ ih) called

end Expansion

end AsmPrep
