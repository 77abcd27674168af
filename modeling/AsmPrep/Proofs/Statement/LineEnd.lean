/-
What becomes of the line end.

A raw line ends with its newline, and splitting copies it behind everything else.  Only one
thing can take it away first: a call, whose arguments run on through a string that is never
closed.  Such a string goes to the end of the text, and then what is bound has the white
space at its end taken off.  A string outside a call takes the newline along but keeps it.

So a line makes whole statements exactly when no call in it leaves it open.
-/
import AsmPrep.Statement.Split
import AsmPrep.Proofs.Macro.LineEnd

namespace AsmPrep

open Byte

namespace Statement

open Expansion

variable {e : Expander} {s : Text} {st : State} {out : Buffer} {n : Counts}

/-- The tokens of a line are those of an argument. -/
theorem token_argumentToken (e : Expander) (s : Text) (st : State) (out : Buffer) :
    (token e s st out).map Prod.snd = argumentToken e s st out := by
  simp only [token, argumentToken, Option.map_or, Option.map_map, Function.comp_def, Option.map_id']

theorem token_perform (e : Expander) (s : Text) (st : State) (out : Buffer) :
    (token e s st out).map (fun found => found.2.parts) =
      (argumentItem st.table.contains s).map fun found => found.1.perform e found.2 st out := by
  rw [← argumentToken_perform, ← token_argumentToken, Option.map_map]
  rfl

theorem token_none (h : argumentItem st.table.contains s = none) : token e s st out = none := by
  have hperform := token_perform e s st out
  rw [h] at hperform
  exact Option.map_eq_none_iff.1 hperform

theorem item_of_token {isName : Bool} {p : Progress s} (h : token e s st out = some (isName, p)) :
    ∃ item rest, argumentItem st.table.contains s = some (item, rest) ∧
      item.perform e rest st out = p.parts := by
  refine argumentItem_of_some ?_
  rw [← token_argumentToken, h]
  rfl

/-- Scanning on from here comes to a call that takes the text to its end, and leaves something
that does not end with a newline. -/
inductive LeftOpen (e : Expander) : Text → State → Buffer → Counts → Prop
  | call {s rest : Text} {st : State} {out : Buffer} {n : Counts} {isName : Bool} {p : Progress s}
      {item : Item} {name : String} (hp : token e s st out = some (isName, p))
      (hitem : argumentItem st.table.contains s = some (item, rest))
      (hcall : item.called? = some name)
      (hrest : p.rest = []) (hopen : ¬ Text.Closed p.out.toText) : LeftOpen e s st out n
  | token {c : Byte} {r : Text} {st : State} {out : Buffer} {n : Counts} {isName : Bool}
      {p : Progress (c :: r)} (hp : token e (c :: r) st out = some (isName, p))
      (h : LeftOpen e p.rest p.state p.out (if isName then n.name else n.other)) :
      LeftOpen e (c :: r) st out n
  | cut {c : Byte} {r : Text} {st : State} {out : Buffer} {n : Counts}
      (hp : token e (c :: r) st out = none) (he : effect c n = .cut) (h : LeftOpen e r st {} {}) :
      LeftOpen e (c :: r) st out n
  | keep {c : Byte} {r : Text} {st : State} {out : Buffer} {n n' : Counts}
      (hp : token e (c :: r) st out = none) (he : effect c n = .keep n')
      (h : LeftOpen e r st (out.push c) n') : LeftOpen e (c :: r) st out n

theorem token_ne_nil {isName : Bool} {p : Progress s} (_ : token e s st out = some (isName, p)) :
    s ≠ [] := by
  rintro rfl
  exact absurd p.shorter (Nat.not_lt_zero _)

theorem token_held (he : ∀ name s st out, Held (e name s st out).rest s) {isName : Bool}
    {p : Progress s} (h : token e s st out = some (isName, p)) : Held p.rest s := by
  refine argumentToken_held he (?_ : argumentToken e s st out = some p)
  rw [← token_argumentToken, h]
  rfl

theorem not_leftOpen_nil : ¬ LeftOpen e [] st out n := by
  intro h
  cases h with
  | call hp => exact token_ne_nil hp rfl

section Step

variable {c : Byte} {r : Text}

theorem leftOpen_token {isName : Bool} {p : Progress (c :: r)}
    (hp : token e (c :: r) st out = some (isName, p)) (h : LeftOpen e (c :: r) st out n) :
    (p.rest = [] ∧ ¬ Text.Closed p.out.toText) ∨
      LeftOpen e p.rest p.state p.out (if isName then n.name else n.other) := by
  cases h with
  | call hp' _ _ hrest hopen =>
    obtain ⟨rfl, rfl⟩ := Prod.mk.inj (Option.some.inj (hp.symm.trans hp'))
    exact .inl ⟨hrest, hopen⟩
  | token hp' h =>
    obtain ⟨rfl, rfl⟩ := Prod.mk.inj (Option.some.inj (hp.symm.trans hp'))
    exact .inr h
  | cut hp' => exact absurd (hp.symm.trans hp') (by simp)
  | keep hp' => exact absurd (hp.symm.trans hp') (by simp)

theorem not_leftOpen_comment (hp : token e (c :: r) st out = none) (he : effect c n = .comment) :
    ¬ LeftOpen e (c :: r) st out n := by
  intro h
  cases h with
  | call hp' => exact absurd (hp.symm.trans hp') (by simp)
  | token hp' => exact absurd (hp.symm.trans hp') (by simp)
  | cut _ hcut => exact absurd (he.symm.trans hcut) (by simp)
  | keep _ hkeep => exact absurd (he.symm.trans hkeep) (by simp)

theorem leftOpen_cut_iff (hp : token e (c :: r) st out = none) (he : effect c n = .cut) :
    LeftOpen e (c :: r) st out n ↔ LeftOpen e r st {} {} := by
  refine ⟨?_, .cut hp he⟩
  intro h
  cases h with
  | call hp' => exact absurd (hp.symm.trans hp') (by simp)
  | token hp' => exact absurd (hp.symm.trans hp') (by simp)
  | cut _ _ h => exact h
  | keep _ hkeep => exact absurd (he.symm.trans hkeep) (by simp)

theorem leftOpen_keep_iff {n' : Counts} (hp : token e (c :: r) st out = none)
    (he : effect c n = .keep n') :
    LeftOpen e (c :: r) st out n ↔ LeftOpen e r st (out.push c) n' := by
  refine ⟨?_, .keep hp he⟩
  intro h
  cases h with
  | call hp' => exact absurd (hp.symm.trans hp') (by simp)
  | token hp' => exact absurd (hp.symm.trans hp') (by simp)
  | cut _ hcut => exact absurd (he.symm.trans hcut) (by simp)
  | keep _ hkeep h =>
    obtain rfl := Effect.keep.inj (he.symm.trans hkeep)
    exact h

end Step

/-- A token that takes the line end and leaves the line open is a call. -/
theorem leftOpen_of_end {isName : Bool} {p : Progress s} (hp : token e s st out = some (isName, p))
    (hs : Text.Whole s) (hrest : p.rest = []) (hopen : ¬ Text.Closed p.out.toText) :
    LeftOpen e s st out n := by
  obtain ⟨item, rest, hitem, hdone⟩ := item_of_token hp
  cases hcall : item.called? with
  | some name => exact .call hp hitem hcall hrest hopen
  | none =>
    rw [Item.perform_literal hcall e (fun _ out => out)] at hdone
    obtain ⟨hrest', -, hout⟩ : _ ∧ _ ∧ _ := by
      simpa only [Progress.parts, Prod.mk.injEq] using hdone
    rw [hrest'.trans hrest] at hitem
    have hcopy := argumentItem_end hitem hs
    subst hcopy
    refine absurd ?_ hopen
    rw [← hout, Item.write, Buffer.toText_append]
    exact (Text.closed_append _ hs.ne_nil).2 hs.closed

/-- **A line falls into closed pieces exactly when it is not left open.** -/
theorem closed_splitFrom_iff (he : ∀ name s st out, Held (e name s st out).rest s)
    (hend : s = [] → Text.Closed out.toText) (hs : s ≠ [] → Text.Whole s) :
    (∀ piece ∈ (splitFrom e s st out n).2, Text.Closed piece) ↔ ¬ LeftOpen e s st out n := by
  fun_induction splitFrom e s st out n with
  | case1 st out n =>
    have hout := hend rfl
    simp [hout, not_leftOpen_nil]
  | case2 st out n c r isName p hp ih =>
    have hwhole := hs (List.cons_ne_nil c r)
    have hsuffix := (token_held he hp).suffix
    -- Only a token that takes the line end along can decide the matter here.
    by_cases hclosed : p.rest = [] → Text.Closed p.out.toText
    · refine (ih hclosed (hwhole.suffix hsuffix)).trans (not_congr ⟨.token hp, ?_⟩)
      intro h
      refine (leftOpen_token hp h).resolve_left ?_
      rintro ⟨hrest, hopen⟩
      exact hopen (hclosed hrest)
    · obtain ⟨hrest, hopen⟩ := Classical.not_imp.1 hclosed
      have hleft : LeftOpen e (c :: r) st out n := leftOpen_of_end hp hwhole hrest hopen
      rw [hrest, splitFrom_nil]
      simp [hopen, hleft]
  | case3 st out n c r hp he' =>
    -- A comment is dropped with the line end, and a newline is put in its place.
    refine iff_of_true ?_ (not_leftOpen_comment hp he')
    intro piece hpiece
    obtain rfl := List.mem_singleton.1 hpiece
    exact .inr (by simp)
  | case4 st out n c r hp he' ih =>
    have hwhole := hs (List.cons_ne_nil c r)
    have hclosed : Text.Closed (out.push newline).toText := .inr (by simp)
    show (∀ piece ∈ (out.push newline).toText :: (splitFrom e r st {} {}).2, _) ↔ _
    rw [List.forall_mem_cons, and_iff_right hclosed, leftOpen_cut_iff hp he']
    exact ih (fun _ => .inl rfl) (hwhole.suffix (List.suffix_cons c r))
  | case5 st out n c r hp n' he' ih =>
    have hwhole := hs (List.cons_ne_nil c r)
    have hlast : r = [] → Text.Closed (out.push c).toText := by
      rintro rfl
      rw [Buffer.toText_push, Text.closed_append _ (List.cons_ne_nil c [])]
      exact hwhole.closed
    rw [leftOpen_keep_iff hp he']
    exact ih hlast (hwhole.suffix (List.suffix_cons c r))

/-- **Only a line with a string that is not closed can be left open.** -/
theorem LeftOpen.unclosed (he : ∀ name s st out, Held (e name s st out).rest s)
    (h : LeftOpen e s st out n) (hs : s ≠ [] → Text.Whole s) : Unclosed s := by
  induction h with
  | call hp _ _ hrest _ =>
    have hheld := token_held he hp
    have hne := token_ne_nil hp
    refine (hheld.line (hs hne)).resolve_left ?_
    rw [hrest]
    exact Text.not_whole_nil
  | token hp _ ih =>
    have hsuffix := (token_held he hp).suffix
    exact (ih ((hs (List.cons_ne_nil _ _)).suffix hsuffix)).of_suffix hsuffix
  | @cut c r _ _ _ _ _ _ ih =>
    have hsuffix : r <:+ c :: r := List.suffix_cons c r
    exact (ih ((hs (List.cons_ne_nil c r)).suffix hsuffix)).of_suffix hsuffix
  | @keep c r _ _ _ _ _ _ _ ih =>
    have hsuffix : r <:+ c :: r := List.suffix_cons c r
    exact (ih ((hs (List.cons_ne_nil c r)).suffix hsuffix)).of_suffix hsuffix

end Statement

end AsmPrep
