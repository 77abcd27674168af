/-
How much nesting is allowed makes no difference, as long as it is enough.

Two expanders that agree on all tables up to a weight make every scan agree that starts
from such a table, for scanning does not add to the weight and binding adds one for each
parameter.  So two budgets agree on the tables that weigh no more than either: inside an
expansion both are one less, and so is the weight.
-/
import AsmPrep.Proofs.Macro.Nesting

namespace AsmPrep.Expansion

open Byte

/-- Reading adds no more to the weight of the table than it binds. -/
theorem Reads.weight_le {expand : Expander} {s rest : Text} {st st' : State} {n : Nat}
    (h : Reads expand s st n rest st')
    (he : ∀ name s st out, (expand name s st out).state.table = st.table) :
    st'.table.weight ≤ st.table.weight + n := by
  refine h.keeps (P := fun n now => now.table.weight ≤ st.table.weight + n) ?_ ?_ ?_ (Nat.le_refl _)
  · intro n name s now out hp
    rwa [he]
  · intro n now fault hp
    exact hp
  · intro n now param body hp
    exact Nat.le_trans (MacroTable.weight_bind_le _ _ _) (Nat.succ_le_succ hp)

section Agree

variable {e₁ e₂ : Expander} {b : Nat}
  (htable : ∀ name s st out, (e₁ name s st out).state.table = st.table)
  (hagree : ∀ name s st out, st.table.weight ≤ b → e₁ name s st out = e₂ name s st out)

include hagree

theorem scanCall_congr (s : Text) (st : State) (out : Buffer) (hw : st.table.weight ≤ b) :
    scanCall e₁ s st out = scanCall e₂ s st out := by
  unfold scanCall
  split
  · rfl
  · simp only [hagree _ _ _ _ hw]

theorem stringize_congr (s : Text) (st : State) (out : Buffer) (hw : st.table.weight ≤ b) :
    stringize e₁ s st out = stringize e₂ s st out := by
  unfold stringize
  split
  · rfl
  · dsimp only
    rw [scanCall_congr hagree _ st {} hw]

theorem bodyToken_congr (s : Text) (st : State) (out : Buffer) (hw : st.table.weight ≤ b) :
    bodyToken e₁ s st out = bodyToken e₂ s st out := by
  unfold bodyToken
  rw [scanCall_congr hagree s st out hw, stringize_congr hagree s st out hw]

theorem argumentToken_congr (s : Text) (st : State) (out : Buffer) (hw : st.table.weight ≤ b) :
    argumentToken e₁ s st out = argumentToken e₂ s st out := by
  unfold argumentToken
  rw [scanCall_congr hagree s st out hw, stringize_congr hagree s st out hw]

include htable

theorem rescan_congr (s : Text) (st : State) (out : Buffer) (hw : st.table.weight ≤ b) :
    rescan e₁ s st out = rescan e₂ s st out := by
  fun_induction rescan e₁ s st out with
  | case1 => rw [rescan_nil]
  | case2 st out c r p hp ih =>
    have hkeep : p.state.table = st.table := (bodyToken_reads hp).table_eq htable
    rw [bodyToken_congr hagree _ st out hw] at hp
    rw [rescan_some hp, ih (hkeep ▸ hw)]
  | case3 st out c r hp ih =>
    rw [bodyToken_congr hagree _ st out hw] at hp
    rw [rescan_none hp, ih hw]

theorem scanArgument_congr (s : Text) (st : State) (out : Buffer) (depth : Nat)
    (hw : st.table.weight ≤ b) :
    (scanArgument e₁ s st out depth).parts = (scanArgument e₂ s st out depth).parts := by
  fun_induction scanArgument e₁ s st out depth with
  | case1 s st out depth he => rw [scanArgument_end he, Gathered.parts]
  | case2 s st out depth he p hp ih =>
    have hkeep : p.state.table = st.table := (argumentToken_reads hp).table_eq htable
    rw [argumentToken_congr hagree s st out hw] at hp
    rw [scanArgument_some (by simpa using he) hp]
    exact ih (hkeep ▸ hw)
  | case3 st out depth he => exact absurd rfl he
  | case4 st out depth c r hc he hp =>
    rw [argumentToken_congr hagree _ st out hw] at hp
    obtain ⟨hd, hstop⟩ : depth = 0 ∧ (c = closeParen ∨ c = comma) := by simpa using hc
    subst hd
    rw [scanArgument_stop (by simpa using he) hp hstop, Gathered.parts]
  | case5 st out depth c r hc he hp ih =>
    rw [argumentToken_congr hagree _ st out hw] at hp
    rw [scanArgument_step (by simpa using he) hp (by simpa using hc)]
    exact ih hw

theorem argument_congr (inParens : Bool) (s : Text) (st : State) (hw : st.table.weight ≤ b) :
    (argument e₁ inParens s st).parts = (argument e₂ inParens s st).parts := by
  unfold argument collectArgument
  split
  · rfl
  · split
    · exact scanArgument_congr htable hagree [] st {} 0 hw
    · split
      · rfl
      · exact scanArgument_congr htable hagree _ st {} 0 hw

/-- The table may gain as many bindings as there are parameters. -/
theorem bindArguments_congr (inParens : Bool) (params : List String) (s : Text) (st : State)
    (hw : st.table.weight + params.length ≤ b) :
    (bindArguments e₁ inParens params s st).parts =
      (bindArguments e₂ inParens params s st).parts := by
  induction params generalizing s st with
  | nil => rfl
  | cons param others ih =>
    rw [List.length_cons] at hw
    have hfirst := argument_congr htable hagree inParens (Text.skipBlanks s) st
      (Nat.le_trans (Nat.le_add_right _ _) hw)
    have hkeep : (argument e₁ inParens (Text.skipBlanks s) st).state.table = st.table :=
      (argument_reads e₁ inParens _ st).table_eq htable
    rcases hgot : (argument e₁ inParens (Text.skipBlanks s) st).parts with ⟨rest, st', text, fault?⟩
    have hgot₂ := hfirst.symm.trans hgot
    have hst : (argument e₁ inParens (Text.skipBlanks s) st).state = st' :=
      congrArg (fun parts => parts.2.1) hgot
    rw [hst] at hkeep
    cases fault? with
    | some fault => rw [bindArguments_fault hgot, bindArguments_fault hgot₂]
    | none =>
      by_cases ho : others = []
      · subst ho
        rw [bindArguments_last hgot, bindArguments_last hgot₂]
      · by_cases hr : (Text.skipBlanks rest).head? = some comma
        · obtain ⟨r, hr⟩ := List.head?_eq_some_iff.1 hr
          rw [bindArguments_next ho hgot hr, bindArguments_next ho hgot₂ hr]
          refine ih r _ ?_
          have hle := MacroTable.weight_bind_le st'.table param text.chomp.toText
          show (st'.table.bind param text.chomp.toText).weight + others.length ≤ b
          rw [hkeep] at hle ⊢
          omega
        · rw [bindArguments_missing ho hgot hr, bindArguments_missing ho hgot₂ hr]

theorem takeArguments_congr (params : List String) (s : Text) (st : State)
    (hw : st.table.weight + params.length ≤ b) :
    takeArguments e₁ params s st = takeArguments e₂ params s st := by
  have hbound :=
    bindArguments_congr htable hagree (openArguments s).1 params (openArguments s).2 st hw
  unfold takeArguments
  split
  · rfl
  · refine Gathered.ext_parts ?_
    rcases hgot : (bindArguments e₁ (openArguments s).1 params (openArguments s).2 st).parts with
      ⟨rest, st', text, fault?⟩
    have hgot₂ := hbound.symm.trans hgot
    cases fault? with
    | some fault => rw [collectArguments_fault hgot, collectArguments_fault hgot₂]
    | none => rw [collectArguments_close hgot, collectArguments_close hgot₂]

/-- Inside an unmarked macro the weight is one less, whatever is bound there. -/
theorem entered_congr {name : String} {st : State} {m : Macro} (s : Text)
    (hm : st.table.lookup name = some m) (hx : m.expanding = false) (hw : st.table.weight ≤ b + 1) :
    takeArguments e₁ m.params s (st.enter name) = takeArguments e₂ m.params s (st.enter name) ∧
      ∀ out, rescan e₁ m.body (takeArguments e₂ m.params s (st.enter name)).state out =
        rescan e₂ m.body (takeArguments e₂ m.params s (st.enter name)).state out := by
  have hmark := MacroTable.weight_mark hm hx
  have hentered : (st.enter name).table.weight + m.params.length ≤ b := by
    show (MacroTable.pushScope _).weight + m.params.length ≤ b
    rw [MacroTable.weight_pushScope]
    omega
  have htake := takeArguments_congr htable hagree m.params s (st.enter name) hentered
  obtain ⟨n, hn, hreads⟩ := takeArguments_reads e₁ m.params s (st.enter name)
  have hweight := hreads.weight_le htable
  rw [htake] at hweight
  refine ⟨htake, ?_⟩
  intro out
  exact rescan_congr htable hagree m.body _ out (by omega)

end Agree

/-- Budgets that a table's weight fits in agree on it. -/
theorem expand_budget {b₁ b₂ : Nat} (name : String) (s : Text) (st : State) (out : Buffer)
    (h₁ : st.table.weight ≤ b₁) (h₂ : st.table.weight ≤ b₂) :
    expand b₁ name s st out = expand b₂ name s st out := by
  refine Expanded.ext_parts ?_
  cases hm : st.table.lookup name with
  | none => rw [expand_unknown hm, expand_unknown hm]
  | some m =>
    cases hx : m.expanding with
    | true => rw [expand_recursive hm hx, expand_recursive hm hx]
    | false =>
      have hmark := MacroTable.weight_mark hm hx
      obtain ⟨b₁, rfl⟩ : ∃ b, b₁ = b + 1 := ⟨b₁ - 1, by omega⟩
      obtain ⟨b₂, rfl⟩ : ∃ b, b₂ = b + 1 := ⟨b₂ - 1, by omega⟩
      have hagree : ∀ name s st out, st.table.weight ≤ min b₁ b₂ →
          expand b₁ name s st out = expand b₂ name s st out := by
        intro name s st out hw
        exact expand_budget name s st out (Nat.le_trans hw (Nat.min_le_left _ _))
          (Nat.le_trans hw (Nat.min_le_right _ _))
      obtain ⟨htake, hbody⟩ := entered_congr (expand_table b₁) hagree s hm hx (by omega)
      have hparts := congrArg Gathered.parts htake
      cases hf : (takeArguments (expand b₂) m.params s (st.enter name)).fault with
      | some fault =>
        have hgot := Gathered.parts_eq hf
        rw [expand_fault hm hx (hparts.trans hgot), expand_fault hm hx hgot]
      | none =>
        have hgot := Gathered.parts_eq hf
        rw [expand_body hm hx (hparts.trans hgot), expand_body hm hx hgot, hbody out]
termination_by b₁

/-- Expands with no budget in sight: always the weight of the table at hand. -/
def unbounded : Expander := fun name s st out => expand st.table.weight name s st out

/-- **The recursion needs no budget.**  Expanding an unmarked macro is collecting its arguments
and scanning its body, with every call on the way expanded by the same recursion. -/
theorem unbounded_eq (name : String) (s : Text) (st : State) (out : Buffer) :
    (unbounded name s st out).parts =
      match st.table.lookup name with
      | none => (s, st, out)
      | some m =>
        if m.expanding then (s, st.report (.macroRecursion name), out)
        else
          let bound := takeArguments unbounded m.params s (st.enter name)
          match bound.fault with
          | some fault => (bound.rest, (bound.state.report fault).leave name, out)
          | none =>
            let made := rescan unbounded m.body bound.state out
            (bound.rest, made.1.leave name, made.2) := by
  show (expand st.table.weight name s st out).parts = _
  cases hm : st.table.lookup name with
  | none => exact expand_unknown hm
  | some m =>
    cases hx : m.expanding with
    | true =>
      simp only [hx, if_true]
      exact expand_recursive hm hx
    | false =>
      have hmark := MacroTable.weight_mark hm hx
      obtain ⟨b, hb⟩ : ∃ b, st.table.weight = b + 1 := ⟨st.table.weight - 1, by omega⟩
      have hagree : ∀ name s st out, st.table.weight ≤ b →
          expand b name s st out = unbounded name s st out := by
        intro name s st out hw
        exact expand_budget name s st out hw (Nat.le_refl _)
      obtain ⟨htake, hbody⟩ := entered_congr (expand_table b) hagree s hm hx (Nat.le_of_eq hb)
      simp only [hb, hx, Bool.false_eq_true, if_false]
      have hparts := congrArg Gathered.parts htake
      cases hf : (takeArguments unbounded m.params s (st.enter name)).fault with
      | some fault => exact expand_fault hm hx (hparts.trans (Gathered.parts_eq hf))
      | none => rw [expand_body hm hx (hparts.trans (Gathered.parts_eq hf)), hbody out]

end AsmPrep.Expansion

namespace AsmPrep.Statement

open Expansion

section Agree

variable {e₁ e₂ : Expander} {b : Nat}
  (htable : ∀ name s st out, (e₁ name s st out).state.table = st.table)
  (hagree : ∀ name s st out, st.table.weight ≤ b → e₁ name s st out = e₂ name s st out)

include hagree

theorem token_congr (s : Text) (st : State) (out : Buffer) (hw : st.table.weight ≤ b) :
    token e₁ s st out = token e₂ s st out := by
  unfold token
  rw [scanCall_congr hagree s st out hw, stringize_congr hagree s st out hw]

include htable

theorem splitFrom_congr (s : Text) (st : State) (out : Buffer) (n : Counts)
    (hw : st.table.weight ≤ b) : splitFrom e₁ s st out n = splitFrom e₂ s st out n := by
  fun_induction splitFrom e₁ s st out n with
  | case1 => rw [splitFrom_nil]
  | case2 st out n c r isName p hp ih =>
    have hkeep : p.state.table = st.table := (token_reads hp).table_eq htable
    rw [token_congr hagree _ st out hw] at hp
    rw [splitFrom_token hp]
    exact ih (hkeep ▸ hw)
  | case3 st out n c r hp he =>
    rw [token_congr hagree _ st out hw] at hp
    rw [splitFrom_comment hp he]
  | case4 st out n c r hp he ih =>
    rw [token_congr hagree _ st out hw] at hp
    rw [splitFrom_cut hp he, ih hw]
  | case5 st out n c r hp n' he ih =>
    rw [token_congr hagree _ st out hw] at hp
    rw [splitFrom_keep hp he, ih hw]

end Agree

/-- Nothing is added to the pieces of a line by more nesting than its table's weight. -/
theorem splitFrom_budget {budget : Nat} (line : Text) {table : MacroTable}
    (h : table.weight ≤ budget) :
    splitFrom (expand budget) line { table } {} {} = split line table := by
  refine splitFrom_congr (expand_table budget) ?_ line { table } {} {} (Nat.le_refl _)
  intro name s st out hw
  exact expand_budget name s st out (Nat.le_trans hw h) hw

end AsmPrep.Statement
