/-
Expanding leaves the table as it found it.

An expansion marks its macro, opens a scope and binds arguments there; then it closes the
scope and takes the mark off.  In between it expands other calls, so the argument is by
induction on how deep expansions are nested: what is expanded on the way leaves no trace,
faults do not touch the table, and a binding goes into the scope that will be closed.  So
the table with that scope closed is the marked table throughout, and the name still means
the macro that was marked when the mark comes off.

Nothing is assumed of the table.  It may hold marked macros and open scopes to begin with.
-/
import AsmPrep.Proofs.Macro.Table
import AsmPrep.Proofs.Macro.Reading

namespace AsmPrep.Expansion

variable {expand : Expander} {s rest : Text} {st st' : State} {n : Nat}

/-- Closing the innermost scope undoes all that reading did to the table. -/
theorem Reads.popScope_table (h : Reads expand s st n rest st')
    (he : ∀ name s st out, (expand name s st out).state.table = st.table) :
    st'.table.popScope = st.table.popScope := by
  refine h.keeps (P := fun _ now => now.table.popScope = st.table.popScope) ?_ ?_ ?_ rfl
  · intro _ name s now out hp
    rwa [he]
  · intro _ now fault hp
    exact hp
  · intro _ now param body hp
    exact (MacroTable.popScope_bind _ _ _).trans hp

/-- Reading that binds nothing leaves the whole table as it was. -/
theorem Reads.table_eq (h : Reads expand s st 0 rest st')
    (he : ∀ name s st out, (expand name s st out).state.table = st.table) :
    st'.table = st.table := by
  refine h.keeps (P := fun n now => n = 0 → now.table = st.table) ?_ ?_ ?_ (fun _ => rfl) rfl
  · intro _ name s now out hp hn
    rw [he, hp hn]
  · intro _ now fault hp
    exact hp
  · intro _ now param body _ hn
    exact absurd hn (Nat.succ_ne_zero _)

/-- Leaving a macro undoes entering it. -/
theorem table_leave {name : String} {m : Macro} {made : State}
    (hm : st.table.lookup name = some m) (hx : m.expanding = false)
    (h : made.table.popScope = (st.enter name).table.popScope) :
    (made.leave name).table = st.table := by
  have hentered : (st.enter name).table.popScope = st.table.update name (·.setExpanding true) :=
    MacroTable.popScope_pushScope _
  show made.table.popScope.update name (·.setExpanding false) = st.table
  rw [h, hentered]
  exact MacroTable.update_mark_unmark hm hx

/-- An expansion leaves the table as it was when the expansions inside it do. -/
theorem Outcome.table_eq {budget : Nat} {name : String}
    (h : Outcome budget name s st rest st')
    (he : ∀ b, budget = b + 1 → ∀ name s st out,
      (Expansion.expand b name s st out).state.table = st.table) :
    st'.table = st.table := by
  cases h with
  | unknown => rfl
  | recursive => rfl
  | starved => rfl
  | opened hm hx hb _ hbound hmade =>
    refine table_leave hm hx ?_
    rw [hmade.popScope_table (he _ hb), hbound.popScope_table (he _ hb)]

/-- **An expansion leaves the table as it was.** -/
theorem expand_table (budget : Nat) (name : String) (s : Text) (st : State) (out : Buffer) :
    (Expansion.expand budget name s st out).state.table = st.table := by
  induction budget generalizing name s st out with
  | zero =>
    refine (expand_outcome 0 name s st out).table_eq ?_
    intro b hb
    exact absurd hb (Nat.succ_ne_zero b).symm
  | succ budget ih =>
    refine (expand_outcome (budget + 1) name s st out).table_eq ?_
    intro b hb
    obtain rfl := Nat.succ.inj hb
    exact ih

end AsmPrep.Expansion

namespace AsmPrep.Statement

open Expansion

/-- Splitting a line leaves the table as it was. -/
theorem split_table (line : Text) (table : MacroTable) : (split line table).1.table = table :=
  (splitFrom_reads (full table) line { table } {} {}).table_eq (expand_table table.weight)

end AsmPrep.Statement
