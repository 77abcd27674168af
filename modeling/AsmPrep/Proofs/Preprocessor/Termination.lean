/-
Expanding a line ends, and how far it nests.

Between two requests no macro is marked, so the weight of the table is the number of macros
and that of their parameters.  As long as the expansions of a line may be nested that deep,
none of them is left out, and allowing for more makes no difference.
-/
import AsmPrep.Proofs.Macro.Budget
import AsmPrep.Proofs.Preprocessor.Reachable

namespace AsmPrep

/-- How many parameters the macros of a scope have together. -/
def Scope.paramCount (scope : Scope) : Nat :=
  scope.foldr (fun entry total => entry.2.params.length + total) 0

theorem Scope.weight_of_unmarked {scope : Scope} (h : ∀ entry ∈ scope, entry.2.expanding = false) :
    scope.weight = scope.length + scope.paramCount := by
  induction scope with
  | nil => rfl
  | cons entry others ih =>
    have hfirst : entry.2.weight = 1 + entry.2.params.length := by
      rw [Macro.weight, h entry List.mem_cons_self]
      rfl
    have hothers := ih fun other ho => h other (List.mem_cons_of_mem _ ho)
    have hcount : paramCount (entry :: others) = entry.2.params.length + paramCount others := rfl
    rw [Scope.weight_cons, hfirst, hothers, hcount, List.length_cons]
    omega

/-- Of a table between two requests, the weight is the number of macros and of parameters. -/
theorem MacroTable.Settled.weight_eq {t : MacroTable} (h : t.Settled) :
    t.weight = t.innermost.length + t.innermost.paramCount := by
  rw [MacroTable.weight_eq, h.outer, Scope.weight_of_unmarked h.unmarked]
  rfl

namespace Statement

open Expansion

/-- A line is split without an expansion left out, and with no more scopes than the depth of
the table and its weight come to. -/
theorem split_within (line : Text) (table : MacroTable) :
    (split line table).1.starved = false ∧
      (split line table).1.deepest ≤ table.depth + table.weight := by
  have hreads := splitFrom_reads (full table) line { table } {} {}
  have hwithin := hreads.keeps
    (P := fun n now => n = 0 → Within (table.depth + table.weight) table.depth table.weight now)
    ?_ ?_ ?_ ?_ rfl
  · exact ⟨hwithin.starved, hwithin.deepest⟩
  · intro n name s st out hp hn
    exact expand_within (Nat.le_refl _) (Nat.le_refl _) name s st out (hp hn)
  · intro n st fault hp hn
    exact (hp hn).report fault
  · intro n st param body _ hn
    exact absurd hn (Nat.succ_ne_zero n)
  · intro _
    exact ⟨rfl, Nat.zero_le _, rfl, Nat.le_refl _⟩

end Statement

namespace Preprocessor

open Statement Expansion

/-- **Expanding a line ends, with bounded nesting.**  Where there are `U` macros with `P`
parameters together, nesting of depth `U + P` is enough to leave no expansion out, more of it
changes nothing, and there are never more than `1 + U + P` scopes. -/
theorem expansion_terminates {pp : Preprocessor} (h : Reachable pp) (line : Text) :
    let bound := pp.table.innermost.length + pp.table.innermost.paramCount
    (split line pp.table).1.starved = false ∧
      (∀ budget, bound ≤ budget →
        splitFrom (expand budget) line { table := pp.table } {} {} = split line pp.table) ∧
      (split line pp.table).1.deepest ≤ 1 + bound := by
  intro bound
  have hsettled := h.settled
  have hweight : pp.table.weight = bound := hsettled.weight_eq
  have hdepth : pp.table.depth = 1 := by rw [MacroTable.depth, hsettled.outer, List.length_nil]
  obtain ⟨hstarved, hdeepest⟩ := split_within line pp.table
  refine ⟨hstarved, ?_, ?_⟩
  · intro budget hb
    exact splitFrom_budget line (hweight ▸ hb)
  · rw [← hweight, ← hdepth]
    exact hdeepest

/-- Two scopes are enough for a macro that calls itself. -/
theorem recursive_define_terminates :
    let pp := (({} : Preprocessor).define "M" "M").2
    pp.table.innermost.length = 1 ∧ pp.table.innermost.paramCount = 0 ∧
      (split [77, Byte.newline] pp.table).1.starved = false ∧
      (split [77, Byte.newline] pp.table).1.deepest ≤ 2 := by
  have hends := expansion_terminates (.define "M" "M" (.start {})) [77, Byte.newline]
  exact ⟨by decide, by decide, hends.1, hends.2.2⟩

end Preprocessor

end AsmPrep
