/-
The states a preprocessor can get into.

Between two requests there is one scope only, the bottom one, and nothing in it is being
expanded.  Definitions put unmarked macros into that scope or change a macro of it without
touching its mark, and expanding a line gives the table back as it was.  Requests differ in
the source they read from, so a reachable state may have seen any number of sources.
-/
import AsmPrep.Preprocessor
import AsmPrep.Source.Feed
import AsmPrep.Proofs.Macro.Balance

namespace AsmPrep

/-! ### Tables between two requests -/

/-- One scope, in which no macro is marked. -/
structure MacroTable.Settled (t : MacroTable) : Prop where
  outer : t.outer = []
  unmarked : ∀ entry ∈ t.innermost, entry.2.expanding = false

namespace Scope

theorem mem_update {name : String} {f : Macro → Macro} {scope : Scope} {entry : String × Macro}
    (h : entry ∈ update name f scope) :
    entry ∈ scope ∨ ∃ old ∈ scope, entry = (old.1, f old.2) := by
  induction scope with
  | nil => exact .inl h
  | cons first others ih =>
    rw [update] at h
    split at h
    · rcases List.mem_cons.1 h with rfl | h
      · exact .inr ⟨first, List.mem_cons_self, rfl⟩
      · exact .inl (List.mem_cons_of_mem _ h)
    · rcases List.mem_cons.1 h with rfl | h
      · exact .inl List.mem_cons_self
      · rcases ih h with h | ⟨old, hold, rfl⟩
        · exact .inl (List.mem_cons_of_mem _ h)
        · exact .inr ⟨old, List.mem_cons_of_mem _ hold, rfl⟩

end Scope

namespace MacroTable.Settled

variable {t t' : MacroTable}

theorem empty : Settled .empty := ⟨rfl, fun _ h => absurd h List.not_mem_nil⟩

theorem lookup_eq (h : t.Settled) (name : String) : t.lookup name = t.innermost.find? name := by
  rw [MacroTable.lookup_eq, h.outer, List.findSome?_nil, Option.or_none]

theorem define (h : t.Settled) {name : String} (hd : t.define? name = some t') : t'.Settled := by
  unfold define? at hd
  split at hd
  · exact absurd hd (by simp)
  · obtain rfl := Option.some.inj hd
    refine ⟨h.outer, ?_⟩
    intro entry he
    rcases List.mem_cons.1 he with rfl | he
    · rfl
    · exact h.unmarked entry he

theorem undefine (h : t.Settled) (name : String) : (t.undefine name).Settled := by
  unfold MacroTable.undefine
  split
  · refine ⟨h.outer, ?_⟩
    intro entry he
    exact h.unmarked entry (List.mem_filter.1 he).1
  · exact h

/-- The macro a continued definition goes on with is changed, and keeps its mark. -/
theorem updateTarget (h : t.Settled) {f : Macro → Macro}
    (hf : ∀ m, (f m).expanding = m.expanding) : (t.updateTarget f).Settled := by
  have hlength : t.outer.length = 0 := by rw [h.outer, List.length_nil]
  unfold MacroTable.updateTarget
  split
  · exact h
  · split
    · refine ⟨h.outer, ?_⟩
      intro entry he
      rcases Scope.mem_update he with he | ⟨old, hold, rfl⟩
      · exact h.unmarked entry he
      · show (f old.2).expanding = false
        rw [hf, h.unmarked old hold]
    · split
      · omega
      · exact h

end MacroTable.Settled

namespace Preprocessor

/-! ### Requests -/

/-- What a preprocessor can be after definitions from outside, resets and requests for
statements, each over a source of its own. -/
inductive Reachable : Preprocessor → Prop
  | start (names : Names.Pool) : Reachable { names }
  | define {pp : Preprocessor} (name value : String) (h : Reachable pp) :
      Reachable (pp.define name value).2
  | undefine {pp : Preprocessor} (name : String) (h : Reachable pp) : Reachable (pp.undefine name)
  | reset {pp : Preprocessor} (h : Reachable pp) : Reachable pp.reset
  | next {pp : Preprocessor} {σ : Type} [LineSource σ] (src : σ) (h : Reachable pp) :
      Reachable (pp.nextStatement src).2.1

section Lines

variable {σ : Type} [LineSource σ] {pp : Preprocessor}

theorem fetchLine_table (pp : Preprocessor) (src : σ) :
    (pp.fetchLine src).2.1.table = pp.table := by
  unfold fetchLine
  dsimp only
  split
  · rfl
  · rfl
  · rfl

theorem readBody_table (pp : Preprocessor) (text : Text) (src : σ) :
    (pp.readBody text src).2.1.table = pp.table := by
  fun_induction readBody pp text src with
  | case1 pp text src added _ line pp' src' h ih =>
    refine ih.trans ?_
    simpa only [h] using fetchLine_table pp src
  | case2 pp text src added _ pp' src' h => simpa only [h] using fetchLine_table pp src
  | case3 => rfl

/-- **A line that is no directive leaves the table as it was**, whatever the table is. -/
theorem processLine_table (pp : Preprocessor) {line : Text} (src : σ)
    (h : Directive.ofLine? line = none) : (pp.processLine line src).1.table = pp.table := by
  unfold processLine
  simp only [h]
  exact Statement.split_table line pp.table

theorem defineFrom_settled (h : pp.table.Settled) (text : Text) (src : σ) :
    (pp.defineFrom text src).1.table.Settled := by
  unfold defineFrom
  split
  · exact h
  · dsimp only
    split
    · exact h
    · rename_i table hd
      split
      · exact h.define hd
      · refine MacroTable.Settled.updateTarget ?_ ?_
        · show (readBody _ _ src).2.1.table.Settled
          rw [readBody_table]
          exact h.define hd
        · intro m
          rfl

theorem continueFrom_settled (h : pp.table.Settled) (text : Text) (src : σ) :
    (pp.continueFrom text src).1.table.Settled := by
  unfold continueFrom
  split
  · exact h
  · refine MacroTable.Settled.updateTarget ?_ ?_
    · show (readBody _ _ src).2.1.table.Settled
      rw [readBody_table]
      exact h
    · intro m
      rfl

theorem processLine_settled (h : pp.table.Settled) (line : Text) (src : σ) :
    (pp.processLine line src).1.table.Settled := by
  cases hd : Directive.ofLine? line with
  | none =>
    rw [processLine_table pp src hd]
    exact h
  | some directive =>
    unfold processLine
    rw [hd]
    cases directive with
    | define text => exact defineFrom_settled h text src
    | undefine text =>
      show (pp.undefineFrom text).table.Settled
      unfold undefineFrom
      split
      · exact h
      · exact h.undefine _
    | continuation text => exact continueFrom_settled h text src
    | unknown => exact h

theorem fill_settled (h : pp.table.Settled) (src : σ) : (pp.fill src).1.table.Settled := by
  fun_induction fill pp src with
  | case1 pp src _ pp' src' hf =>
    have := fetchLine_table pp src
    rw [hf] at this
    exact this ▸ h
  | case2 pp src _ line pp' src' hf processed ih =>
    have := fetchLine_table pp src
    rw [hf] at this
    exact ih (processLine_settled (this ▸ h) line src')
  | case3 => exact h

theorem nextStatement_settled (h : pp.table.Settled) (src : σ) :
    (pp.nextStatement src).2.1.table.Settled := by
  have hfill := fill_settled h src
  unfold nextStatement
  dsimp only
  split
  · exact hfill
  · exact hfill

end Lines

/-- Between two requests the table is settled. -/
theorem Reachable.settled {pp : Preprocessor} (h : Reachable pp) : pp.table.Settled := by
  induction h with
  | start names => exact .empty
  | @define pp name value _ ih =>
    unfold Preprocessor.define
    dsimp only
    split
    · exact ih
    · rename_i table hd
      exact (ih.define hd).updateTarget fun m => rfl
  | undefine name _ ih => exact ih.undefine name
  | reset _ _ => exact .empty
  | next src _ ih => exact nextStatement_settled ih src

/-- **Expansion leaves no trace in the table.**  Between two requests there is one scope with
no macro marked in it, and a line that is no directive leaves any table as it was. -/
theorem expansion_leaves_no_trace :
    (∀ pp, Reachable pp →
      pp.table.depth = 1 ∧ ∀ scope ∈ pp.table.scopes, ∀ entry ∈ scope, entry.2.expanding = false) ∧
    (∀ (pp : Preprocessor) {σ : Type} [LineSource σ] (src : σ) (line : Text),
      Directive.ofLine? line = none → (pp.processLine line src).1.table = pp.table) := by
  refine ⟨?_, ?_⟩
  · intro pp h
    have hsettled := h.settled
    refine ⟨?_, ?_⟩
    · rw [MacroTable.depth, hsettled.outer, List.length_nil]
    · intro scope hs
      rw [MacroTable.scopes, hsettled.outer, List.mem_singleton] at hs
      rw [hs]
      exact hsettled.unmarked
  · intro pp σ _ src line h
    exact processLine_table pp src h

/-- A macro that calls itself, on a line of its own. -/
theorem recursive_define_leaves_no_trace :
    let pp := (({} : Preprocessor).define "M" "M").2
    pp.isDefined "M" = true ∧ pp.table.depth = 1 ∧ Directive.ofLine? [77, Byte.newline] = none ∧
      (pp.processLine [77, Byte.newline] (Feed.ofAnswers "a" [])).1.table = pp.table := by
  refine ⟨by decide, ?_, by decide, ?_⟩
  · exact (expansion_leaves_no_trace.1 _ (.define "M" "M" (.start {}))).1
  · exact expansion_leaves_no_trace.2 _ (Feed.ofAnswers "a" []) _ (by decide)

end Preprocessor

end AsmPrep
