/-
A definition of a name that is taken.

Its `#define` line is reported and left at that, and nothing more of the definition is
read.  So what would go on with its text is read as raw lines like any others, and their
statements come out.  A `#defcont` after it goes on with the macro that was defined
before, if that is still there.

A run goes on after a raw line as it would have begun there, for a line is read only when
no statement is waiting.  That makes what is left of a definition a run of its own.
-/
import AsmPrep.Proofs.Preprocessor.Lines
import AsmPrep.Proofs.Preprocessor.Reachable
import AsmPrep.Proofs.Preprocessor.Statements

namespace AsmPrep

/-! ### Lines added to a macro -/

namespace Macro

theorem length_body_appendLine (m : Macro) (line : Text) :
    (m.appendLine line).body.length =
      if m.body = [] then line.length else m.body.length + line.length + 1 := by
  unfold appendLine
  by_cases h : m.body = []
  · simp [h]
  · simp [h, Nat.add_assoc]

theorem length_body_le_appendLines (m : Macro) (lines : List Text) :
    m.body.length ≤ (lines.foldl appendLine m).body.length := by
  induction lines generalizing m with
  | nil => exact Nat.le_refl _
  | cons line lines ih =>
    refine Nat.le_trans ?_ (ih (m.appendLine line))
    rw [length_body_appendLine]
    split
    · rename_i h
      rw [h]
      exact Nat.zero_le _
    · omega

/-- Added lines make no difference only to an empty body, and only when they are empty. -/
theorem appendLines_eq_self_iff (m : Macro) (lines : List Text) :
    lines.foldl appendLine m = m ↔ lines = [] ∨ m.body = [] ∧ ∀ line ∈ lines, line = [] := by
  induction lines with
  | nil => simp
  | cons line lines ih =>
    have hgrows := length_body_le_appendLines (m.appendLine line) lines
    rw [length_body_appendLine] at hgrows
    constructor
    · intro h
      rw [List.foldl_cons] at h
      rw [h] at hgrows
      split at hgrows
      · rename_i hbody
        have hline : line = [] := List.eq_nil_of_length_eq_zero (by simpa [hbody] using hgrows)
        have hself : m.appendLine line = m := by
          rw [hline]
          cases m
          simp_all [appendLine]
        rw [hself] at h
        refine .inr ⟨hbody, ?_⟩
        rcases ih.1 h with rfl | ⟨-, hlines⟩
        · simpa using hline
        · simpa [hline] using hlines
      · omega
    · rintro (h | ⟨hbody, hlines⟩)
      · exact absurd h (List.cons_ne_nil _ _)
      · rw [List.forall_mem_cons] at hlines
        have hself : m.appendLine line = m := by
          rw [hlines.1]
          cases m
          simp_all [appendLine]
        rw [List.foldl_cons, hself]
        exact ih.2 (.inr ⟨hbody, hlines.2⟩)

/-- Lines added to a macro change no more than its body. -/
theorem appendLines_eq (m : Macro) (lines : List Text) :
    lines.foldl appendLine m = { m with body := (lines.foldl appendLine m).body } := by
  induction lines generalizing m with
  | nil => rfl
  | cons line lines ih =>
    rw [List.foldl_cons, ih]
    rfl

end Macro

/-! ### The macro that a definition goes on with -/

namespace MacroTable

/-- What a user sees of a macro. -/
def meaning? (t : MacroTable) (name : String) : Option (List String × Text) :=
  (t.lookup name).map fun m => (m.params, m.body)

theorem updateTarget_of_bottom {t : MacroTable} (h : t.outer = []) {name : String}
    (ht : t.target = some (0, name)) (f : Macro → Macro) :
    t.updateTarget f = { t with innermost := Scope.update name f t.innermost } :=
  updateTarget_of_innermost (by rw [ht, h, List.length_nil]) f

/-- Lines added to the target one after the other are added together. -/
theorem updateTarget_appendLines {t : MacroTable} (h : t.outer = []) {name : String}
    (ht : t.target = some (0, name)) (bodies : List Text) :
    bodies.foldl (fun t body => t.updateTarget (·.appendLine body)) t =
      t.updateTarget fun m => bodies.foldl Macro.appendLine m := by
  induction bodies generalizing t with
  | nil =>
    have hself : Scope.update name (fun m => m) t.innermost = t.innermost :=
      Scope.update_eq_self fun m _ => rfl
    rw [updateTarget_of_bottom h ht]
    simp only [List.foldl_nil, hself]
  | cons body bodies ih =>
    rw [List.foldl_cons, updateTarget_of_bottom h ht, ih (by exact h) (by exact ht),
      updateTarget_of_bottom (by exact h) (by exact ht), updateTarget_of_bottom h ht]
    simp only [Scope.update_update, List.foldl_cons]

namespace Settled

variable {t : MacroTable}

theorem contains_eq (h : t.Settled) (name : String) :
    t.contains name = t.innermost.contains name := by
  rw [MacroTable.contains, h.lookup_eq]
  rfl

/-- The target is a macro of the one scope. -/
theorem target_of_targetMacro? (h : t.Settled) {m : Macro} (hm : t.targetMacro? = some m) :
    ∃ name, t.target = some (0, name) ∧ t.lookup name = some m := by
  unfold targetMacro? at hm
  obtain ⟨⟨level, name⟩, htarget, hm⟩ := Option.bind_eq_some_iff.1 hm
  have hlevel : level = 0 := by
    have := t.target_le (level, name) htarget
    rw [h.outer] at this
    exact Nat.eq_zero_of_le_zero this
  subst hlevel
  refine ⟨name, htarget, ?_⟩
  rw [h.lookup_eq]
  simpa [scopeAt?, scopes, h.outer] using hm

/-- Changing the target changes what its name means, and nothing else. -/
theorem lookup_updateTarget (h : t.Settled) {name : String} (ht : t.target = some (0, name))
    (f : Macro → Macro) (other : String) :
    (t.updateTarget f).lookup other =
      if name = other then (t.lookup other).map f else t.lookup other := by
  rw [updateTarget_of_bottom h.outer ht, MacroTable.lookup_eq, MacroTable.lookup_eq]
  simp only [h.outer, List.findSome?_nil, Option.or_none]
  exact Scope.find?_update _ _ _ _

/-- **Lines added to the target show unless they add nothing.** -/
theorem meaning?_appendLines_iff (h : t.Settled) {m : Macro} (hm : t.targetMacro? = some m)
    (bodies : List Text) :
    (∀ name, (t.updateTarget fun m => bodies.foldl Macro.appendLine m).meaning? name =
        t.meaning? name) ↔
      bodies = [] ∨ m.body = [] ∧ ∀ body ∈ bodies, body = [] := by
  obtain ⟨name, htarget, hlookup⟩ := h.target_of_targetMacro? hm
  rw [← Macro.appendLines_eq_self_iff]
  unfold meaning?
  simp only [h.lookup_updateTarget htarget]
  constructor
  · intro hsame
    have hself := hsame name
    simp only [if_true, hlookup, Option.map_some, Option.some.injEq, Prod.mk.injEq] at hself
    rw [Macro.appendLines_eq, hself.2]
  · intro hself other
    split
    · rename_i heq
      subst heq
      rw [hlookup, Option.map_some, hself]
    · rfl

end Settled

end MacroTable

namespace Preprocessor

open LineSource

variable {σ : Type} [LineSource σ] {pp pp' : Preprocessor} {src src' : σ} {line : Text}

/-! ### The line that defines a name again -/

/-- What is left of a definition when its name is taken: a report. -/
def refuse (pp : Preprocessor) (name : String) : Preprocessor :=
  { pp with names := pp.names.insert name }.report (.macroRedefined name)

theorem processLine_of_taken {text rest : Text} {name : String}
    (hd : Directive.ofLine? line = some (.define text))
    (hn : Directive.takeName? text = some (name, rest))
    (htaken : pp.table.innermost.contains name = true) (src : σ) :
    pp.processLine line src = (pp.refuse name, src) := by
  unfold processLine
  rw [hd]
  show pp.defineFrom text src = _
  unfold defineFrom
  simp only [hn]
  rw [MacroTable.define?, if_pos htaken]
  rfl

/-! ### The `#defcont` lines after it -/

/-- From a state on, a source gives `#defcont` lines one after the other.  They make these
texts, each read with the lines that it goes on with, and a state and a source are left. -/
inductive Defconts : Preprocessor → σ → List Text → Preprocessor → σ → Prop
  | done (pp : Preprocessor) (src : σ) : Defconts pp src [] pp src
  | next {pp pp₁ pp₂ pp₃ : Preprocessor} {src src₁ src₂ src₃ : σ} {line text body : Text}
      {bodies : List Text} (hf : pp.fetchLine src = (some line, pp₁, src₁))
      (hd : Directive.ofLine? line = some (.continuation text))
      (hr : pp₁.readMacroText text src₁ = (body, pp₂, src₂))
      (h : Defconts pp₂ src₂ bodies pp₃ src₃) : Defconts pp src (body :: bodies) pp₃ src₃

theorem readMacroText_withTable (pp : Preprocessor) (table : MacroTable) (text : Text) (src : σ) :
    readMacroText { pp with table } text src =
      (pp.readMacroText text src).map id fun after =>
        after.map (fun pp => { pp with table }) id := by
  unfold readMacroText
  rw [readBody_withTable]
  rfl

theorem readMacroText_queue (pp : Preprocessor) (text : Text) (src : σ) :
    (pp.readMacroText text src).2.1.queue = pp.queue := readBody_queue pp _ src

theorem readMacroText_table (pp : Preprocessor) (text : Text) (src : σ) :
    (pp.readMacroText text src).2.1.table = pp.table := readBody_table pp _ src

theorem Defconts.table_eq {bodies : List Text} (h : Defconts pp src bodies pp' src') :
    pp'.table = pp.table := by
  induction h with
  | done => rfl
  | @next pp pp₁ pp₂ pp₃ src src₁ src₂ src₃ line text body bodies hf hd hr _ ih =>
    have hfetch := fetchLine_table pp src
    have hread := readMacroText_table pp₁ text src₁
    rw [hf] at hfetch
    rw [hr] at hread
    exact ih.trans (hread.trans hfetch)

/-- A `#defcont` line with a macro to go on with. -/
theorem processLine_defcont {pp₂ : Preprocessor} {src₂ : σ} {text body : Text} {m : Macro}
    (hd : Directive.ofLine? line = some (.continuation text))
    (hm : pp.table.targetMacro? = some m)
    (hr : pp.readMacroText text src = (body, pp₂, src₂)) :
    pp.processLine line src =
      ({ pp₂ with table := pp₂.table.updateTarget (·.appendLine body) }, src₂) := by
  unfold processLine
  rw [hd]
  show pp.continueFrom text src = _
  unfold continueFrom
  simp only [hm, hr]

/-- A `#defcont` line without one. -/
theorem processLine_defcont_none {text : Text}
    (hd : Directive.ofLine? line = some (.continuation text))
    (hm : pp.table.targetMacro? = none) (src : σ) :
    pp.processLine line src = (pp.report .continuationWithoutDefine, src) := by
  unfold processLine
  rw [hd]
  show pp.continueFrom text src = _
  unfold continueFrom
  simp only [hm]

/-- With a macro to go on with, the lines are added to it one after the other. -/
theorem Defconts.statements_eq {bodies : List Text} (h : Defconts pp src bodies pp' src')
    (hq : pp.queue = []) {table : MacroTable} (houter : table.outer = []) {name : String}
    (htarget : table.target = some (0, name)) {m : Macro} (hm : table.targetMacro? = some m) :
    statements { pp with table } src =
      statements { pp' with
        table := bodies.foldl (fun t body => t.updateTarget (·.appendLine body)) table } src' := by
  induction h generalizing table m with
  | done => rfl
  | @next pp pp₁ pp₂ pp₃ src src₁ src₂ src₃ line text body bodies hf hd hr _ ih =>
    have hqueue : pp₂.queue = [] := by
      have hfetch := fetchLine_queue pp src
      have hread := readMacroText_queue pp₁ text src₁
      rw [hf] at hfetch
      rw [hr] at hread
      exact hread.trans (hfetch.trans hq)
    have hfetch : fetchLine { pp with table } src = (some line, { pp₁ with table }, src₁) := by
      rw [fetchLine_withTable, hf]
      rfl
    have hread : readMacroText { pp₁ with table } text src₁ =
        (body, { pp₂ with table }, src₂) := by
      rw [readMacroText_withTable, hr]
      rfl
    rw [statements_of_fetchLine (by exact hq) hfetch, processLine_defcont hd hm hread,
      List.foldl_cons]
    have hm' : (table.updateTarget (·.appendLine body)).targetMacro? =
        some (m.appendLine body) := by
      rw [MacroTable.targetMacro?_updateTarget, hm]
      rfl
    rw [MacroTable.updateTarget_of_bottom houter htarget] at hm' ⊢
    exact ih hqueue houter htarget hm'

/-- **A definition of a name that is taken is one report, and the rest of it is read as raw
lines.**  A line that its text would go on in is split into statements, which come out.  The
`#defcont` lines after it are added to the macro that was defined before, and that shows unless
they add nothing; without such a macro the first of them is a report as well. -/
theorem redefinition_reads_one_line (hsettled : pp.table.Settled) (hq : pp.queue = [])
    (hf : pp.fetchLine src = (some line, pp', src')) {text rest : Text} {name : String}
    (hd : Directive.ofLine? line = some (.define text))
    (hn : Directive.takeName? text = some (name, rest)) (htaken : pp.isDefined name = true) :
    (pp.statements src = (pp'.refuse name).statements src' ∧
      (pp'.refuse name).table = pp.table ∧ (pp'.refuse name).queue = [] ∧
      (pp'.refuse name).log.entries = pp.log.entries ++ [⟨.macroRedefined name, pp'.locations⟩]) ∧
    (∀ more pp₂ src₂, (pp'.refuse name).fetchLine src' = (some more, pp₂, src₂) →
      Directive.ofLine? more = none → pp₂.lineStatements more <+: (pp.statements src).1) ∧
    (∀ bodies pp₂ src₂ m, Defconts (pp'.refuse name) src' bodies pp₂ src₂ →
      pp.table.targetMacro? = some m →
      let table := pp.table.updateTarget fun m => bodies.foldl Macro.appendLine m
      pp.statements src = statements { pp₂ with table } src₂ ∧
        ((∀ other, table.meaning? other = pp.table.meaning? other) ↔
          bodies = [] ∨ m.body = [] ∧ ∀ body ∈ bodies, body = [])) ∧
    (∀ more text₂ pp₂ src₂, (pp'.refuse name).fetchLine src' = (some more, pp₂, src₂) →
      Directive.ofLine? more = some (.continuation text₂) → pp.table.targetMacro? = none →
      pp.statements src = (pp₂.report .continuationWithoutDefine).statements src₂) := by
  obtain ⟨-, hfetched, -⟩ := fetchLine_some hf
  have htable : pp'.table = pp.table := by rw [hfetched]
  have hqueue : (pp'.refuse name).queue = [] := by
    rw [hfetched]
    exact hq
  have hrefused : pp.statements src = (pp'.refuse name).statements src' := by
    have hcontains : pp'.table.innermost.contains name = true := by
      rw [htable, ← hsettled.contains_eq]
      exact htaken
    rw [statements_of_fetchLine hq hf, processLine_of_taken hd hn hcontains]
  refine ⟨⟨hrefused, htable, hqueue, ?_⟩, ?_, ?_, ?_⟩
  · show pp'.log.entries ++ _ = _
    rw [hfetched]
  · intro more pp₂ src₂ hmore hplain
    have hqueue₂ : pp₂.queue = [] := by
      have := fetchLine_queue (pp'.refuse name) src'
      rw [hmore] at this
      exact this.trans hqueue
    have hmade :=
      queue_prefix_statements (pp₂.processLine more src₂).1 (pp₂.processLine more src₂).2
    rwa [processLine_queue, hqueue₂, List.nil_append, ← statements_of_fetchLine hqueue hmore,
      ← hrefused] at hmade
  · intro bodies pp₂ src₂ m hconts hm table
    obtain ⟨target, htarget, -⟩ := hsettled.target_of_targetMacro? hm
    refine ⟨?_, hsettled.meaning?_appendLines_iff hm bodies⟩
    have hrun := hconts.statements_eq hqueue hsettled.outer htarget hm
    have hsame : { pp'.refuse name with table := pp.table } = pp'.refuse name := by
      rw [← htable]
      rfl
    rw [MacroTable.updateTarget_appendLines hsettled.outer htarget, hsame] at hrun
    exact hrefused.trans hrun
  · intro more text₂ pp₂ src₂ hmore hcont hnone
    have hpp₂ : pp₂.table = pp.table := by
      obtain ⟨-, hfetched₂, -⟩ := fetchLine_some hmore
      rw [hfetched₂]
      exact htable
    rw [hrefused, statements_of_fetchLine hqueue hmore,
      processLine_defcont_none hcont (hpp₂ ▸ hnone)]

/-- The second line of a definition of `A`, which is a macro already, makes a statement. -/
theorem redefinition_reads_one_line_of_two :
    let pp := (({} : Preprocessor).define "A" "1").2
    let src := Feed.ofAnswers "a" [.ok (some (Text.ofString "#define A 2 \\\n")),
      .ok (some (Text.ofString "3\n"))]
    pp.queue = [] ∧ pp.isDefined "A" = true ∧
      [Text.ofString "3\n"] <+: (pp.statements src).1 := by
  intro pp src
  have hsettled : pp.table.Settled := (Reachable.define "A" "1" (.start {})).settled
  -- The two lines, as they are fetched.
  let first := pp.fetchLine src
  let second := (first.2.1.refuse "A").fetchLine first.2.2
  have hf : pp.fetchLine src =
      (some (Text.ofString "#define A 2 \\\n"), first.2.1, first.2.2) := rfl
  have hmore : (first.2.1.refuse "A").fetchLine first.2.2 =
      (some (Text.ofString "3\n"), second.2.1, second.2.2) := rfl
  have hd : Directive.ofLine? (Text.ofString "#define A 2 \\\n") =
      some (.define (Text.ofString " A 2 \\\n")) := by decide
  have hn : Directive.takeName? (Text.ofString " A 2 \\\n") =
      some ("A", Text.ofString " 2 \\\n") := by decide
  have h := redefinition_reads_one_line hsettled rfl hf hd hn (by decide)
  have hmade := h.2.1 (Text.ofString "3\n") second.2.1 second.2.2 hmore (by decide)
  have hline : second.2.1.lineStatements (Text.ofString "3\n") = [Text.ofString "3\n"] := by
    decide +kernel
  rw [hline] at hmade
  exact ⟨rfl, by decide, hmade⟩

/-- An input with a macro, a second definition of it that goes on in another line, and a call. -/
def takenName : InputStack :=
  (({} : InputStack).push.openText "test.asm"
    (Text.ofString "#define A 1\n#define A 2 \\\n3\nA\n")).2

/-- The second line of the rejected definition is its first statement. -/
theorem rejected_definition_emits_statement :
    (nextStatement {} takenName).1 = some (Text.ofString "3\n") ∧
      (nextStatement {} takenName).2.1.log.entries.map (·.fault) = [.macroRedefined "A"] := by
  decide +kernel

end Preprocessor

end AsmPrep
