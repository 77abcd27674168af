/-
A run, one raw line at a time.

A line is read only when no statement is waiting, and then the run goes on as it would
have begun after that line.  Until the next line is read, the statements of this one are
answered in order.  A macro text that goes on reads lines in the same way, and neither the
table nor what waits has a part in it.
-/
import AsmPrep.Preprocessor
import AsmPrep.Proofs.Text.Line

namespace AsmPrep

/-- Only a line with a hash in its first column is a directive. -/
theorem Directive.ofLine?_eq_none {line : Text} (h : line.head? ≠ some Byte.hash) :
    ofLine? line = none := by
  cases line with
  | nil => rfl
  | cons c s => rw [ofLine?, if_neg fun hc => h (congrArg some hc)]

namespace Preprocessor

open LineSource

variable {σ : Type} [LineSource σ] {pp pp' : Preprocessor} {src src' : σ} {line : Text}

/-! ### A run from one raw line to the next -/

/-- A line that is fetched is the source's next line, and only the locations change. -/
theorem fetchLine_some (hf : pp.fetchLine src = (some line, pp', src')) :
    (nextLine src).1 = .ok (some line) ∧
      pp' = { pp with locations := LineSource.locations (nextLine src).2 } ∧
      src' = record (Listing.rawEntry (LineSource.locations (nextLine src).2).asm line)
        (nextLine src).2 := by
  unfold fetchLine at hf
  dsimp only at hf
  split at hf
  · rename_i fetched hnext
    obtain ⟨hline, rfl, rfl⟩ : _ ∧ _ ∧ _ := by simpa only [Prod.mk.injEq] using hf
    obtain rfl := Option.some.inj hline
    exact ⟨hnext, rfl, rfl⟩
  · exact absurd hf (by simp)
  · exact absurd hf (by simp)

/-- What is fetched is a matter of the source. -/
theorem fetchLine_of_some (hf : pp.fetchLine src = (some line, pp', src'))
    (other : Preprocessor) :
    other.fetchLine src = (some line, { other with locations := pp'.locations }, src') := by
  obtain ⟨hnext, rfl, rfl⟩ := fetchLine_some hf
  unfold fetchLine
  dsimp only
  rw [hnext]

/-- From a state on, a source gives these raw lines one after the other, and nothing is done with
them. -/
inductive Fetches : Preprocessor → σ → List Text → Preprocessor → σ → Prop
  | done (pp : Preprocessor) (src : σ) : Fetches pp src [] pp src
  | next {pp pp₁ pp₂ : Preprocessor} {src src₁ src₂ : σ} {line : Text} {lines : List Text}
      (hf : pp.fetchLine src = (some line, pp₁, src₁)) (h : Fetches pp₁ src₁ lines pp₂ src₂) :
      Fetches pp src (line :: lines) pp₂ src₂

namespace Fetches

variable {lines : List Text}

/-- Only the locations change. -/
theorem eq (h : Fetches pp src lines pp' src') : pp' = { pp with locations := pp'.locations } := by
  induction h with
  | done => rfl
  | next hf _ ih =>
    obtain ⟨-, hfetched, -⟩ := fetchLine_some hf
    rw [ih, hfetched]

/-- The source gives the same lines to any other that has the same locations. -/
theorem other (h : Fetches pp src lines pp' src') {other : Preprocessor}
    (hlocations : other.locations = pp.locations) :
    Fetches other src lines { other with locations := pp'.locations } src' := by
  induction h generalizing other with
  | done pp src =>
    rw [← hlocations]
    exact .done other src
  | @next pp pp₁ pp₂ src src₁ src₂ line lines hf _ ih =>
    have hothers : Fetches { other with locations := pp₁.locations } _ _ _ _ := ih rfl
    exact .next (fetchLine_of_some hf other) hothers

end Fetches

theorem fill_of_fetchLine (hq : pp.queue = []) (hf : pp.fetchLine src = (some line, pp', src')) :
    pp.fill src = (pp'.processLine line src').1.fill (pp'.processLine line src').2 := by
  rw [fill]
  simp only [hq, List.isEmpty_nil, if_true]
  split
  · rename_i h
    exact absurd (hf.symm.trans h) (by simp)
  · rename_i h
    obtain ⟨hline, rfl, rfl⟩ : _ ∧ _ ∧ _ := by simpa only [Prod.mk.injEq] using hf.symm.trans h
    rw [Option.some.inj hline]

theorem fill_of_end (hq : pp.queue = []) (hf : pp.fetchLine src = (none, pp', src')) :
    pp.fill src = (pp', src') := by
  rw [fill]
  simp only [hq, List.isEmpty_nil, if_true]
  split
  · rename_i h
    obtain ⟨-, rfl, rfl⟩ : _ ∧ _ ∧ _ := by simpa only [Prod.mk.injEq] using hf.symm.trans h
    rfl
  · rename_i h
    exact absurd (hf.symm.trans h) (by simp)

/-- Where no line is fetched there is no statement to be had. -/
theorem nextStatement_of_end (hq : pp.queue = [])
    (hfetch : pp.fetchLine src = (none, pp', src')) : pp.nextStatement src = (none, pp', src') := by
  have hnone : pp'.queue = [] := by
    have hkept := fetchLine_queue pp src
    rw [hfetch] at hkept
    exact hkept.trans hq
  unfold nextStatement
  rw [fill_of_end hq hfetch]
  dsimp only
  rw [hnone]

/-- What is answered depends on what filling the queue comes to. -/
theorem nextStatement_congr {pp₂ : Preprocessor} {src₂ : σ} (h : pp.fill src = pp₂.fill src₂) :
    pp.nextStatement src = pp₂.nextStatement src₂ := by
  unfold nextStatement
  rw [h]

theorem statements_congr {pp₂ : Preprocessor} {src₂ : σ} (h : pp.fill src = pp₂.fill src₂) :
    pp.statements src = pp₂.statements src₂ := by
  rw [statements, statements.eq_def pp₂, nextStatement_congr h]

/-- **A run goes on after a raw line as it would have begun there.** -/
theorem statements_of_fetchLine (hq : pp.queue = [])
    (hf : pp.fetchLine src = (some line, pp', src')) :
    pp.statements src = (pp'.processLine line src').1.statements (pp'.processLine line src').2 :=
  statements_congr (fill_of_fetchLine hq hf)

/-- A statement that waits is answered first. -/
theorem nextStatement_of_queue {statement : Text} {others : List Text}
    (hq : pp.queue = statement :: others) (src : σ) :
    pp.nextStatement src = (some statement, { pp with queue := others },
      record (Listing.statementEntry (LineSource.locations src).asm statement) src) := by
  unfold nextStatement
  rw [fill_of_queue (by rw [hq]; exact List.cons_ne_nil _ _)]
  simp only [hq]

/-- The source once these statements were asked for. -/
def handedOver (queue : List Text) (src : σ) : σ :=
  queue.foldl (fun src statement =>
    record (Listing.statementEntry (LineSource.locations src).asm statement) src) src

/-- The statements that wait are answered, and then the run goes on without them. -/
theorem statements_of_queue (pp : Preprocessor) (src : σ) :
    pp.statements src =
      (statements { pp with queue := [] } (handedOver pp.queue src)).map (pp.queue ++ ·) id := by
  generalize hq : pp.queue = queue
  induction queue generalizing pp src with
  | nil =>
    cases pp
    cases hq
    rfl
  | cons statement others ih =>
    have hnext := nextStatement_of_queue hq src
    rw [statements]
    split
    · rename_i h
      exact absurd (hnext.symm.trans h) (by simp)
    · rename_i h
      obtain ⟨hfirst, rfl, rfl⟩ : _ ∧ _ ∧ _ := by
        simpa only [Prod.mk.injEq] using hnext.symm.trans h
      obtain rfl := Option.some.inj hfirst
      rw [ih _ _ rfl]
      rfl

/-- The statements that wait come before all others. -/
theorem queue_prefix_statements (pp : Preprocessor) (src : σ) :
    pp.queue <+: (pp.statements src).1 := by
  rw [statements_of_queue]
  exact List.prefix_append _ _

/-! ### Lines and the statements that they make -/

/-- From a state on in which no statement waits, a source gives these raw lines, each when all
that the lines before it made has been asked for, and `made` is all that is asked for. -/
inductive Yields : Preprocessor → σ → List Text → List Text → Preprocessor → σ → Prop
  | done (pp : Preprocessor) (src : σ) : Yields pp src [] [] pp src
  | next {pp pp₁ pp₂ pp₃ : Preprocessor} {src src₁ src₂ src₃ : σ} {line : Text}
      {lines made : List Text} (hf : pp.fetchLine src = (some line, pp₁, src₁))
      (hp : pp₁.processLine line src₁ = (pp₂, src₂))
      (h : Yields { pp₂ with queue := [] } (handedOver pp₂.queue src₂) lines made pp₃ src₃) :
      Yields pp src (line :: lines) (pp₂.queue ++ made) pp₃ src₃

namespace Yields

variable {lines made : List Text}

/-- **A run makes the statements of its first lines, and goes on behind them.** -/
theorem statements_eq (h : Yields pp src lines made pp' src') (hq : pp.queue = []) :
    pp.statements src = (pp'.statements src').map (made ++ ·) id := by
  induction h with
  | done => rfl
  | next hf hp _ ih =>
    rw [statements_of_fetchLine hq hf, hp, statements_of_queue, ih rfl]
    simp [Prod.map]

/-- What the first of the lines is to the others. -/
theorem cons_inv (h : Yields pp src (line :: lines) made pp' src') :
    ∃ pp₁ src₁ pp₂ src₂ more, pp.fetchLine src = (some line, pp₁, src₁) ∧
      pp₁.processLine line src₁ = (pp₂, src₂) ∧ made = pp₂.queue ++ more ∧
      Yields { pp₂ with queue := [] } (handedOver pp₂.queue src₂) lines more pp' src' := by
  cases h with
  | next hf hp h => exact ⟨_, _, _, _, _, hf, hp, rfl, h⟩

/-- A first line that makes one statement, and changes nothing but whether a group is open. -/
theorem cons_statement (h : Yields pp src (line :: lines) made pp' src') {statement : Text}
    {inGroup : Bool} (hline : ∀ (locations : Locations) (src : σ),
      processLine { pp with locations } line src =
        ({ pp with queue := [statement], inGroup, locations }, src)) (hq : pp.queue = []) :
    ∃ locations src₁ more, made = statement :: more ∧
      Yields { pp with inGroup, locations } src₁ lines more pp' src' := by
  obtain ⟨pp₁, src₁, pp₂, src₂, more, hf, hp, rfl, h⟩ := h.cons_inv
  obtain ⟨-, rfl, -⟩ := fetchLine_some hf
  obtain ⟨rfl, rfl⟩ := Prod.mk.inj ((hline _ src₁).symm.trans hp)
  cases pp
  cases hq
  exact ⟨_, _, more, rfl, h⟩

end Yields

/-! ### Lines that are no directives -/

theorem processLine_of_head (h : line.head? ≠ some Byte.hash) :
    pp.processLine line src = (pp.expandLine line, src) := by
  unfold processLine
  rw [Directive.ofLine?_eq_none h]

/-- Where splitting leaves the table as it is and reports nothing, all that a line does is to make
its statements. -/
theorem expandLine_of_split {st : Expansion.State} {pieces : List Text}
    (hsplit : Statement.split line pp.table = (st, pieces)) (htable : st.table = pp.table)
    (hfaults : st.faults = []) :
    pp.expandLine line =
      { pp with
        queue := pp.queue ++
          (Statement.normalizeAll pp.inGroup (pieces.flatMap Text.lines)).1
        inGroup := (Statement.normalizeAll pp.inGroup (pieces.flatMap Text.lines)).2 } := by
  unfold expandLine
  rw [hsplit]
  dsimp only
  rw [htable, hfaults]
  simp [Log.reportAll]

/-- A single piece makes a single statement. -/
theorem expandLine_of_piece {piece : Text}
    (hsplit : Statement.split line pp.table = ({ table := pp.table }, [piece]))
    (hwhole : Text.Whole piece) :
    pp.expandLine line =
      { pp with
        queue := pp.queue ++ [(Statement.normalize pp.inGroup piece).1]
        inGroup := (Statement.normalize pp.inGroup piece).2 } := by
  rw [expandLine_of_split hsplit rfl rfl, List.flatMap_singleton, hwhole.lines_eq]
  rfl

/-! ### Macro texts, whatever the table -/

theorem readBody_of_closed {text : Text} (h : (Directive.bodyLine text).2 = false) :
    pp.readBody text src = ((Directive.bodyLine text).1, pp, src) := by
  rw [readBody]
  simp [h]

theorem readBody_of_end {text : Text} (h : (Directive.bodyLine text).2 = true)
    (hf : pp.fetchLine src = (none, pp', src')) :
    pp.readBody text src = ((Directive.bodyLine text).1, pp', src') := by
  rw [readBody]
  simp only [h, if_true]
  split
  · rename_i h'
    exact absurd (hf.symm.trans h') (by simp)
  · rename_i h'
    obtain ⟨-, rfl, rfl⟩ : _ ∧ _ ∧ _ := by simpa only [Prod.mk.injEq] using hf.symm.trans h'
    rfl

theorem readBody_of_fetchLine {text : Text} (h : (Directive.bodyLine text).2 = true)
    (hf : pp.fetchLine src = (some line, pp', src')) :
    pp.readBody text src =
      (pp'.readBody line src').map ((Directive.bodyLine text).1 ++ ·) id := by
  rw [readBody]
  simp only [h, if_true]
  split
  · rename_i h'
    obtain ⟨hline, rfl, rfl⟩ : _ ∧ _ ∧ _ := by simpa only [Prod.mk.injEq] using hf.symm.trans h'
    rw [Option.some.inj hline]
  · rename_i h'
    exact absurd (hf.symm.trans h') (by simp)

theorem fetchLine_withTable (pp : Preprocessor) (table : MacroTable) (src : σ) :
    fetchLine { pp with table } src =
      (pp.fetchLine src).map id fun after => after.map (fun pp => { pp with table }) id := by
  unfold fetchLine
  dsimp only
  split
  · rfl
  · rfl
  · rfl

theorem readBody_withTable (pp : Preprocessor) (table : MacroTable) (text : Text) (src : σ) :
    readBody { pp with table } text src =
      (pp.readBody text src).map id fun after => after.map (fun pp => { pp with table }) id := by
  fun_induction readBody pp text src with
  | case1 pp text src added hmore line pp' src' h ih =>
    have hfetch := fetchLine_withTable pp table src
    rw [h] at hfetch
    rw [readBody_of_fetchLine hmore hfetch]
    exact congrArg (·.map (added.1 ++ ·) id) ih
  | case2 pp text src added hmore pp' src' h =>
    have hfetch := fetchLine_withTable pp table src
    rw [h] at hfetch
    rw [readBody_of_end hmore hfetch]
    rfl
  | case3 pp text src added hmore =>
    rw [readBody_of_closed (by simpa using hmore)]
    rfl

end Preprocessor

end AsmPrep
