/-
The preprocessor.

It pulls raw lines from a source, one at a time.  A line is a directive, which may pull
further lines for a macro text that goes on, or it is expanded and split into
statements, which wait in a queue until they are asked for.  Diagnostics carry the
locations that the source had when the last raw line was asked for.

However the lines are used, a source is only ever asked for its next line.  All that is
said here about ending rests on that.
-/
import AsmPrep.Directive
import AsmPrep.Listing
import AsmPrep.Names
import AsmPrep.Statement.Assignment
import AsmPrep.Statement.Split

namespace AsmPrep

structure Preprocessor where
  /-- Every name that was given to the preprocessor or that it met in a definition. -/
  names : Names.Pool := {}
  table : MacroTable := .empty
  /-- Statements made and not yet asked for. -/
  queue : List Text := []
  /-- Whether a `defgroup` block is open. -/
  inGroup : Bool := false
  /-- Where the raw line last asked for came from. -/
  locations : Locations := {}
  log : Log := {}

namespace Preprocessor

/-! ### Definitions from outside -/

/-- Makes a macro without parameters. -/
def define (pp : Preprocessor) (name value : String) : Except Fault Unit × Preprocessor :=
  let pp := { pp with names := pp.names.insert name }
  match pp.table.define? name with
  | none => (.error (.macroRedefined name), pp)
  | some table =>
    (.ok (), { pp with table := table.updateTarget (·.setBody (Text.ofString value)) })

def undefine (pp : Preprocessor) (name : String) : Preprocessor :=
  { pp with table := pp.table.undefine name }

def lookup (pp : Preprocessor) (name : String) : Option Macro := pp.table.lookup name

def isDefined (pp : Preprocessor) (name : String) : Bool := (pp.lookup name).isSome

/-- Forgets macros, waiting statements and locations, before the next input. -/
def reset (pp : Preprocessor) : Preprocessor :=
  { pp with table := pp.table.clear, queue := [], inGroup := false, locations := {} }

/-- Reports a fault at given locations. -/
def reportAt (pp : Preprocessor) (fault : Fault) (locations : Locations) : Preprocessor :=
  { pp with log := pp.log.report fault locations }

def report (pp : Preprocessor) (fault : Fault) : Preprocessor := pp.reportAt fault pp.locations

/-- Hands the diagnostics over and goes on with none. -/
def takeDiagnostics (pp : Preprocessor) : List Diagnostic × Preprocessor :=
  (pp.log.take.1, { pp with log := pp.log.take.2 })

/-! ### Lines -/

section Lines

variable {σ : Type} [LineSource σ]

open LineSource

/-- Asks the source for its next line.  A fault of the source is reported. -/
def fetchLine (pp : Preprocessor) (src : σ) : Option Text × Preprocessor × σ :=
  let asked := nextLine src
  let pp := { pp with locations := LineSource.locations asked.2 }
  match asked.1 with
  | .ok (some line) => (some line, pp, record (Listing.rawEntry pp.locations.asm line) asked.2)
  | .ok none => (none, pp, asked.2)
  | .error fault => (none, pp.report fault, asked.2)

theorem fetchLine_served (pp : Preprocessor) (src : σ) :
    Served src 1 (pp.fetchLine src).2.2 := by
  unfold fetchLine
  dsimp only
  split
  · exact .entry _ (.request .start)
  · exact .request .start
  · exact .request .start

theorem fetchLine_lt {pp pp' : Preprocessor} {src src' : σ} {line : Text}
    (h : pp.fetchLine src = (some line, pp', src')) : remaining src' < remaining src := by
  unfold fetchLine at h
  dsimp only at h
  split at h
  · rename_i fetched hl
    obtain ⟨-, -, rfl⟩ : _ ∧ _ ∧ _ := by simpa only [Prod.mk.injEq] using h
    exact Nat.lt_of_le_of_lt (remaining_record _ _) (remaining_lt src fetched hl)
  · simp at h
  · simp at h

/-- Reads a macro text from `text` on, and the lines after it as long as it goes on. -/
def readBody (pp : Preprocessor) (text : Text) (src : σ) : Text × Preprocessor × σ :=
  let added := Directive.bodyLine text
  if added.2 then
    match _ : pp.fetchLine src with
    | (some line, pp, src) => (pp.readBody line src).map (added.1 ++ ·) id
    | (none, pp, src) => (added.1, pp, src)
  else (added.1, pp, src)
termination_by remaining src
decreasing_by exact fetchLine_lt (by assumption)

/-- Reads the text of a macro, which starts and ends with neither blanks nor line ends. -/
def readMacroText (pp : Preprocessor) (text : Text) (src : σ) : Text × Preprocessor × σ :=
  (pp.readBody (Text.skipBlanks text) src).map Text.chomp id

/-- `#define`: a name, its parameters and its text.  A name that is taken is reported and the
line left at that; a malformed parameter list leaves an empty macro. -/
def defineFrom (pp : Preprocessor) (text : Text) (src : σ) : Preprocessor × σ :=
  match Directive.takeName? text with
  | none => (pp.report .malformed, src)
  | some (name, rest) =>
    let pp := { pp with names := pp.names.insert name }
    match pp.table.define? name with
    | none => (pp.report (.macroRedefined name), src)
    | some table =>
      let params := Directive.params rest
      let pp := { pp with table, names := pp.names.insertAll params.names }
      match params.rest? with
      | none => (pp.report .malformed, src)
      | some rest =>
        let (body, pp, src) := pp.readMacroText rest src
        let table := pp.table.updateTarget fun m => (m.addParams params.names).appendLine body
        ({ pp with table }, src)

/-- `#defcont`: one more line for the macro most recently defined. -/
def continueFrom (pp : Preprocessor) (text : Text) (src : σ) : Preprocessor × σ :=
  match pp.table.targetMacro? with
  | none => (pp.report .continuationWithoutDefine, src)
  | some _ =>
    let (body, pp, src) := pp.readMacroText text src
    ({ pp with table := pp.table.updateTarget (·.appendLine body) }, src)

/-- `#undef`: a name, which need not be there. -/
def undefineFrom (pp : Preprocessor) (text : Text) : Preprocessor :=
  match Directive.undefined? text with
  | none => pp.report .malformed
  | some name => pp.undefine name

/-- Expands a line that is no directive and queues its statements. -/
def expandLine (pp : Preprocessor) (line : Text) : Preprocessor :=
  let (st, pieces) := Statement.split line pp.table
  let (statements, inGroup) := Statement.normalizeAll pp.inGroup (pieces.flatMap Text.lines)
  { pp with
    table := st.table
    log := pp.log.reportAll st.faults pp.locations
    queue := pp.queue ++ statements
    inGroup }

/-- Deals with one raw line. -/
def processLine (pp : Preprocessor) (line : Text) (src : σ) : Preprocessor × σ :=
  match Directive.ofLine? line with
  | none => (pp.expandLine line, src)
  | some (.define text) => pp.defineFrom text src
  | some (.undefine text) => (pp.undefineFrom text, src)
  | some (.continuation text) => pp.continueFrom text src
  | some .unknown => (pp, src)

/-! ### The source is only asked for lines -/

theorem readBody_served (pp : Preprocessor) (text : Text) (src : σ) :
    ∃ n, Served src n (pp.readBody text src).2.2 := by
  fun_induction readBody pp text src with
  | case1 pp text src added _ line pp' src' h ih =>
    obtain ⟨n, hn⟩ := ih
    have hs : Served src 1 src' := by simpa only [h] using fetchLine_served pp src
    exact ⟨1 + n, hs.trans hn⟩
  | case2 pp text src added _ pp' src' h =>
    exact ⟨1, by simpa only [h] using fetchLine_served pp src⟩
  | case3 => exact ⟨0, .start⟩

theorem processLine_served (pp : Preprocessor) (line : Text) (src : σ) :
    ∃ n, Served src n (pp.processLine line src).2 := by
  unfold processLine
  split
  · exact ⟨0, .start⟩
  · unfold defineFrom
    split
    · exact ⟨0, .start⟩
    · dsimp only
      split
      · exact ⟨0, .start⟩
      · split
        · exact ⟨0, .start⟩
        · exact readBody_served _ _ _
  · exact ⟨0, .start⟩
  · unfold continueFrom
    split
    · exact ⟨0, .start⟩
    · exact readBody_served _ _ _
  · exact ⟨0, .start⟩

/-! ### Statements -/

/-- Reads lines until a statement is there or the source gives none. -/
def fill (pp : Preprocessor) (src : σ) : Preprocessor × σ :=
  if pp.queue.isEmpty then
    match _ : pp.fetchLine src with
    | (none, pp, src) => (pp, src)
    | (some line, pp, src) =>
      let processed := pp.processLine line src
      processed.1.fill processed.2
  else (pp, src)
termination_by remaining src
decreasing_by
  rename_i h
  obtain ⟨n, hn⟩ := processLine_served pp line src
  exact Nat.lt_of_le_of_lt hn.remaining_le (fetchLine_lt h)

/-- The next statement, or nothing when the source gives no more lines. -/
def nextStatement (pp : Preprocessor) (src : σ) : Option Text × Preprocessor × σ :=
  let (pp, src) := pp.fill src
  match pp.queue with
  | [] => (none, pp, src)
  | statement :: others =>
    (some statement, { pp with queue := others },
      record (Listing.statementEntry (LineSource.locations src).asm statement) src)

theorem fetchLine_queue (pp : Preprocessor) (src : σ) :
    (pp.fetchLine src).2.1.queue = pp.queue := by
  unfold fetchLine
  dsimp only
  split <;> rfl

theorem fill_of_queue {pp : Preprocessor} {src : σ} (h : pp.queue ≠ []) :
    pp.fill src = (pp, src) := by
  rw [fill]
  simp [h]

theorem fill_served (pp : Preprocessor) (src : σ) :
    ∃ n, Served src n (pp.fill src).2 := by
  fun_induction fill pp src with
  | case1 pp src _ pp' src' h =>
    exact ⟨1, by simpa only [h] using fetchLine_served pp src⟩
  | case2 pp src _ line pp' src' h processed ih =>
    obtain ⟨m, hm⟩ := processLine_served pp' line src'
    obtain ⟨n, hn⟩ := ih
    have hs : Served src 1 src' := by simpa only [h] using fetchLine_served pp src
    exact ⟨1 + m + n, (hs.trans hm).trans hn⟩
  | case3 => exact ⟨0, .start⟩

/-- With no statement waiting the source is asked at least once. -/
theorem fill_served_of_empty {pp : Preprocessor} (src : σ) (h : pp.queue = []) :
    ∃ n, Served src (n + 1) (pp.fill src).2 := by
  rw [fill]
  simp only [h, List.isEmpty_nil, if_true]
  split
  · rename_i pp' src' hf
    exact ⟨0, by simpa only [hf] using fetchLine_served pp src⟩
  · rename_i line pp' src' hf
    obtain ⟨m, hm⟩ := processLine_served pp' line src'
    obtain ⟨n, hn⟩ := fill_served (pp'.processLine line src').1 (pp'.processLine line src').2
    have hs : Served src 1 src' := by simpa only [hf] using fetchLine_served pp src
    exact ⟨m + n, by simpa only [Nat.add_comm 1] using hs.trans (hm.trans hn)⟩

/-- A statement that was not waiting cost the source a line. -/
theorem fill_lt {pp : Preprocessor} {src : σ} (h : pp.queue = [])
    (hq : (pp.fill src).1.queue ≠ []) : remaining (pp.fill src).2 < remaining src := by
  rw [fill] at hq ⊢
  simp only [h, List.isEmpty_nil, if_true] at hq ⊢
  split
  · rename_i pp' src' hf
    rw [hf] at hq
    have := fetchLine_queue pp src
    rw [hf] at this
    exact absurd (this.trans h) hq
  · rename_i line pp' src' hf
    obtain ⟨m, hm⟩ := processLine_served pp' line src'
    obtain ⟨n, hn⟩ := fill_served (pp'.processLine line src').1 (pp'.processLine line src').2
    exact Nat.lt_of_le_of_lt (hm.trans hn).remaining_le (fetchLine_lt hf)

/-- What the preprocessor and its source still hold, for a run that asks for statements. -/
abbrev Less (a b : Preprocessor × σ) : Prop :=
  Prod.Lex (· < ·) (· < ·) (remaining a.2, a.1.queue.length) (remaining b.2, b.1.queue.length)

/-- Each statement leaves fewer lines in the source, or as many and fewer statements waiting. -/
theorem nextStatement_less {pp pp' : Preprocessor} {src src' : σ} {statement : Text}
    (h : pp.nextStatement src = (some statement, pp', src')) : Less (pp', src') (pp, src) := by
  unfold nextStatement at h
  dsimp only at h
  split at h
  · simp at h
  · rename_i first others hq
    obtain ⟨-, rfl, rfl⟩ : _ ∧ _ ∧ _ := by simpa only [Prod.mk.injEq] using h
    have hr := remaining_record
      (Listing.statementEntry (LineSource.locations (pp.fill src).2).asm first) (pp.fill src).2
    by_cases hw : pp.queue = []
    · exact Prod.Lex.left _ _ (Nat.lt_of_le_of_lt hr (fill_lt hw (by simp [hq])))
    · rw [fill_of_queue hw] at hq hr ⊢
      dsimp only at hq hr
      simp only [Less, hq]
      rcases Nat.lt_or_eq_of_le hr with hlt | heq
      · exact Prod.Lex.left _ _ hlt
      · rw [heq]
        exact Prod.Lex.right _ (Nat.lt_succ_self _)

theorem nextStatement_served (pp : Preprocessor) (src : σ) :
    ∃ n, Served src n (pp.nextStatement src).2.2 := by
  obtain ⟨n, hn⟩ := fill_served pp src
  refine ⟨n, ?_⟩
  unfold nextStatement
  dsimp only
  split
  · exact hn
  · exact .entry _ hn

/-- Nothing is answered only after the source was asked. -/
theorem nextStatement_none {pp pp' : Preprocessor} {src src' : σ}
    (h : pp.nextStatement src = (none, pp', src')) : ∃ n, Served src (n + 1) src' := by
  have hq : pp.queue = [] := by
    refine Decidable.byContradiction fun hq => ?_
    simp only [nextStatement, fill_of_queue hq] at h
    split at h
    · exact hq (by assumption)
    · simp at h
  obtain ⟨n, hn⟩ := fill_served_of_empty src hq
  refine ⟨n, ?_⟩
  unfold nextStatement at h
  dsimp only at h
  split at h
  · obtain ⟨-, -, rfl⟩ : _ ∧ _ ∧ _ := by simpa only [Prod.mk.injEq] using h
    exact hn
  · simp at h

/-- All statements up to the first time that the source gives no more lines. -/
def statements (pp : Preprocessor) (src : σ) : List Text × Preprocessor × σ :=
  match _ : pp.nextStatement src with
  | (none, pp, src) => ([], pp, src)
  | (some statement, pp, src) => (pp.statements src).map (statement :: ·) id
termination_by (remaining src, pp.queue.length)
decreasing_by exact nextStatement_less (by assumption)

end Lines

end Preprocessor

end AsmPrep
