/-
Every statement is one complete line, but for lines that a call leaves open.

The statements of a run are those of its raw lines, one line after the other: a line is only
read when no statement is waiting, so what is asked for in between makes no difference.  The
lines of an input are whole, for a reader ends every line with one newline.  What a raw line
makes of them is a matter of that line and of the macros at that time.
-/
import AsmPrep.Preprocessor
import AsmPrep.Proofs.Source.Reader
import AsmPrep.Proofs.Statement.Assignment
import AsmPrep.Proofs.Statement.LineEnd

namespace AsmPrep

open Byte

/-! ### Lines of an input -/

namespace Reader

theorem line?_whole {tree : Files.Tree} {reader after : Reader} {line : Text}
    (h : reader.line? tree = some (line, after)) : Text.Whole line := by
  unfold line? at h
  split at h
  · rename_i c s _
    obtain ⟨rfl, -⟩ := Prod.mk.inj (Option.some.inj h)
    exact takeLine_whole (c :: s)
  · rename_i c s _
    obtain ⟨rfl, -⟩ := Prod.mk.inj (Option.some.inj h)
    exact takeLine_whole (c :: s)
  · exact absurd h (by simp)

end Reader

/-- An input stack serves whole lines. -/
theorem InputStack.readLine_whole {s : InputStack} {line : Text}
    (h : s.readLine.1 = .ok (some line)) : Text.Whole line := by
  unfold readLine at h
  split at h
  · exact absurd h (by simp)
  · split at h
    · exact absurd h (by simp)
    · unfold Input.read at h
      dsimp only at h
      split at h
      · exact absurd h (by simp)
      · split at h
        · exact absurd h (by simp)
        · rename_i hl
          obtain rfl := Option.some.inj (Except.ok.inj h)
          exact Reader.line?_whole hl

namespace Preprocessor

/-! ### The statements of a run -/

section Lines

variable {σ : Type} [LineSource σ]

open LineSource

/-- The statements that a raw line makes. -/
def lineStatements (pp : Preprocessor) (line : Text) : List Text :=
  match Directive.ofLine? line with
  | none =>
    (Statement.normalizeAll pp.inGroup
      ((Statement.split line pp.table).2.flatMap Text.lines)).1
  | some _ => []

/-- The raw lines that are dealt with, up to the first time that the source gives none, each
with the state it is met in.  The lines that a directive takes in are not among them. -/
def rawLines (pp : Preprocessor) (src : σ) : List (Preprocessor × Text) :=
  match _ : pp.fetchLine src with
  | (none, _, _) => []
  | (some line, pp, src) =>
    let processed := pp.processLine line src
    (pp, line) :: rawLines { processed.1 with queue := [] } processed.2
termination_by remaining src
decreasing_by
  rename_i h
  obtain ⟨n, hn⟩ := processLine_served pp line src
  exact Nat.lt_of_le_of_lt hn.remaining_le (fetchLine_lt h)

/-- The statements of these lines. -/
def rawStatements (pp : Preprocessor) (src : σ) : List Text :=
  (pp.rawLines src).flatMap fun met => met.1.lineStatements met.2

variable {pp pp' : Preprocessor} {src src' : σ} {line : Text}

theorem rawStatements_none (h : pp.fetchLine src = (none, pp', src')) :
    pp.rawStatements src = [] := by
  unfold rawStatements
  rw [rawLines]
  split
  · rfl
  · rename_i h'
    exact absurd (h.symm.trans h') (by simp)

theorem rawStatements_some (h : pp.fetchLine src = (some line, pp', src')) :
    pp.rawStatements src = pp'.lineStatements line ++
      rawStatements { (pp'.processLine line src').1 with queue := [] }
        (pp'.processLine line src').2 := by
  unfold rawStatements
  rw [rawLines]
  split
  · rename_i h'
    exact absurd (h.symm.trans h') (by simp)
  · rename_i h'
    obtain ⟨hline, rfl, rfl⟩ : _ ∧ _ ∧ _ := by simpa only [Prod.mk.injEq] using h.symm.trans h'
    obtain rfl := Option.some.inj hline
    exact List.flatMap_cons

theorem readBody_queue (pp : Preprocessor) (text : Text) (src : σ) :
    (pp.readBody text src).2.1.queue = pp.queue := by
  fun_induction readBody pp text src with
  | case1 pp text src added _ line pp' src' h ih =>
    refine ih.trans ?_
    simpa only [h] using fetchLine_queue pp src
  | case2 pp text src added _ pp' src' h => simpa only [h] using fetchLine_queue pp src
  | case3 => rfl

/-- Dealing with a raw line queues its statements. -/
theorem processLine_queue (pp : Preprocessor) (line : Text) (src : σ) :
    (pp.processLine line src).1.queue = pp.queue ++ pp.lineStatements line := by
  unfold processLine lineStatements
  cases hd : Directive.ofLine? line with
  | none => rfl
  | some directive =>
    dsimp only
    rw [List.append_nil]
    cases directive with
    | define text =>
      show (pp.defineFrom text src).1.queue = pp.queue
      unfold defineFrom
      split
      · rfl
      · dsimp only
        split
        · rfl
        · split
          · rfl
          · exact readBody_queue _ _ _
    | undefine text =>
      show (pp.undefineFrom text).queue = pp.queue
      unfold undefineFrom
      split
      · rfl
      · rfl
    | continuation text =>
      show (pp.continueFrom text src).1.queue = pp.queue
      unfold continueFrom
      split
      · rfl
      · exact readBody_queue _ _ _
    | unknown => rfl

/-- The statements still to come: those that wait, and those of the raw lines not yet read. -/
def pending (pp : Preprocessor) (src : σ) : List Text :=
  pp.queue ++ rawStatements { pp with queue := [] } src

theorem pending_of_empty (h : pp.queue = []) : pp.pending src = pp.rawStatements src := by
  cases pp
  cases h
  rfl

theorem pending_processLine (h : pp.queue = []) :
    (pp.processLine line src).1.pending (pp.processLine line src).2 =
      pp.lineStatements line ++ rawStatements { (pp.processLine line src).1 with queue := [] }
        (pp.processLine line src).2 := by
  rw [pending, processLine_queue, h, List.nil_append]

/-- Filling the queue changes nothing about what is to come. -/
theorem fill_pending (pp : Preprocessor) (src : σ) :
    pp.pending src =
      if (pp.fill src).1.queue = [] then []
      else (pp.fill src).1.pending (pp.fill src).2 := by
  fun_induction fill pp src with
  | case1 pp src hq pp' src' h =>
    have hqueue : pp'.queue = pp.queue := by simpa only [h] using fetchLine_queue pp src
    have hempty : pp.queue = [] := List.isEmpty_iff.1 hq
    rw [if_pos (hqueue.trans hempty), pending_of_empty hempty, rawStatements_none h]
  | case2 pp src hq line pp' src' h processed ih =>
    -- The statements of the line go from the raw lines to the queue.
    have hqueue : pp'.queue = pp.queue := by simpa only [h] using fetchLine_queue pp src
    have hempty : pp.queue = [] := List.isEmpty_iff.1 hq
    rw [← ih, pending_of_empty hempty, rawStatements_some h,
      pending_processLine (hqueue.trans hempty)]
  | case3 pp src hq =>
    rw [if_neg (by simpa using hq)]

/-- **The statements of a run are those of its raw lines**, when listing leaves the source alone. -/
theorem statements_eq (hrecord : ∀ text (src : σ), record text src = src) (pp : Preprocessor)
    (src : σ) :
    (pp.statements src).1 = pp.pending src := by
  fun_induction statements pp src with
  | case1 pp src pp' src' h =>
    rw [fill_pending, if_pos]
    unfold nextStatement at h
    dsimp only at h
    split at h
    · assumption
    · exact absurd h (by simp)
  | case2 pp src statement pp' src' h ih =>
    unfold nextStatement at h
    dsimp only at h
    split at h
    · exact absurd h (by simp)
    · rename_i first others hq
      obtain ⟨rfl, rfl, rfl⟩ : _ ∧ _ ∧ _ := by
        simpa only [Prod.mk.injEq, Option.some.injEq, hrecord] using h
      show first :: _ = _
      rw [ih, fill_pending pp, if_neg (by simp [hq])]
      simp only [pending, hq, List.cons_append]

end Lines

/-! ### Whole statements -/

/-- Whether a call in the line, which is no directive, takes its newline away. -/
def LeavesOpen (pp : Preprocessor) (line : Text) : Prop :=
  Directive.ofLine? line = none ∧
    Statement.LeftOpen (Expansion.full pp.table) line { table := pp.table } {} {}

theorem lineStatements_oneLine (pp : Preprocessor) (line : Text) :
    ∀ statement ∈ pp.lineStatements line, Text.OneLine statement := by
  unfold lineStatements
  split
  · refine Statement.oneLine_normalizeAll _ ?_
    rw [List.forall_mem_flatMap]
    intro piece _ statement hstatement
    exact Text.oneLine_of_mem_lines hstatement
  · exact fun _ h => absurd h List.not_mem_nil

theorem lineStatements_whole_iff (pp : Preprocessor) {line : Text} (hline : Text.Whole line) :
    (∀ statement ∈ pp.lineStatements line, Text.Whole statement) ↔ ¬ pp.LeavesOpen line := by
  unfold lineStatements LeavesOpen
  split
  · rename_i hd
    rw [Statement.whole_normalizeAll_iff, List.forall_mem_flatMap]
    simp only [Text.whole_lines_iff, hd, true_and]
    exact Statement.closed_splitFrom_iff (Expansion.expand_held pp.table.weight)
      (fun _ => .inl rfl) fun _ => hline
  · rename_i hd
    simp [hd]

/-- A line that a call leaves open has a string that is not closed. -/
theorem unclosed_of_leavesOpen {pp : Preprocessor} {line : Text} (hline : Text.Whole line)
    (h : pp.LeavesOpen line) : Expansion.Unclosed line :=
  h.2.unclosed (Expansion.expand_held pp.table.weight) fun _ => hline

theorem fetchLine_whole {pp pp' : Preprocessor} {src src' : InputStack} {line : Text}
    (h : pp.fetchLine src = (some line, pp', src')) : Text.Whole line := by
  unfold fetchLine at h
  dsimp only at h
  split at h
  · rename_i fetched hread
    obtain rfl := Option.some.inj (congrArg Prod.fst h)
    exact InputStack.readLine_whole hread
  · exact absurd (congrArg Prod.fst h) (by simp)
  · exact absurd (congrArg Prod.fst h) (by simp)

theorem rawLines_whole (pp : Preprocessor) (src : InputStack) :
    ∀ met ∈ pp.rawLines src, Text.Whole met.2 := by
  fun_induction rawLines pp src with
  | case1 => exact fun _ h => absurd h List.not_mem_nil
  | case2 pp src line pp' src' h processed ih =>
    rw [List.forall_mem_cons]
    exact ⟨fetchLine_whole h, ih⟩

theorem forall_mem_pending {P : Text → Prop} (pp : Preprocessor) (src : InputStack) :
    (∀ statement ∈ pp.pending src, P statement) ↔
      (∀ statement ∈ pp.queue, P statement) ∧
        ∀ met ∈ rawLines { pp with queue := [] } src, ∀ statement ∈ met.1.lineStatements met.2,
          P statement := by
  rw [pending, List.forall_mem_append, rawStatements, List.forall_mem_flatMap]

/-- **A run over an input makes whole statements exactly when none of its lines is left open**,
and even then a statement is one line, which lacks no more than its newline.  Only a line with a
string that is not closed can be left open, whatever macros there are. -/
theorem statements_whole_iff (pp : Preprocessor) (src : InputStack) :
    ((∀ statement ∈ pp.queue, Text.OneLine statement) →
      ∀ statement ∈ (pp.statements src).1, Text.OneLine statement) ∧
    ((∀ statement ∈ (pp.statements src).1, Text.Whole statement) ↔
      (∀ statement ∈ pp.queue, Text.Whole statement) ∧
        ∀ met ∈ rawLines { pp with queue := [] } src, ¬ met.1.LeavesOpen met.2) ∧
    ∀ met ∈ rawLines { pp with queue := [] } src,
      met.1.LeavesOpen met.2 → Expansion.Unclosed met.2 := by
  have hlines := rawLines_whole { pp with queue := [] } src
  rw [statements_eq (fun _ _ => rfl), forall_mem_pending, forall_mem_pending]
  refine ⟨?_, and_congr_right fun _ => ?_, fun met hmet => unclosed_of_leavesOpen (hlines met hmet)⟩
  · intro hqueue
    exact ⟨hqueue, fun met _ => met.1.lineStatements_oneLine met.2⟩
  · exact forall₂_congr fun met hmet => met.1.lineStatements_whole_iff (hlines met hmet)

/-- An input with a macro that passes its argument on, and a call with a string that is left
unclosed. -/
def unclosedCall : InputStack :=
  (({} : InputStack).push.openText "unclosed.asm"
    (Text.ofString "#define SAME(x) x\nSAME \"abc\n")).2

/-- Its one statement is the string without the newline of its line. -/
theorem unclosed_call_loses_newline :
    (nextStatement {} unclosedCall).1 = some (Text.ofString "\"abc") ∧
      ¬ Text.Whole (Text.ofString "\"abc") := by
  refine ⟨by decide +kernel, ?_⟩
  intro h
  exact absurd h.closed (by decide)

end Preprocessor

end AsmPrep
