/-
A preprocessor that was reset, and a new one.

A reset leaves two things behind: the names that were met, and the reports.  Neither can be
seen in what comes after.  The reports are only ever added to.  The names hold those of all
macros and of all their parameters, so that a name they do not hold means no macro, and
whether one looks for it among them first makes no difference.

The rest of a preprocessor is as new.  So whatever is asked after a reset, over whatever
sources, a new preprocessor answers the same and reports the same.
-/
import AsmPrep.Proofs.Names
import AsmPrep.Proofs.Preprocessor.Lockstep
import AsmPrep.Proofs.Preprocessor.Reachable

namespace AsmPrep

namespace Preprocessor

/-! ### The names that were met -/

/-- The names of all macros and of all their parameters were met. -/
def Named (names : Names.Pool) (t : MacroTable) : Prop :=
  ∀ entry ∈ t.innermost,
    names.contains entry.1 = true ∧ ∀ param ∈ entry.2.params, names.contains param = true

namespace Named

variable {names : Names.Pool} {t t' : MacroTable}

theorem more (h : Named names t) {names' : Names.Pool}
    (hmore : ∀ text, names.contains text = true → names'.contains text = true) :
    Named names' t :=
  fun entry he => ⟨hmore _ (h entry he).1, fun param hp => hmore _ ((h entry he).2 param hp)⟩

theorem insert (h : Named names t) (text : String) : Named (names.insert text) t :=
  h.more fun other hother => by rw [Names.Pool.contains_insert, hother, Bool.true_or]

theorem insertAll (h : Named names t) (texts : List String) : Named (names.insertAll texts) t :=
  h.more fun other hother => by rw [Names.Pool.contains_insertAll, hother, Bool.true_or]

theorem define {name : String} (h : Named (names.insert name) t)
    (hd : t.define? name = some t') : Named (names.insert name) t' := by
  unfold MacroTable.define? at hd
  split at hd
  · exact absurd hd (by simp)
  · obtain rfl := Option.some.inj hd
    intro entry he
    rcases List.mem_cons.1 he with rfl | he
    · exact ⟨by simp [Names.Pool.contains_insert], fun _ hp => absurd hp List.not_mem_nil⟩
    · exact h entry he

theorem undefine (h : Named names t) (name : String) : Named names (t.undefine name) := by
  unfold MacroTable.undefine
  split
  · intro entry he
    exact h entry (List.mem_filter.1 he).1
  · exact h

theorem updateTarget (h : Named names t) {f : Macro → Macro}
    (hf : ∀ m, ∀ param ∈ (f m).params, param ∈ m.params ∨ names.contains param = true) :
    Named names (t.updateTarget f) := by
  unfold MacroTable.updateTarget
  split
  · exact h
  · split
    · intro entry he
      rcases Scope.mem_update he with he | ⟨old, hold, rfl⟩
      · exact h entry he
      · refine ⟨(h old hold).1, fun param hp => ?_⟩
        rcases hf old.2 param hp with hp | hp
        · exact (h old hold).2 param hp
        · exact hp
    · split
      · exact h
      · exact h

end Named

section Lines

variable {σ : Type} [LineSource σ] {pp : Preprocessor}

theorem fetchLine_names (pp : Preprocessor) (src : σ) :
    (pp.fetchLine src).2.1.names = pp.names := by
  unfold fetchLine
  dsimp only
  split
  · rfl
  · rfl
  · rfl

theorem readBody_names (pp : Preprocessor) (text : Text) (src : σ) :
    (pp.readBody text src).2.1.names = pp.names := by
  fun_induction readBody pp text src with
  | case1 pp text src added _ line pp' src' h ih =>
    refine ih.trans ?_
    simpa only [h] using fetchLine_names pp src
  | case2 pp text src added _ pp' src' h => simpa only [h] using fetchLine_names pp src
  | case3 => rfl

theorem defineFrom_named (h : Named pp.names pp.table) (text : Text) (src : σ) :
    Named (pp.defineFrom text src).1.names (pp.defineFrom text src).1.table := by
  unfold defineFrom
  split
  · exact h
  · rename_i name rest _
    dsimp only
    split
    · exact h.insert name
    · rename_i table hd
      have hdefined := ((h.insert name).define hd).insertAll (Directive.params rest).names
      split
      · exact hdefined
      · show Named (readBody _ _ src).2.1.names ((readBody _ _ src).2.1.table.updateTarget _)
        rw [readBody_names, readBody_table]
        refine hdefined.updateTarget fun m param hp => ?_
        rcases List.mem_append.1 hp with hp | hp
        · exact .inl hp
        · refine .inr ?_
          show Names.Pool.contains (Names.Pool.insertAll _ _) param = true
          rw [Names.Pool.contains_insertAll, List.contains_iff_mem.2 hp, Bool.or_true]

theorem continueFrom_named (h : Named pp.names pp.table) (text : Text) (src : σ) :
    Named (pp.continueFrom text src).1.names (pp.continueFrom text src).1.table := by
  unfold continueFrom
  split
  · exact h
  · show Named (readBody _ _ src).2.1.names ((readBody _ _ src).2.1.table.updateTarget _)
    rw [readBody_names, readBody_table]
    exact h.updateTarget fun m param hp => .inl hp

theorem processLine_named (h : Named pp.names pp.table) (line : Text) (src : σ) :
    Named (pp.processLine line src).1.names (pp.processLine line src).1.table := by
  cases hd : Directive.ofLine? line with
  | none =>
    rw [processLine_table pp src hd]
    unfold processLine
    rw [hd]
    exact h
  | some directive =>
    unfold processLine
    rw [hd]
    cases directive with
    | define text => exact defineFrom_named h text src
    | undefine text =>
      show Named (pp.undefineFrom text).names (pp.undefineFrom text).table
      unfold undefineFrom
      split
      · exact h
      · exact h.undefine _
    | continuation text => exact continueFrom_named h text src
    | unknown => exact h

theorem fill_named (h : Named pp.names pp.table) (src : σ) :
    Named (pp.fill src).1.names (pp.fill src).1.table := by
  fun_induction fill pp src with
  | case1 pp src _ pp' src' hf =>
    have hnames := fetchLine_names pp src
    have htable := fetchLine_table pp src
    rw [hf] at hnames htable
    exact hnames ▸ htable ▸ h
  | case2 pp src _ line pp' src' hf processed ih =>
    have hnames := fetchLine_names pp src
    have htable := fetchLine_table pp src
    rw [hf] at hnames htable
    exact ih (processLine_named (hnames ▸ htable ▸ h) line src')
  | case3 => exact h

theorem nextStatement_named (h : Named pp.names pp.table) (src : σ) :
    Named (pp.nextStatement src).2.1.names (pp.nextStatement src).2.1.table := by
  have hfill := fill_named h src
  unfold nextStatement
  dsimp only
  split
  · exact hfill
  · exact hfill

end Lines

theorem Reachable.named {pp : Preprocessor} (h : Reachable pp) : Named pp.names pp.table := by
  induction h with
  | start names => exact fun _ he => absurd he List.not_mem_nil
  | @define pp name value _ ih =>
    unfold Preprocessor.define
    dsimp only
    split
    · exact ih.insert name
    · rename_i table hd
      exact ((ih.insert name).define hd).updateTarget fun m param hp => .inl hp
  | undefine name _ ih => exact ih.undefine name
  | reset _ _ => exact fun _ he => absurd he List.not_mem_nil
  | next src _ ih => exact nextStatement_named ih src

/-- **What is not among the names means no macro.**  To ask for the handle of a name first, and
to look only for names that have one, finds the same macros. -/
theorem Reachable.lookup_of_handle {pp : Preprocessor} (h : Reachable pp) (name : String) :
    ((pp.names.get? name).bind fun _ => pp.lookup name) = pp.lookup name := by
  cases hhandle : pp.names.get? name with
  | some handle => rfl
  | none =>
    have hmet : pp.names.contains name = false := by
      rw [← Names.Pool.isSome_get?, hhandle, Option.isSome_none]
    cases hl : pp.lookup name with
    | none => rfl
    | some m =>
      rw [lookup, h.settled.lookup_eq] at hl
      obtain ⟨front, back, hsplit, -⟩ := List.lookup_eq_some_iff.1 hl
      have hmem : (name, m) ∈ pp.table.innermost := by
        rw [hsplit]
        exact List.mem_append_cons_self
      exact absurd ((h.named _ hmem).1.symm.trans hmet) Bool.noConfusion

/-! ### Requests -/

/-- What can be asked of a preprocessor that has a source to read from.  Between two requests
the source may be changed, or another one taken. -/
inductive Request (σ : Type) where
  | define (name value : String)
  | undefine (name : String)
  | isDefined (name : String)
  | lookup (name : String)
  | next
  | source (f : σ → σ)
  | reset

/-- What a request is answered with. -/
inductive Answer where
  | done
  | defined (result : Except Fault Unit)
  | known (yes : Bool)
  | found (m? : Option Macro)
  | statement (text? : Option Text)

section Requests

variable {σ : Type} [LineSource σ]

def answer (pp : Preprocessor) (src : σ) : Request σ → Answer × Preprocessor × σ
  | .define name value => (.defined (pp.define name value).1, (pp.define name value).2, src)
  | .undefine name => (.done, pp.undefine name, src)
  | .isDefined name => (.known (pp.isDefined name), pp, src)
  | .lookup name => (.found (pp.lookup name), pp, src)
  | .next => (pp.nextStatement src).map .statement id
  | .source f => (.done, pp, f src)
  | .reset => (.done, pp.reset, src)

/-- The answers to requests in their order. -/
def answers (pp : Preprocessor) (src : σ) : List (Request σ) → List Answer × Preprocessor × σ
  | [] => ([], pp, src)
  | request :: requests =>
    let (first, pp, src) := pp.answer src request
    (pp.answers src requests).map (first :: ·) id

variable {old old' : List Diagnostic} {pp pp' : Preprocessor}

theorem nextStatement_paired (h : Paired Eq old old' pp pp') (src : σ) :
    (pp.nextStatement src).1 = (pp'.nextStatement src).1 ∧
      Paired Eq old old' (pp.nextStatement src).2.1 (pp'.nextStatement src).2.1 ∧
      (pp.nextStatement src).2.2 = (pp'.nextStatement src).2.2 :=
  (Lockstep.nextStatement (L := Lockstep.refl σ) h rfl).resolve_left id

/-- One request. -/
theorem answer_paired (h : Paired Eq old old' pp pp') (src : σ) (request : Request σ) :
    (pp.answer src request).1 = (pp'.answer src request).1 ∧
      Paired Eq old old' (pp.answer src request).2.1 (pp'.answer src request).2.1 ∧
      (pp.answer src request).2.2 = (pp'.answer src request).2.2 := by
  have hlookup : ∀ name, pp.lookup name = pp'.lookup name := fun name => by
    rw [Preprocessor.lookup, Preprocessor.lookup, h.table]
  cases request with
  | define name value =>
    obtain ⟨hresult, hpp⟩ := h.define name value
    exact ⟨congrArg Answer.defined hresult, hpp, rfl⟩
  | undefine name => exact ⟨rfl, h.undefine name, rfl⟩
  | isDefined name =>
    refine ⟨congrArg Answer.known ?_, h, rfl⟩
    rw [isDefined, isDefined, hlookup]
  | lookup name => exact ⟨congrArg Answer.found (hlookup name), h, rfl⟩
  | next =>
    obtain ⟨hstatement, hpp, hsrc⟩ := nextStatement_paired h src
    exact ⟨congrArg Answer.statement hstatement, hpp, hsrc⟩
  | source f => exact ⟨rfl, h, rfl⟩
  | reset => exact ⟨rfl, .reset rfl h.log, rfl⟩

/-- All requests, one after the other. -/
theorem answers_paired (h : Paired Eq old old' pp pp') (src : σ) (requests : List (Request σ)) :
    (pp.answers src requests).1 = (pp'.answers src requests).1 ∧
      Paired Eq old old' (pp.answers src requests).2.1 (pp'.answers src requests).2.1 ∧
      (pp.answers src requests).2.2 = (pp'.answers src requests).2.2 := by
  induction requests generalizing pp pp' src with
  | nil => exact ⟨rfl, h, rfl⟩
  | cons request requests ih =>
    obtain ⟨hfirst, hpp, hsrc⟩ := answer_paired h src request
    obtain ⟨hothers, hafter⟩ := ih hpp (pp.answer src request).2.2
    unfold answers
    dsimp only
    rw [← hsrc]
    exact ⟨congrArg₂ List.cons hfirst hothers, hafter⟩

/-- **A reset is a new start.**  Whatever state the preprocessor is in, after a reset it answers
all requests as a new one does, leaves the source as a new one does, and adds the reports that a
new one makes to those that it had. -/
theorem reset_as_new (pp : Preprocessor) (names : Names.Pool) (src : σ)
    (requests : List (Request σ)) :
    let again := pp.reset.answers src requests
    let fresh := ({ names } : Preprocessor).answers src requests
    again.1 = fresh.1 ∧ again.2.2 = fresh.2.2 ∧
      again.2.1.log.entries = pp.log.entries ++ fresh.2.1.log.entries := by
  intro again fresh
  -- A new preprocessor is one that was reset before anything was asked of it.
  have hnew : ({ names } : Preprocessor) = ({ names } : Preprocessor).reset := rfl
  have hstart : Paired Eq pp.log.entries [] pp.reset { names } := by
    rw [hnew]
    exact .reset rfl (.start _ _)
  obtain ⟨hanswers, hpaired, hsrc⟩ := answers_paired hstart src requests
  obtain ⟨new, hagain, hfresh⟩ := hpaired.log.same
  refine ⟨hanswers, hsrc, ?_⟩
  rw [hagain, hfresh, List.nil_append]

end Requests

end Preprocessor

end AsmPrep
