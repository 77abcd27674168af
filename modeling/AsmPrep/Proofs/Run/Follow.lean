/-
Following an input, one statement at a time.

A pass goes on after each statement as it would have begun there, an included file is read
to its end before what is below it, and a file that cannot be included is passed over.
These equations say all that `follow` does, and the induction over a run goes along them.
-/
import AsmPrep.Run.Pass
import AsmPrep.Proofs.Preprocessor.Lines
import Mathlib.Logic.Function.Iterate

namespace AsmPrep.Run

namespace Pass

/-- Puts a file on top of the stack, from where the search finds it. -/
def load (p : Pass) (file : String) : Bool × Pass :=
  let path := p.stack.tree.search file p.stack.includePath
  p.enter file path (p.stack.tree.reader? path)

/-! ### Equations -/

variable {p q entered : Pass} {file : String}

/-- Which inputs are said to be below makes no difference. -/
theorem finish_known (below : List Input) (h : p.stack.inputs.tail = below) :
    (p.finish .known below h).run.1 = p.follow := by
  subst h
  rfl

theorem follow_exhausted (h : p.step = (.exhausted, q)) : p.follow = q := by
  unfold follow
  rw [finish]
  split
  · rename_i hs
    exact congrArg Prod.snd (hs.symm.trans h)
  · rename_i hs
    exact absurd (hs.symm.trans h) (by simp)
  · rename_i hs
    exact absurd (hs.symm.trans h) (by simp)

theorem follow_done (h : p.step = (.done, q)) : p.follow = q.follow := by
  unfold follow
  rw [finish]
  split
  · rename_i hs
    exact absurd (hs.symm.trans h) (by simp)
  · rename_i hs
    obtain ⟨-, rfl⟩ := Prod.mk.inj (hs.symm.trans h)
    exact finish_known _ _
  · rename_i hs
    exact absurd (hs.symm.trans h) (by simp)

/-- A pass that asks for a file goes on by what loading it comes to. -/
theorem follow_asked (h : p.step = (.asked file, q)) :
    p.follow =
      if (q.load file).1 then (q.load file).2.follow.leave.follow else (q.load file).2.follow := by
  conv => lhs; unfold follow
  rw [finish]
  split
  · rename_i hs
    exact absurd (hs.symm.trans h) (by simp)
  · rename_i hs
    exact absurd (hs.symm.trans h) (by simp)
  · rename_i asked q' hs
    obtain ⟨hasked, rfl⟩ := Prod.mk.inj (hs.symm.trans h)
    obtain rfl := Step.asked.inj hasked
    dsimp only [Id.run_bind]
    split
    · rename_i entered he
      have hload : q'.load asked = (false, entered) := he
      rw [hload]
      exact finish_known _ _
    · rename_i entered he
      have hload : q'.load asked = (true, entered) := he
      rw [hload]
      exact finish_known _ _

theorem follow_refused (h : p.step = (.asked file, q)) (hload : q.load file = (false, entered)) :
    p.follow = entered.follow := by
  rw [follow_asked h, hload]
  rfl

theorem follow_loaded (h : p.step = (.asked file, q)) (hload : q.load file = (true, entered)) :
    p.follow = entered.follow.leave.follow := by
  rw [follow_asked h, hload]
  rfl

/-- What holds of a run, with the pass it begins and the pass it ends with, is proved for the end
of an input, for a statement that is dealt with, for a file that is not included, and for one
that is. -/
theorem follow_induction {motive : Pass → Pass → Prop}
    (exhausted : ∀ p q, p.step = (.exhausted, q) → motive p q)
    (done : ∀ p q, p.step = (.done, q) → motive q q.follow → motive p q.follow)
    (refused : ∀ p q file entered, p.step = (.asked file, q) → q.load file = (false, entered) →
      motive entered entered.follow → motive p entered.follow)
    (loaded : ∀ p q file entered, p.step = (.asked file, q) → q.load file = (true, entered) →
      motive entered entered.follow → motive entered.follow.leave entered.follow.leave.follow →
      motive p entered.follow.leave.follow) (p : Pass) : motive p p.follow := by
  -- What is left to do gets less, as it does in the recursion of the run itself.
  match hs : p.step with
  | (.exhausted, q) =>
    rw [follow_exhausted hs]
    exact exhausted p q hs
  | (.done, q) =>
    rw [follow_done hs]
    exact done p q hs (follow_induction exhausted done refused loaded q)
  | (.asked file, q) =>
    match hload : q.load file with
    | (false, entered) =>
      rw [follow_refused hs hload]
      exact refused p q file entered hs hload
        (follow_induction exhausted done refused loaded entered)
    | (true, entered) =>
      rw [follow_loaded hs hload]
      exact loaded p q file entered hs hload
        (follow_induction exhausted done refused loaded entered)
        (follow_induction exhausted done refused loaded entered.follow.leave)
termination_by (free p.files, LineSource.remaining p.stack, p.pp.queue.length)
decreasing_by
  all_goals
    have drops : Drops q p := .step hs Step.noConfusion
  · exact drops
  · exact drops.refused hload
  · have files : q.files = p.files := by simpa only [hs] using files_of_alike (step_alike p)
    exact Drops.of_enter files hload (q.stack.tree.length_of_reader? _)
  · exact drops.left hload (entered.finish .known _ rfl).run

/-- Following the one pass meets the other. -/
inductive Meets : Pass → Pass → Prop
  | self (p : Pass) : Meets p p
  | done {p q r : Pass} (h : p.step = (.done, q)) (hr : Meets q r) : Meets p r
  | loading {p q r : Pass} {file : String} (h : p.step = (.asked file, q))
      (hr : Meets (q.load file).2 r) : Meets p r
  | leaving {p q entered r : Pass} {file : String} (h : p.step = (.asked file, q))
      (hload : q.load file = (true, entered)) (hr : Meets entered.follow.leave r) : Meets p r

/-- The pass after one step. -/
def advance (p : Pass) : Pass := p.step.2

/-- As long as it includes nothing, a run goes step by step. -/
theorem follow_of_steps {n : Nat} (hdone : ∀ i < n, (advance^[i] p).step.1 = .done)
    (hend : (advance^[n] p).step.1 = .exhausted) : p.follow = advance^[n + 1] p := by
  induction n generalizing p with
  | zero => exact follow_exhausted (Prod.ext hend rfl)
  | succ n ih =>
    have hfirst : p.step = (.done, p.advance) := Prod.ext (hdone 0 (Nat.succ_pos n)) rfl
    rw [follow_done hfirst, Function.iterate_succ_apply]
    exact ih (fun i hi => hdone (i + 1) (Nat.succ_lt_succ hi)) hend

/-- And that is all it meets. -/
theorem Meets.of_steps {n : Nat} {r : Pass} (h : Meets p r)
    (hdone : ∀ i < n, (advance^[i] p).step.1 = .done)
    (hend : (advance^[n] p).step.1 = .exhausted) : ∃ i ≤ n, r = advance^[i] p := by
  have hcontinues : ∀ {p : Pass} {n : Nat}, (advance^[n] p).step.1 = .exhausted →
      p.step.1 ≠ .exhausted → 0 < n := by
    rintro p (_ | n) hend hne
    · exact absurd hend hne
    · exact Nat.succ_pos n
  induction h generalizing n with
  | self p => exact ⟨0, Nat.zero_le n, rfl⟩
  | @done p q r hs _ ih =>
    have hpos : 0 < n := hcontinues hend (by rw [hs]; exact Step.noConfusion)
    obtain ⟨n, rfl⟩ := Nat.exists_eq_succ_of_ne_zero (Nat.ne_of_gt hpos)
    have hq : p.advance = q := congrArg Prod.snd hs
    obtain ⟨i, hi, hr⟩ := ih (n := n)
      (fun i hi => by
        simpa only [Function.iterate_succ_apply, hq] using hdone (i + 1) (Nat.succ_lt_succ hi))
      (by simpa only [Function.iterate_succ_apply, hq] using hend)
    exact ⟨i + 1, Nat.succ_le_succ hi, by rw [Function.iterate_succ_apply, hq, hr]⟩
  | @loading p q r file hs _ _ =>
    have hpos : 0 < n := hcontinues hend (by rw [hs]; exact Step.noConfusion)
    exact absurd (hdone 0 hpos) (by rw [Function.iterate_zero_apply, hs]; exact Step.noConfusion)
  | @leaving p q entered r file hs _ _ _ =>
    have hpos : 0 < n := hcontinues hend (by rw [hs]; exact Step.noConfusion)
    exact absurd (hdone 0 hpos) (by rw [Function.iterate_zero_apply, hs]; exact Step.noConfusion)

/-- What a run comes to depends on its first step. -/
theorem follow_congr {p' : Pass} (h : p.step = p'.step) : p.follow = p'.follow := by
  match hs : p'.step with
  | (.exhausted, q) => rw [follow_exhausted (h.trans hs), follow_exhausted hs]
  | (.done, q) => rw [follow_done (h.trans hs), follow_done hs]
  | (.asked file, q) =>
    match hload : q.load file with
    | (false, entered) => rw [follow_refused (h.trans hs) hload, follow_refused hs hload]
    | (true, entered) => rw [follow_loaded (h.trans hs) hload, follow_loaded hs hload]

/-! ### Lines and statements -/

/-- A pass for which no statement waits reads a line, and goes on as if it had read it before. -/
theorem step_of_fetchLine {line : Text} {pp : Preprocessor} {desk : Desk}
    (hq : p.pp.queue = []) (hf : p.pp.fetchLine p.desk = (some line, pp, desk)) :
    p.step =
      step { p with pp := (pp.processLine line desk).1, desk := (pp.processLine line desk).2 } := by
  unfold step
  rw [Preprocessor.nextStatement_congr (Preprocessor.fill_of_fetchLine hq hf)]

/-- A statement that waits is entered in the listing, and then dealt with. -/
theorem step_of_queue {statement : Text} {others : List Text}
    (hq : p.pp.queue = statement :: others) :
    p.step = obey { p with
      pp := { p.pp with queue := others }
      desk := LineSource.record
        (Listing.statementEntry (LineSource.locations p.desk).asm statement) p.desk } statement := by
  unfold step
  rw [Preprocessor.nextStatement_of_queue hq]

/-- Whether a statement is written and not obeyed. -/
def isPlain (statement : Text) : Bool := (Command.ofStatement? statement).isNone

/-- Whether a statement includes a file. -/
def isInclude (statement : Text) : Bool :=
  match Command.ofStatement? statement with
  | some (.include _) => true
  | _ => false

theorem obey_written (p : Pass) (statement : Text) :
    (p.obey statement).2.written =
      if isPlain statement then statement :: p.written else p.written := by
  unfold obey isPlain
  split
  · rename_i h
    rw [h]
    rfl
  · rename_i h
    rw [h]
    rfl
  · rename_i h
    rw [h]
    rfl
  · rename_i h
    rw [h]
    rfl

theorem obey_asked {statement : Text} :
    (p.obey statement).1 = .asked file ↔ Command.ofStatement? statement = some (.include file) := by
  unfold obey
  split
  · rename_i h
    simp [h]
  · rename_i h
    simp [h]
  · rename_i h
    simp [h]
  · rename_i h
    simp [h]

theorem obey_ne_exhausted (p : Pass) (statement : Text) : (p.obey statement).1 ≠ .exhausted := by
  unfold obey
  split <;> simp

/-! ### What a run leaves alone -/

/-- The inputs below the top stay as they are. -/
theorem follow_tail (p : Pass) : p.follow.stack.inputs.tail = p.stack.inputs.tail :=
  (p.finish .known _ rfl).run.2.1

/-- No statement is left waiting. -/
theorem follow_queue (p : Pass) : p.follow.pp.queue = [] := (p.finish .known _ rfl).run.2.2

theorem leave_stack_inputs (p : Pass) : p.leave.stack.inputs = p.stack.inputs.tail :=
  pop_inputs p.stack

/-- Putting a file on the stack writes nothing and leaves the statements that wait. -/
theorem load_frame (p : Pass) (file : String) :
    (p.load file).2.written = p.written ∧ (p.load file).2.pp.queue = p.pp.queue := by
  unfold load enter
  dsimp only
  split
  · exact ⟨rfl, rfl⟩
  · exact ⟨rfl, rfl⟩

/-- A file that was put on the stack is unread and named by the path it was found under. -/
theorem load_ok (h : p.load file = (true, entered)) :
    ∃ reader, p.stack.tree.reader? (p.stack.tree.search file p.stack.includePath) = some reader ∧
      entered.stack.inputs =
        { reader := some reader
          location := { file := some (p.stack.tree.search file p.stack.includePath) } } ::
          p.stack.inputs := by
  have hentered := (enter_ok (congrArg Prod.fst h)).1
  rwa [show p.enter file _ _ = _ from h] at hentered

/-- A file that cannot be included leaves the inputs as they are. -/
theorem load_error (h : p.load file = (false, entered)) : entered.stack.inputs = p.stack.inputs :=
  enter_error_inputs h

theorem step_written (p : Pass) : p.written <:+ p.step.2.written := by
  unfold step
  split
  · exact List.suffix_refl _
  · rw [obey_written]
    split
    · exact List.suffix_cons _ _
    · exact List.suffix_refl _

/-- What was written stays written. -/
theorem follow_written (p : Pass) : p.written <:+ p.follow.written := by
  induction p using follow_induction with
  | exhausted p q h =>
    have := step_written p
    rwa [h] at this
  | done p q h ih =>
    have := step_written p
    rw [h] at this
    exact this.trans ih
  | refused p q file entered h hload ih =>
    have hstep := step_written p
    have hsame := (load_frame q file).1
    rw [h] at hstep
    rw [hload] at hsame
    exact hstep.trans (hsame ▸ ih)
  | loaded p q file entered h hload ihi ihr =>
    have hstep := step_written p
    have hsame := (load_frame q file).1
    rw [h] at hstep
    rw [hload] at hsame
    exact (hstep.trans (hsame ▸ ihi)).trans ihr

end Pass

end AsmPrep.Run
