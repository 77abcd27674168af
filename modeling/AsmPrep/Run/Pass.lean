/-
One top-level input, from its first line to its last.

Statements are written out, and the commands among them are obeyed.  An included file
goes on top of the stack and is read to its end before the input below it goes on.  The
statements that follow an `include` on its own line have been made by then, and so they
come first.

`follow` runs an input and everything included from it.  It calls itself for an included
file, and once more for what comes after it.  It ends because a file that is on the
stack is not included again and there are only so many paths, and because each statement
leaves less in the input that it came from.  That goes for a file that the run itself
makes longer, too, since no file is longer than the limit.
-/
import AsmPrep.Files.System
import AsmPrep.Preprocessor
import AsmPrep.Run.Command
import AsmPrep.Run.Desk
import AsmPrep.Run.Nesting

namespace AsmPrep.Run

structure Pass where
  pp : Preprocessor := {}
  desk : Desk := {}
  /-- The file that statements go to; without one they only count as written. -/
  output : Option Files.Writer := none
  /-- The statements written, newest first. -/
  written : List Text := []

/-- What came of asking for a statement. -/
inductive Step where
  /-- The top input is at its end. -/
  | exhausted
  /-- A statement was written or obeyed. -/
  | done
  /-- A file is to be included. -/
  | asked (file : String)
  deriving DecidableEq, Repr

namespace Pass

def stack (p : Pass) : InputStack := p.desk.stack

def withStack (p : Pass) (stack : InputStack) : Pass := { p with desk := { p.desk with stack } }

def withTree (p : Pass) (tree : Files.Tree) : Pass := p.withStack { p.stack with tree }

/-- Reports a fault where the inputs stand. -/
def report (p : Pass) (fault : Fault) : Pass :=
  { p with pp := p.pp.reportAt fault p.stack.locations }

/-- Obeys a `c_line`.  Without a file name of its own it keeps the one before it. -/
def setCLine (p : Pass) (line : UInt32) (file : Option String) : Pass :=
  p.withStack (p.stack.setLocation .c ⟨file.or p.stack.locations.c.file, line⟩)

/-- Writes a statement. -/
def write (p : Pass) (statement : Text) : Pass :=
  let (output, tree) := Files.writeTo p.output statement p.stack.tree
  { p.withStack { p.stack with tree } with output, written := statement :: p.written }

/-- Writes a statement or obeys it. -/
def obey (p : Pass) (statement : Text) : Step × Pass :=
  match Command.ofStatement? statement with
  | none => (.done, p.write statement)
  | some (.include file) => (.asked file, p)
  | some (.cLine line file) => (.done, p.setCLine line file)
  | some .badCLine => (.done, p.report .malformed)

/-- Asks for a statement and deals with it. -/
def step (p : Pass) : Step × Pass :=
  match p.pp.nextStatement p.desk with
  | (none, pp, desk) => (.exhausted, { p with pp, desk })
  | (some statement, pp, desk) => obey { p with pp, desk } statement

/-- Puts a file on top of the stack.  `path` is where the file was found, and a reader is
missing where it cannot be opened.  A file that cannot be used is reported and left out. -/
def enter (p : Pass) (file path : String) (reader? : Option Reader) : Bool × Pass :=
  match p.stack.push.bind file path reader? with
  | (.ok (), stack) => (true, p.withStack stack)
  | (.error fault, stack) =>
    let p := (p.withStack stack).report fault
    (false, p.withStack p.stack.pop)

/-- Drops the input on top of the stack. -/
def leave (p : Pass) : Pass := p.withStack p.stack.pop

/-! ### What a step does to the stack -/

/-- The names of the inputs. -/
def files (p : Pass) : List String := p.stack.inputs.filterMap (·.location.file)

/-- The inputs have the same names, and those below the top are the same altogether. -/
structure Alike (a b : InputStack) : Prop where
  tail : a.inputs.tail = b.inputs.tail
  files : a.inputs.map (·.location.file) = b.inputs.map (·.location.file)

theorem Alike.trans {a b c : InputStack} (hab : Alike a b) (hbc : Alike b c) : Alike a c :=
  ⟨hab.tail.trans hbc.tail, hab.files.trans hbc.files⟩

theorem Alike.of_inputs {a b : InputStack} (h : a.inputs = b.inputs) : Alike a b :=
  ⟨by rw [h], by rw [h]⟩

theorem readLine_alike (s : InputStack) : Alike s.readLine.2 s := by
  unfold InputStack.readLine
  split
  · exact ⟨rfl, rfl⟩
  · rename_i top others hs
    split
    · exact ⟨rfl, rfl⟩
    · refine ⟨by simp [hs], ?_⟩
      rw [hs]
      simp only [List.map_cons, List.cons.injEq, and_true]
      unfold Input.read
      dsimp only
      split
      · rfl
      · split <;> rfl

theorem served_alike {d e : Desk} {n : Nat} (h : LineSource.Served d n e) :
    Alike e.stack d.stack := by
  induction h with
  | start => exact ⟨rfl, rfl⟩
  | request _ ih => exact (readLine_alike _).trans ih
  | @entry _ t text _ ih =>
    have same : (LineSource.record text t).stack.inputs = t.stack.inputs := rfl
    exact (Alike.of_inputs same).trans ih

theorem obey_stack (p : Pass) (statement : Text) :
    (p.obey statement).2.stack.inputs = p.stack.inputs ∧
      (p.obey statement).2.pp.queue = p.pp.queue := by
  unfold obey
  split <;> exact ⟨rfl, rfl⟩

theorem step_alike (p : Pass) : Alike p.step.2.stack p.stack := by
  have h : Alike (p.pp.nextStatement p.desk).2.2.stack p.stack := by
    obtain ⟨n, hn⟩ := Preprocessor.nextStatement_served p.pp p.desk
    exact served_alike hn
  unfold step
  split
  · rename_i hs
    rw [hs] at h
    exact h
  · rename_i statement pp desk hs
    rw [hs] at h
    exact (Alike.of_inputs (obey_stack { p with pp, desk } statement).1).trans h

theorem step_queue {p : Pass} (h : p.step.1 = .exhausted) : p.step.2.pp.queue = [] := by
  unfold step at h ⊢
  split
  · rename_i pp desk hs
    unfold Preprocessor.nextStatement at hs
    dsimp only at hs
    split at hs
    · rename_i hq
      obtain ⟨-, rfl, -⟩ : _ ∧ _ ∧ _ := by simpa only [Prod.mk.injEq] using hs
      exact hq
    · simp at hs
  · rename_i hs
    rw [hs] at h
    unfold obey at h
    dsimp only at h
    split at h <;> simp at h

/-- What is left to do gets less: in files to open, then in the top input, then in statements
waiting. -/
abbrev Drops (q p : Pass) : Prop :=
  Prod.Lex (· < ·) (Prod.Lex (· < ·) (· < ·))
    (free q.files, LineSource.remaining q.stack, q.pp.queue.length)
    (free p.files, LineSource.remaining p.stack, p.pp.queue.length)

theorem files_of_alike {q p : Pass} (h : Alike q.stack p.stack) : q.files = p.files := by
  have := congrArg (List.filterMap id) h.files
  rwa [List.filterMap_map, List.filterMap_map] at this

theorem remaining_of_inputs {a b : InputStack} (h : a.inputs = b.inputs) :
    LineSource.remaining a = LineSource.remaining b := by
  show a.remaining = b.remaining
  unfold InputStack.remaining
  rw [h]

theorem step_drops {p : Pass} (h : p.step.1 ≠ .exhausted) : Drops p.step.2 p := by
  unfold Drops
  rw [files_of_alike (step_alike p)]
  refine Prod.Lex.right _ ?_
  unfold step at h ⊢
  split
  · rename_i hs
    rw [hs] at h
    exact absurd rfl h
  · rename_i statement pp desk hs
    obtain ⟨hi, hq⟩ := obey_stack { p with pp, desk } statement
    rw [remaining_of_inputs hi, hq]
    have less := Preprocessor.nextStatement_less hs
    exact less

theorem pop_inputs (s : InputStack) : s.pop.inputs = s.inputs.tail := by
  unfold InputStack.pop
  split
  · rename_i h
    rw [h]
  · rename_i h
    rw [h]

theorem bind_ok {s t : InputStack} {file path : String} {reader? : Option Reader}
    (h : s.push.bind file path reader? = (.ok (), t)) :
    (∃ reader, reader? = some reader ∧
      t.inputs = { reader := some reader, location := { file := some path } } :: s.inputs) ∧
    s.push.holds path = false := by
  unfold InputStack.bind InputStack.push at h
  dsimp only at h
  split at h
  · simp at h
  · rename_i hh
    split at h
    · simp at h
    · rename_i reader
      obtain ⟨-, rfl⟩ := Prod.mk.inj h
      exact ⟨⟨reader, rfl, rfl⟩, by simpa [InputStack.holds, InputStack.push] using hh⟩

theorem bind_error {s t : InputStack} {file path : String} {reader? : Option Reader}
    {fault : Fault} (h : s.push.bind file path reader? = (.error fault, t)) :
    t.inputs.tail = s.inputs := by
  unfold InputStack.bind InputStack.push at h
  dsimp only at h
  split at h
  · obtain ⟨-, rfl⟩ := Prod.mk.inj h
    rfl
  · split at h
    · obtain ⟨-, rfl⟩ := Prod.mk.inj h
      rfl
    · simp at h

theorem enter_ok {p : Pass} {file path : String} {reader? : Option Reader}
    (h : (p.enter file path reader?).1 = true) :
    (∃ reader, reader? = some reader ∧ (p.enter file path reader?).2.stack.inputs =
      { reader := some reader, location := { file := some path } } :: p.stack.inputs) ∧
    path ∉ p.files := by
  unfold enter at h ⊢
  split at h
  · rename_i stack hb
    obtain ⟨⟨reader, hr, hi⟩, hh⟩ := bind_ok hb
    refine ⟨⟨reader, hr, hi⟩, fun hmem => ?_⟩
    obtain ⟨input, hinput, hf⟩ := List.mem_filterMap.1 hmem
    refine absurd hh (Bool.not_eq_false _ ▸ ?_)
    simp only [InputStack.holds, InputStack.push, List.any_cons, Bool.or_eq_true, List.any_eq_true]
    exact Or.inr ⟨input, hinput, by simp [hf]⟩
  · simp at h

theorem enter_error {p : Pass} {file path : String} {reader? : Option Reader}
    (h : (p.enter file path reader?).1 = false) :
    (p.enter file path reader?).2.stack.inputs = p.stack.inputs ∧
      (p.enter file path reader?).2.pp.queue = p.pp.queue := by
  unfold enter at h ⊢
  split at h
  · simp at h
  · rename_i fault stack hb
    exact ⟨(pop_inputs _).trans (bind_error hb), rfl⟩

/-- A pass with the same inputs and no more statements waiting has no more left to do. -/
theorem Drops.of_inputs {a q p : Pass} (d : Drops q p) (hi : a.stack.inputs = q.stack.inputs)
    (hq : a.pp.queue.length ≤ q.pp.queue.length) : Drops a p := by
  unfold Drops at d ⊢
  rw [files_of_alike (Alike.of_inputs hi), remaining_of_inputs hi]
  rw [Prod.lex_def, Prod.lex_def] at d ⊢
  exact d.imp_right fun d =>
    ⟨d.1, d.2.imp_right fun d => ⟨d.1, Nat.lt_of_le_of_lt hq d.2⟩⟩

/-- A pass after a step that did not end has less to do. -/
theorem Drops.step {p q : Pass} {made : Step} (h : p.step = (made, q)) (hne : made ≠ .exhausted) :
    Drops q p := by
  have := step_drops (p := p) (by rw [h]; exact hne)
  rwa [h] at this

/-! ### Following an input to its end -/

/-- A pass at the end of its top input: these inputs are below it, and no statement is left
waiting. -/
abbrev Finished (below : List Input) : Type :=
  { q : Pass // q.stack.inputs.tail = below ∧ q.pp.queue = [] }

section Enter

variable {p q entered : Pass} {file path : String} {reader? : Option Reader}

theorem enter_error_inputs (h : q.enter file path reader? = (false, entered)) :
    entered.stack.inputs = q.stack.inputs := by
  have := (enter_error (congrArg Prod.fst h)).1
  rwa [h] at this

theorem leave_inputs (h : q.enter file path reader? = (true, entered))
    (r : Finished entered.stack.inputs.tail) : r.1.leave.stack.inputs = q.stack.inputs := by
  obtain ⟨⟨reader, -, hi⟩, -⟩ := enter_ok (congrArg Prod.fst h)
  rw [h] at hi
  show r.1.stack.pop.inputs = _
  rw [pop_inputs, r.2.1, hi]
  rfl

/-- A file that cannot be used leaves no more to do. -/
theorem Drops.refused (d : Drops q p) (h : q.enter file path reader? = (false, entered)) :
    Drops entered p := by
  refine d.of_inputs (enter_error_inputs h) (Nat.le_of_eq ?_)
  have := (enter_error (congrArg Prod.fst h)).2
  rw [h] at this
  exact congrArg List.length this

/-- An included file is one file less to open. -/
theorem Drops.of_enter (hf : q.files = p.files) (h : q.enter file path reader? = (true, entered))
    (hpath : reader?.isSome → path.utf8ByteSize < Files.pathLimit) : Drops entered p := by
  obtain ⟨⟨reader, hr, hi⟩, hnew⟩ := enter_ok (congrArg Prod.fst h)
  rw [h] at hi
  refine Prod.Lex.left _ _ ?_
  rw [files, hi, ← hf]
  exact free_cons_lt (hpath (by rw [hr]; rfl)) hnew

/-- After it there is no more to do than before. -/
theorem Drops.left (d : Drops q p) (h : q.enter file path reader? = (true, entered))
    (r : Finished entered.stack.inputs.tail) : Drops r.1.leave p := by
  refine d.of_inputs (leave_inputs h r) ?_
  show r.1.pp.queue.length ≤ _
  rw [r.2.2]
  exact Nat.zero_le _

end Enter

/-- Runs the input on top of the stack, and what it includes, to its end. -/
def finish {m : Type → Type} [Monad m] (system : Files.System m) (p : Pass) (below : List Input)
    (h : p.stack.inputs.tail = below) : m (Finished below) :=
  match hs : p.step with
  | (.exhausted, q) =>
    have tail : q.stack.inputs.tail = below := by simpa only [hs, h] using (step_alike p).tail
    pure ⟨q, tail, by simpa only [hs] using step_queue (congrArg Prod.fst hs)⟩
  | (.done, q) =>
    have tail : q.stack.inputs.tail = below := by simpa only [hs, h] using (step_alike p).tail
    finish system q below tail
  | (.asked file, q) => do
    have tail : q.stack.inputs.tail = below := by simpa only [hs, h] using (step_alike p).tail
    let path ← Files.search (system.isFile · q.stack.tree) file q.stack.includePath
    let opened ← system.openFile path q.stack.tree
    match he : (q.withTree opened.tree).enter file path opened.reader? with
    | (false, entered) => finish system entered below ((enter_error_inputs he).symm ▸ tail)
    | (true, entered) => do
      let inner ← finish system entered entered.stack.inputs.tail rfl
      finish system inner.1.leave below (by rw [leave_inputs he]; exact tail)
termination_by (free p.files, LineSource.remaining p.stack, p.pp.queue.length)
decreasing_by
  all_goals
    have drops : Drops q p := .step hs Step.noConfusion
  · exact drops
  · have known : Drops (q.withTree opened.tree) p := drops
    exact known.refused he
  · have files : q.files = p.files := by simpa only [hs] using files_of_alike (step_alike p)
    exact Drops.of_enter (q := q.withTree opened.tree) files he opened.short
  · have known : Drops (q.withTree opened.tree) p := drops
    exact known.left he inner

/-- Runs the input on top of the stack, and what it includes, to its end, among the files that
are known. -/
def follow (p : Pass) : Pass := (p.finish .known _ rfl).run.1

end Pass

end AsmPrep.Run
