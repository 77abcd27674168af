/-
Where the text of an included file goes.

A raw line is split as a whole before the first of its statements is dealt with, and the
statements that wait are dealt with before another line is read, from whatever input.  So
the statements that follow an `include` on its line come before the file's own, and files
that they include are read before it.

Dealing with a statement that waits takes it off the queue and puts at most one input on
the stack.  The run is then that of the inputs put there, the last one first, and of what
was below them, and what it writes is what each of these writes.
-/
import AsmPrep.Proofs.Preprocessor.Statements
import AsmPrep.Proofs.Run.Course
import AsmPrep.Proofs.Run.Outlets
import AsmPrep.Run.Complete
import Mathlib.Logic.Function.Iterate

namespace AsmPrep.Run

namespace Pass

variable {p : Pass} {statement : Text} {others : List Text}

/-! ### One statement that waits -/

/-- The pass once the next statement was dealt with.  A file that it includes is on top of the
stack then, and nothing of it was read. -/
def turn (p : Pass) : Pass :=
  match p.step with
  | (.asked file, q) => (q.load file).2
  | (_, q) => q

/-- Reads the top input to its end and drops it. -/
def shed (p : Pass) : Pass := p.follow.leave

/-- What reading the top input to its end writes, oldest first. -/
def produced (p : Pass) : List Text := p.follow.written.reverse.drop p.written.length

/-- What reading the topmost inputs to their ends writes, one after the other, so many of them. -/
def producedBy : Nat → Pass → List Text
  | 0, _ => []
  | n + 1, p => p.produced ++ producedBy n p.shed

theorem step_frame (hq : p.pp.queue = statement :: others) :
    p.step.2.pp.queue = others ∧ p.step.2.stack.inputs = p.stack.inputs ∧
      p.step.2.written = if isPlain statement then statement :: p.written else p.written := by
  rw [step_of_queue hq]
  refine ⟨(obey_stack _ _).2, (obey_stack _ _).1, ?_⟩
  rw [obey_written]

/-- Dealing with a statement that waits writes it or does not, and takes it off the queue. -/
theorem turn_frame (hq : p.pp.queue = statement :: others) :
    p.turn.pp.queue = others ∧
      p.turn.written = if isPlain statement then statement :: p.written else p.written := by
  obtain ⟨hqueue, -, hwritten⟩ := step_frame hq
  unfold turn
  split
  · rename_i file q h
    rw [h] at hqueue hwritten
    exact ⟨(load_frame q file).2.trans hqueue, (load_frame q file).1.trans hwritten⟩
  · rename_i q _ h
    rw [h] at hqueue hwritten
    exact ⟨hqueue, hwritten⟩

/-- Either the inputs are as before and the run goes on with them, or there is one more, which
is read to its end and dropped before the run goes on. -/
theorem turn_inputs (hq : p.pp.queue = statement :: others) :
    (p.turn.stack.inputs = p.stack.inputs ∧ p.follow = p.turn.follow) ∨
      ((∃ file, Command.ofStatement? statement = some (.include file)) ∧
        (∃ input, p.turn.stack.inputs = input :: p.stack.inputs) ∧
        p.follow = p.turn.shed.follow) := by
  obtain ⟨-, hinputs, -⟩ := step_frame hq
  have hasked : ∀ file, p.step.1 = .asked file →
      Command.ofStatement? statement = some (.include file) := by
    rw [step_of_queue hq]
    exact fun file => obey_asked.1
  have hended : p.step.1 ≠ .exhausted := by
    rw [step_of_queue hq]
    exact obey_ne_exhausted _ _
  unfold turn
  match h : p.step with
  | (.exhausted, q) => exact absurd (congrArg Prod.fst h) hended
  | (.done, q) =>
    rw [h] at hinputs
    exact .inl ⟨hinputs, follow_done h⟩
  | (.asked file, q) =>
    rw [h] at hinputs hasked
    dsimp only at hinputs
    match hload : q.load file with
    | (false, entered) =>
      refine .inl ⟨?_, ?_⟩
      · dsimp only
        rw [hload, load_error hload, hinputs]
      · dsimp only
        rw [hload, follow_refused h hload]
    | (true, entered) =>
      obtain ⟨reader, -, hentered⟩ := load_ok hload
      refine .inr ⟨⟨file, hasked file rfl⟩, ?_, ?_⟩
      · dsimp only
        rw [hload, ← hinputs]
        exact ⟨_, hentered⟩
      · dsimp only
        rw [hload, follow_loaded h hload]
        rfl

/-! ### All statements that wait -/

theorem shed_inputs (p : Pass) : p.shed.stack.inputs = p.stack.inputs.tail := by
  rw [shed, leave_stack_inputs, follow_tail]

theorem shed_queue (p : Pass) : p.shed.pp.queue = [] := p.follow_queue

theorem iterate_shed_inputs (n : Nat) (p : Pass) :
    (shed^[n] p).stack.inputs = p.stack.inputs.drop n := by
  induction n with
  | zero => rfl
  | succ n ih => rw [Function.iterate_succ_apply', shed_inputs, ih, List.tail_drop]

theorem iterate_shed_queue (n : Nat) {p : Pass} (hq : p.pp.queue = []) :
    (shed^[n] p).pp.queue = [] := by
  cases n with
  | zero => exact hq
  | succ n =>
    rw [Function.iterate_succ_apply']
    exact shed_queue _

/-- Passes that come to the same go on alike below their tops. -/
theorem follow_iterate_shed {q : Pass} (h : p.follow = q.follow) (n : Nat) :
    (shed^[n] p).follow = (shed^[n] q).follow := by
  cases n with
  | zero => exact h
  | succ n => rw [Function.iterate_succ_apply, Function.iterate_succ_apply, shed, shed, h]

/-! ### What is written meanwhile -/

theorem follow_produced (p : Pass) :
    p.follow.written.reverse = p.written.reverse ++ p.produced := by
  obtain ⟨more, hmore⟩ := p.follow_written
  unfold produced
  rw [← hmore, List.reverse_append, List.drop_left' List.length_reverse]

theorem shed_produced (n : Nat) (p : Pass) :
    (shed^[n] p).written.reverse = p.written.reverse ++ p.producedBy n := by
  induction n generalizing p with
  | zero => exact (List.append_nil _).symm
  | succ n ih =>
    rw [Function.iterate_succ_apply, ih, producedBy, ← List.append_assoc, ← follow_produced]
    rfl

/-- The last of them need not be dropped. -/
theorem follow_producedBy (n : Nat) (p : Pass) :
    (shed^[n] p).follow.written.reverse = p.written.reverse ++ p.producedBy (n + 1) := by
  rw [← shed_produced, Function.iterate_succ_apply']
  rfl

/-! ### The files -/

/-- The pass writes to the file in that place. -/
def Writes (p : Pass) (place : Files.Place) : Prop :=
  (∃ w ∈ p.output, w.place = place) ∨ ∃ w ∈ p.desk.listing, w.place = place

theorem ne_place {p : Pass} {place : Files.Place} {writer : Option Files.Writer}
    (h : ∀ w ∈ writer, p.Writes w.place) (hp : ¬ p.Writes place) : ∀ w ∈ writer, w.place ≠ place :=
  fun w hw heq => hp (heq ▸ h w hw)

/-- Other files stay as this pass knows them. -/
def upkeep (p : Pass) : Upkeep where
  Holds t output listing := (∀ place, ¬ p.Writes place → t.at? place = p.stack.tree.at? place) ∧
    (∀ w ∈ output, p.Writes w.place) ∧ ∀ w ∈ listing, p.Writes w.place
  writeOutput h s :=
    ⟨fun place hp => (Files.at?_writeTo_ne (ne_place h.2.1 hp) s _).trans (h.1 place hp),
      Files.place_writeTo.2 h.2.1, h.2.2⟩
  writeListing h s :=
    ⟨fun place hp => (Files.at?_writeTo_ne (ne_place h.2.2 hp) s _).trans (h.1 place hp),
      h.2.1, Files.place_writeTo.2 h.2.2⟩
  flushListing h :=
    ⟨fun place hp => (Files.at?_flushTo_ne (ne_place h.2.2 hp) _).trans (h.1 place hp),
      h.2.1, Files.place_flushTo.2 h.2.2⟩

theorem kept_self (p : Pass) : p.Kept p.upkeep :=
  ⟨fun _ _ => rfl, fun w hw => .inl ⟨w, hw, rfl⟩, fun w hw => .inr ⟨w, hw, rfl⟩⟩

theorem turn_kept {k : Upkeep} (h : p.Kept k) : p.turn.Kept k := by
  have hstep := step_kept h
  unfold turn
  split
  · rename_i file q hs
    rw [hs] at hstep
    exact load_kept hstep file
  · rename_i q _ hs
    rw [hs] at hstep
    exact hstep

theorem iterate_kept {k : Upkeep} {f : Pass → Pass} (hf : ∀ {p : Pass}, p.Kept k → (f p).Kept k)
    (h : p.Kept k) (n : Nat) : (f^[n] p).Kept k := by
  induction n with
  | zero => exact h
  | succ n ih =>
    rw [Function.iterate_succ_apply']
    exact hf ih

/-! ### Statements, one after the other -/

/-- **Statements that wait are dealt with before anything is read.**  Those to be written are
written in order.  The files that they include lie on the stack then, the last one on top, and
the run goes on with reading and dropping these. -/
theorem iterate_turn {statements : List Text} (hq : p.pp.queue = statements ++ others) :
    ∃ opened : List Input, (turn^[statements.length] p).pp.queue = others ∧
      (turn^[statements.length] p).written =
        (statements.filter isPlain).reverse ++ p.written ∧
      (turn^[statements.length] p).stack.inputs = opened ++ p.stack.inputs ∧
      p.follow = (shed^[opened.length] (turn^[statements.length] p)).follow ∧
      opened.length ≤ (statements.filter isInclude).length := by
  induction statements generalizing p with
  | nil => exact ⟨[], hq, rfl, rfl, rfl, Nat.le_refl 0⟩
  | cons statement statements ih =>
    obtain ⟨hqueue, hwritten⟩ := turn_frame hq
    obtain ⟨opened, hrest, hall, hinputs, hfollow, hmost⟩ := ih hqueue
    rw [List.length_cons, Function.iterate_succ_apply]
    have hplain : (statements.filter isPlain).reverse ++ p.turn.written =
        ((statement :: statements).filter isPlain).reverse ++ p.written := by
      rw [hwritten, List.filter_cons]
      split
      · rw [List.reverse_cons, List.append_assoc, List.singleton_append]
      · rfl
    rcases turn_inputs hq with ⟨hsame, hrun⟩ | ⟨⟨file, hfile⟩, ⟨input, hmore⟩, hrun⟩
    · refine ⟨opened, hrest, hall.trans hplain, hsame ▸ hinputs, hrun.trans hfollow, ?_⟩
      exact Nat.le_trans hmost
        ((List.sublist_cons_self statement statements).filter isInclude).length_le
    · refine ⟨opened ++ [input], hrest, hall.trans hplain, ?_, ?_, ?_⟩
      · rw [hinputs, hmore, List.append_assoc, List.singleton_append]
      · -- The file that this statement included is the lowest of them.
        rw [hrun, List.length_append, List.length_singleton, Function.iterate_succ_apply']
        unfold shed at hfollow ⊢
        rw [hfollow]
      · have hinclude : isInclude statement = true := by rw [isInclude, hfile]
        rw [List.filter_cons_of_pos hinclude, List.length_append]
        exact Nat.succ_le_succ hmost

/-! ### The line of an include -/

/-- An `include` that waits puts its file on top of the stack, and the file is read before what
is below it. -/
theorem turn_of_include {file : String} (hq : p.pp.queue = statement :: others)
    (hinclude : Command.ofStatement? statement = some (.include file))
    (hload : (p.step.2.load file).1 = true) :
    let asked := p.step.2
    let path := asked.stack.tree.search file asked.stack.includePath
    p.turn.stack.inputs =
        { reader := asked.stack.tree.reader? path, location := { file := some path } } ::
          asked.stack.inputs ∧
      p.follow = p.turn.shed.follow ∧ p.turn.pp.queue = others ∧ p.turn.written = p.written := by
  intro asked path
  obtain ⟨hqueue, hwritten⟩ := turn_frame hq
  have hstep : p.step = (.asked file, p.step.2) := by
    refine Prod.ext ?_ rfl
    rw [step_of_queue hq]
    exact obey_asked.2 hinclude
  have hturn : p.turn = (p.step.2.load file).2 := by
    unfold turn
    rw [hstep]
  have hplain : isPlain statement = false := by rw [isPlain, hinclude]; rfl
  have hentered : p.step.2.load file = (true, (p.step.2.load file).2) := Prod.ext hload rfl
  rw [hplain, if_neg Bool.false_ne_true] at hwritten
  refine ⟨?_, ?_, hqueue, hwritten⟩
  · obtain ⟨reader, hreader, hinputs⟩ := load_ok hentered
    rw [hturn, hinputs, hreader]
  · rw [hturn]
    exact follow_loaded hstep hentered

/-- A run leaves the inputs with their names, and those below the top as they are. -/
theorem follow_alike (p : Pass) : Alike p.follow.stack p.stack := by
  refine ⟨follow_tail p, ?_⟩
  induction p using follow_induction with
  | exhausted p q hs => simpa only [hs] using (step_alike p).files
  | done p q hs ih => exact ih.trans (by simpa only [hs] using (step_alike p).files)
  | refused p q file entered hs hload ih =>
    rw [ih, load_error hload]
    simpa only [hs] using (step_alike p).files
  | loaded p q file entered hs hload ihi ihr =>
    obtain ⟨reader, -, hentered⟩ := load_ok hload
    rw [ihr, leave_stack_inputs, follow_tail, hentered, List.tail_cons]
    simpa only [hs] using (step_alike p).files

/-- What can be opened and is not open is put on the stack. -/
theorem load_of_reader {file : String} (hopen :
    (p.stack.tree.reader? (p.stack.tree.search file p.stack.includePath)).isSome)
    (hnew : p.stack.tree.search file p.stack.includePath ∉ p.files) : (p.load file).1 = true := by
  obtain ⟨reader, hreader⟩ := Option.isSome_iff_exists.1 hopen
  have hnew' : ∀ input ∈ p.stack.push.inputs,
      input.location.file ≠ some (p.stack.tree.search file p.stack.includePath) := by
    intro input hi hfile
    rcases List.mem_cons.1 hi with rfl | hi
    · exact absurd hfile (by simp)
    · exact hnew (List.mem_filterMap.2 ⟨input, hi, hfile⟩)
  obtain ⟨s, hbind, -⟩ := InputStack.bind_ok (s := p.stack.push) rfl hnew' file reader
  unfold load enter
  dsimp only
  rw [hreader, hbind]

/-- **What follows an `include` on its line is written before the text of the file.**  First come
the statements before it and the statements after it.  The files that the latter include then lie
on top of its own and are read to their ends, at most one for each of them.  Only then is its own
file read, from its beginning to its end, and what comes last is the rest: what the files write
that the statements before it include, and what the line's own input still holds.  A file that the
pass does not write to is still what it was. -/
theorem include_follows_its_line {pp : Preprocessor} {desk : Desk} {line : Text}
    {before after : List Text} {file : String} (hq : p.pp.queue = [])
    (hf : p.pp.fetchLine p.desk = (some line, pp, desk))
    (hline : pp.lineStatements line = before ++ statement :: after)
    (hinclude : Command.ofStatement? statement = some (.include file)) :
    let made := pp.processLine line desk
    let met := turn^[before.length] { p with pp := made.1, desk := made.2 }
    let asked := met.step.2
    let path := asked.stack.tree.search file asked.stack.includePath
    let own : Input :=
      { reader := asked.stack.tree.reader? path, location := { file := some path } }
    let dealt := turn^[after.length] met.turn
    own.reader.isSome → path ∉ asked.files →
    ∃ earlier above : List Input,
      asked.stack.inputs = earlier ++ made.2.stack.inputs ∧
      earlier.length ≤ (before.filter isInclude).length ∧
      dealt.stack.inputs = above ++ own :: asked.stack.inputs ∧
      above.length ≤ (after.filter isInclude).length ∧
      let unread := shed^[above.length] dealt
      unread.stack.inputs = own :: asked.stack.inputs ∧ unread.pp.queue = [] ∧
      (∀ place, ¬ p.Writes place → unread.stack.tree.at? place = p.stack.tree.at? place) ∧
      (∃ ended, unread.follow.stack.inputs = ended :: asked.stack.inputs ∧
        ended.location.file = some path ∧ ended.reader = none) ∧
      p.produced = before.filter isPlain ++ after.filter isPlain ++
        dealt.producedBy above.length ++ unread.produced ++
        unread.shed.producedBy (earlier.length + 1) := by
  intro made met asked path own dealt hopen hnew
  have hqueue : made.1.queue = before ++ statement :: after := by
    rw [Preprocessor.processLine_queue, hline]
    have := Preprocessor.fetchLine_queue p.pp p.desk
    rw [hf] at this
    rw [this, hq, List.nil_append]
  -- The statements before it, the include, and the statements after it.
  let first : Pass := { p with pp := made.1, desk := made.2 }
  obtain ⟨earlier, hmet, hbefore, hbelow, hrun, hfew⟩ := iterate_turn (p := first) hqueue
  have hasked : asked.stack.inputs = met.stack.inputs := (step_frame hmet).2.1
  obtain ⟨hentered, hrunIncluded, hrest, hsame⟩ :=
    turn_of_include (p := met) hmet hinclude (load_of_reader hopen hnew)
  have hwaits : met.turn.pp.queue = after ++ [] := hrest.trans (List.append_nil after).symm
  obtain ⟨above, hdone, hafter, hinputs, hrunEntered, hmost⟩ := iterate_turn hwaits
  let unread : Pass := shed^[above.length] dealt
  have htop : unread.stack.inputs = own :: asked.stack.inputs := by
    rw [iterate_shed_inputs, hinputs, hentered, List.drop_left]
  refine ⟨earlier, above, hasked.trans hbelow, hfew, hinputs.trans (by rw [hentered]), hmost, htop,
    iterate_shed_queue _ hdone, ?_, ?_, ?_⟩
  · have hserved : first.Kept p.upkeep := by
      obtain ⟨n, hn⟩ := Preprocessor.processLine_served pp line desk
      have hfetch := Preprocessor.fetchLine_served p.pp p.desk
      rw [hf] at hfetch
      exact served_kept (hfetch.trans hn) (kept_self p)
    have hdealt : dealt.Kept p.upkeep :=
      iterate_kept turn_kept (turn_kept (iterate_kept turn_kept hserved _)) _
    exact (iterate_kept (fun h => leave_kept (follow_kept h)) hdealt above.length).1
  · have hsame := follow_alike unread
    obtain ⟨-, hclosed⟩ := follow_course unread (by rw [htop]; exact List.cons_ne_nil _ _)
    rcases hend : unread.follow.stack.inputs with _ | ⟨ended, below⟩
    · have hnames := hsame.files
      rw [hend, htop] at hnames
      exact absurd hnames (by simp)
    · have hbelow := hsame.tail
      have hnames := hsame.files
      rw [hend, htop, List.tail_cons, List.tail_cons] at hbelow
      rw [hend, htop, List.map_cons, List.map_cons] at hnames
      refine ⟨ended, by rw [hbelow], (List.cons.inj hnames).1, hclosed ended ?_⟩
      show ended ∈ unread.follow.stack.inputs.head?
      rw [hend]
      rfl
  · -- What reading the line's own input comes to is what dropping the file and all below comes to.
    have hdropped : met.follow = unread.shed.follow := by
      rw [hrunIncluded, shed, shed, hrunEntered]
    have hcomes : p.follow = (shed^[earlier.length] unread.shed).follow := by
      rw [follow_congr (step_of_fetchLine hq hf)]
      exact hrun.trans (follow_iterate_shed hdropped _)
    have hall : p.written.reverse ++ p.produced = p.written.reverse ++
        (before.filter isPlain ++ after.filter isPlain ++ dealt.producedBy above.length ++
          unread.produced ++ unread.shed.producedBy (earlier.length + 1)) := by
      calc p.written.reverse ++ p.produced
        _ = p.follow.written.reverse := (follow_produced p).symm
        _ = unread.shed.written.reverse ++ unread.shed.producedBy (earlier.length + 1) := by
          rw [hcomes, follow_producedBy]
        _ = unread.written.reverse ++ unread.produced ++
            unread.shed.producedBy (earlier.length + 1) := by
          rw [← follow_produced]
          rfl
        _ = dealt.written.reverse ++ dealt.producedBy above.length ++ unread.produced ++
            unread.shed.producedBy (earlier.length + 1) := by rw [shed_produced]
        _ = _ := by
          rw [hafter, hsame, hbefore]
          simp only [List.reverse_append, List.reverse_reverse, List.append_assoc]
          rfl
    exact List.append_cancel_left hall

/-- A file whose only line includes another one and goes on after that. -/
def includeTree : Files.Tree :=
  (({} : Files.Tree).makeFile "main" (Text.ofString "include \"f\" \\ nop\n")).makeFile "f"
    (Text.ofString "ret\n")

/-- The pass over that file, as a run begins it. -/
def includePass : Pass :=
  let begun := start {} { tree := includeTree }
  (begun.opened (begun.stack.openFile "main")).2

/-- What follows the `include` is written, and then the text of the file. -/
theorem include_follows_its_line_of_two :
    includePass.pp.queue = [] ∧
      (includePass.pp.fetchLine includePass.desk).1 = some (Text.ofString "include \"f\" \\ nop\n") ∧
      includePass.produced = [Text.ofString " nop\n", Text.ofString "ret\n"] := by
  let fetched := includePass.pp.fetchLine includePass.desk
  have hf : includePass.pp.fetchLine includePass.desk =
      (some (Text.ofString "include \"f\" \\ nop\n"), fetched.2.1, fetched.2.2) :=
    Prod.ext (by decide +kernel) rfl
  have hline : fetched.2.1.lineStatements (Text.ofString "include \"f\" \\ nop\n") =
      [] ++ Text.ofString "include \"f\" \n" :: [Text.ofString " nop\n"] := by decide +kernel
  have hinclude : Command.ofStatement? (Text.ofString "include \"f\" \n") =
      some (.include "f") := by decide +kernel
  let made := fetched.2.1.processLine (Text.ofString "include \"f\" \\ nop\n") fetched.2.2
  let dealt : Pass := (turn { includePass with pp := made.1, desk := made.2 }).turn
  obtain ⟨earlier, above, -, hearlier, -, habove, -, -, -, -, hproduced⟩ :=
    include_follows_its_line rfl hf hline hinclude (by decide +kernel) (by decide +kernel)
  obtain rfl : earlier = [] := List.eq_nil_of_length_eq_zero (Nat.le_zero.1 hearlier)
  obtain rfl : above = [] := List.eq_nil_of_length_eq_zero (Nat.le_zero.1 habove)
  have hread : dealt.follow = advance^[2] dealt :=
    follow_of_steps (n := 1) (by decide +kernel) (by decide +kernel)
  have hrest : (advance^[2] dealt).leave.follow = advance^[1] (advance^[2] dealt).leave :=
    follow_of_steps (n := 0) (by decide +kernel) (by decide +kernel)
  have hown : dealt.produced = [Text.ofString "ret\n"] := by
    unfold produced
    rw [hread]
    decide +kernel
  have hlast : dealt.shed.produced = [] := by
    unfold produced shed
    rw [hread, hrest]
    decide +kernel
  refine ⟨rfl, congrArg Prod.fst hf, hproduced.trans ?_⟩
  show [] ++ [Text.ofString " nop\n"].filter isPlain ++ [] ++ dealt.produced ++
    (dealt.shed.produced ++ []) = _
  rw [hown, hlast]
  decide +kernel

/-- The text of the included file does not come before it. -/
theorem included_text_comes_last :
    includePass.follow.written.reverse = [Text.ofString " nop\n", Text.ofString "ret\n"] := by
  have hasked : includePass.step = (.asked "f", includePass.step.2) :=
    Prod.ext (by decide +kernel) rfl
  have hload : includePass.step.2.load "f" = (true, (includePass.step.2.load "f").2) :=
    Prod.ext (by decide +kernel) rfl
  let entered := (includePass.step.2.load "f").2
  have hnop : entered.step = (.done, entered.step.2) := Prod.ext (by decide +kernel) rfl
  have hret : entered.step.2.step = (.done, entered.step.2.step.2) :=
    Prod.ext (by decide +kernel) rfl
  have hend : entered.step.2.step.2.step = (.exhausted, entered.step.2.step.2.step.2) :=
    Prod.ext (by decide +kernel) rfl
  have hlast : entered.step.2.step.2.step.2.leave.step =
      (.exhausted, entered.step.2.step.2.step.2.leave.step.2) := Prod.ext (by decide +kernel) rfl
  rw [follow_loaded hasked hload, follow_done hnop, follow_done hret, follow_exhausted hend,
    follow_exhausted hlast]
  decide +kernel

end Pass

end AsmPrep.Run
