/-
A pass at the beginning of a line.

Between two lines all that matters of what was read is which macros there are and whether a
group is open.  From there, what a line comes to can be worked out over the lines of a text
alone, without inputs, files or locations.  Here this is carried over to a pass: it writes
and reports what the line comes to and stands at the beginning of the next one.

How the text goes on after the lines that a line takes in makes no difference, so they may be
worked out over one text and read in another.
-/
import AsmPrep.Proofs.Preprocessor.Lockstep
import AsmPrep.Proofs.Preprocessor.Reachable
import AsmPrep.Proofs.Run.Outlets

namespace AsmPrep.Run

open Files

/-! ### Lines of a text -/

/-- A feed of lines. -/
def feed (lines : List Text) : Feed := .ofAnswers "" (lines.map fun line => .ok (some line))

/-- What the lines before have left. -/
structure Standing where
  table : MacroTable := .empty
  inGroup : Bool := false

/-- What a preprocessor leaves. -/
def standing (pp : Preprocessor) : Standing := ⟨pp.table, pp.inGroup⟩

namespace Standing

/-- A preprocessor that has read no more than that. -/
def pp (st : Standing) : Preprocessor := { table := st.table, inGroup := st.inGroup }

/-- Deals with a line, which may take in some of the lines after it. -/
def processLine (st : Standing) (line : Text) (others : List Text) : Preprocessor × Feed :=
  st.pp.processLine line (feed others)

/-- The file that a line includes when it does nothing else. -/
def includes? (st : Standing) (line : Text) : Option String :=
  if (Directive.ofLine? line).isSome then none
  else
    let made := st.pp.expandLine line
    match made.queue with
    | [statement] =>
      match Command.ofStatement? statement with
      | some (.include file) =>
        if made.log.isEmpty && made.inGroup == st.inGroup then some file else none
      | _ => none
    | _ => none

theorem includes?_some {st : Standing} {line : Text} {file : String}
    (h : st.includes? line = some file) :
    Directive.ofLine? line = none ∧ standing (st.pp.expandLine line) = st ∧
      (st.pp.expandLine line).log.entries = [] ∧
      ∃ statement, (st.pp.expandLine line).queue = [statement] ∧
        Command.ofStatement? statement = some (.include file) := by
  unfold includes? at h
  split at h
  · exact absurd h (by simp)
  · rename_i hline
    have hplain : Directive.ofLine? line = none := by simpa using hline
    dsimp only at h
    split at h
    · rename_i statement hqueue
      split at h
      · rename_i found hcommand
        split at h
        · rename_i hquiet
          obtain rfl := Option.some.inj h
          obtain ⟨hlog, hgroup⟩ := Bool.and_eq_true_iff.1 hquiet
          refine ⟨hplain, ?_, List.isEmpty_iff.1 hlog, statement, hqueue, hcommand⟩
          have htable : (st.pp.expandLine line).table = st.table := Statement.split_table line _
          unfold standing
          rw [htable, beq_iff_eq.1 hgroup]
        · exact absurd h (by simp)
      · exact absurd h (by simp)
    · exact absurd h (by simp)

end Standing

/-! ### Lines of an input -/

/-- The files as they are when a run begins to read, and where those of them are that it writes
to. -/
structure Sources where
  tree : Tree
  includePath : List String
  Written : Place → Prop
  files : ∀ p, Written p → ∃ content, tree.at? p = some (.file content)

namespace Sources

variable (b : Sources)

/-- All other files are as they were. -/
def upkeep : Upkeep where
  Holds t output listing := Tree.Agrees b.Written t b.tree ∧ (∀ w ∈ output, b.Written w.place) ∧
    ∀ w ∈ listing, b.Written w.place
  writeOutput h s := ⟨h.1.writeTo h.2.1 s, place_writeTo.2 h.2.1, h.2.2⟩
  writeListing h s := ⟨h.1.writeTo h.2.2 s, h.2.1, place_writeTo.2 h.2.2⟩
  flushListing h := ⟨h.1.flushTo h.2.2, h.2.1, place_flushTo.2 h.2.2⟩

/-- The top input has these lines left.  It is the one of that path, on top of these others. -/
structure Unread (output : Option Writer) (path : String) (others : List Input)
    (lines : List Text) (d : Desk) : Prop where
  top : ∃ input, d.stack.inputs = input :: others ∧ input.location.file = some path ∧
    input.Reads b.tree lines
  includePath : d.stack.includePath = b.includePath
  clear : d.stack.Clear b.Written
  kept : b.upkeep.Holds d.stack.tree output d.listing

namespace Unread

variable {b : Sources} {output : Option Writer} {path : String} {others : List Input}
  {line : Text} {lines : List Text} {d : Desk}

theorem record (h : b.Unread output path others lines d) (entry : Text) :
    b.Unread output path others lines (LineSource.record entry d) :=
  ⟨h.top, h.includePath, h.clear, b.upkeep.writeListing h.kept entry⟩

theorem nextLine (h : b.Unread output path others (line :: lines) d) :
    (LineSource.nextLine d).1 = .ok (some line) ∧
      b.Unread output path others lines (LineSource.nextLine d).2 := by
  obtain ⟨input, hinputs, hfile, hreads⟩ := h.top
  have hclear := h.clear.readLine
  have hnow : input.Reads d.stack.tree (line :: lines) := hreads.congr fun place hp =>
    (h.kept.1.contentAt (h.clear input (hinputs ▸ List.mem_cons_self) place hp)).symm
  obtain ⟨hline, after, hafter, hsame, hrest⟩ := InputStack.readLine_reads hinputs hnow
  refine ⟨hline, ⟨after, hafter, hsame.trans hfile, hrest.congr fun place hp => ?_⟩, ?_, hclear, ?_⟩
  · refine h.kept.1.contentAt (hclear after ?_ place hp)
    rw [hafter]
    exact List.mem_cons_self
  · exact d.stack.readLine_includePath.trans h.includePath
  · show b.upkeep.Holds d.stack.readLine.2.tree output d.listing
    rw [d.stack.readLine_tree]
    exact h.kept

/-- After its last line the input has nothing to give. -/
theorem nextLine_end (h : b.Unread output path others [] d) :
    (LineSource.nextLine d).1 = .ok none ∧
      (LineSource.nextLine d).2.stack.inputs.tail = others := by
  obtain ⟨input, hinputs, -, hreads⟩ := h.top
  have hnow : input.Reads d.stack.tree [] := hreads.congr fun place hp =>
    (h.kept.1.contentAt (h.clear input (hinputs ▸ List.mem_cons_self) place hp)).symm
  exact InputStack.readLine_reads hinputs hnow

end Unread

/-- A feed and an input have the same lines up to where these ones begin, with which the feed goes
on. -/
def beside (b : Sources) (output : Option Writer) (path : String) (others : List Input)
    (rest rest' : List Text) : Lockstep Feed Desk where
  Alike f d := ∃ more, f.answers = (more ++ rest).map (fun line => .ok (some line)) ∧
    b.Unread output path others (more ++ rest') d
  Near _ _ := True
  Over f := f.ended = true ∨ f.answers.length < rest.length
  near _ := trivial
  next := by
    rintro f d ⟨more, hfeed, hdesk⟩
    cases more with
    | cons line more =>
      obtain ⟨hline, hnext⟩ := hdesk.nextLine
      have hnow : f.next = (.ok (some line),
          { f with
            answers := (more ++ rest).map fun line => .ok (some line)
            requests := f.requests + 1 }) := by
        unfold Feed.next
        rw [hfeed]
        rfl
      refine .inr ⟨?_, more, ?_, hnext⟩
      · show f.next.1 = _
        rw [hnow, hline]
      · show f.next.2.answers = _
        rw [hnow]
    | nil =>
      left
      show f.next.2.ended = true ∨ f.next.2.answers.length < rest.length
      rcases f.next_ended_or_lt with hended | hlt
      · exact .inl hended
      · rw [hfeed] at hlt
        simp only [List.nil_append, List.length_map] at hlt
        exact .inr hlt
  record := by
    rintro f d l l' entry ⟨more, hfeed, hdesk⟩ -
    exact ⟨more, hfeed, hdesk.record _⟩
  over_next := by
    rintro f (hended | hlt)
    · left
      show f.next.2.ended = true
      unfold Feed.next
      split
      · rfl
      · exact hended
    · rcases f.next_ended_or_lt with hended | hless
      · exact .inl hended
      · exact .inr (Nat.lt_trans hless hlt)
  over_record := fun _ h => h

end Sources

/-! ### Passes -/

namespace Pass

/-- What was reported, without the locations. -/
def faults (p : Pass) : List Fault := p.pp.log.entries.map (·.fault)

/-- The pass stands at the beginning of a line. -/
structure At (b : Sources) (st : Standing) (path : String) (others : List Input)
    (lines : List Text) (p : Pass) : Prop where
  queue : p.pp.queue = []
  standing : standing p.pp = st
  unread : b.Unread p.output path others lines p.desk

/-- The pass has read its top input to the end, and these others are below it. -/
structure Exhausted (b : Sources) (st : Standing) (others : List Input) (p : Pass) : Prop where
  queue : p.pp.queue = []
  standing : standing p.pp = st
  tail : p.stack.inputs.tail = others
  includePath : p.stack.includePath = b.includePath
  kept : p.Kept b.upkeep

/-- The pass with no statement waiting. -/
def cleared (p : Pass) : Pass := { p with pp := { p.pp with queue := [] } }

section Line

variable {b : Sources} {st : Standing} {path : String} {others : List Input} {line : Text}
  {lines : List Text} {p : Pass}

/-- The pass comes to a line as the lines before have left it. -/
theorem At.paired (h : p.At b st path others lines) :
    Preprocessor.Paired (fun _ _ => True) [] p.pp.log.entries st.pp p.pp where
  table := (congrArg Standing.table h.standing).symm
  queue := h.queue.symm
  inGroup := (congrArg Standing.inGroup h.standing).symm
  locations := trivial
  log := ⟨[], [], rfl, (List.append_nil _).symm, .nil⟩

/-- The next line is fetched. -/
theorem At.fetchLine (h : p.At b st path others (line :: lines)) :
    ∃ pp desk, p.pp.fetchLine p.desk = (some line, pp, desk) ∧
      At b st path others lines { p with pp, desk } ∧ pp.log = p.pp.log := by
  obtain ⟨hline, hnext⟩ := h.unread.nextLine
  let asked := (LineSource.nextLine p.desk).2
  refine ⟨{ p.pp with locations := LineSource.locations asked },
    LineSource.record (Listing.rawEntry (LineSource.locations asked).asm line) asked, ?_,
    ⟨h.queue, h.standing, hnext.record _⟩, rfl⟩
  unfold Preprocessor.fetchLine
  dsimp only
  rw [hline]

/-- Past the last line the pass ends. -/
theorem At.end (h : p.At b st path others []) :
    ∃ q, p.step = (.exhausted, q) ∧ q.Exhausted b st others ∧ q.written = p.written ∧
      q.faults = p.faults := by
  obtain ⟨hline, htail⟩ := h.unread.nextLine_end
  have hfetch : p.pp.fetchLine p.desk =
      (none, { p.pp with locations := LineSource.locations (LineSource.nextLine p.desk).2 },
        (LineSource.nextLine p.desk).2) := by
    unfold Preprocessor.fetchLine
    dsimp only
    rw [hline]
  refine ⟨{ p with
    pp := { p.pp with locations := LineSource.locations (LineSource.nextLine p.desk).2 }
    desk := (LineSource.nextLine p.desk).2 }, ?_, ⟨h.queue, h.standing, htail, ?_, ?_⟩, rfl, rfl⟩
  · unfold Pass.step
    rw [Preprocessor.nextStatement_of_end h.queue hfetch]
  · exact p.desk.stack.readLine_includePath.trans h.unread.includePath
  · show b.upkeep.Holds p.desk.stack.readLine.2.tree p.output p.desk.listing
    rw [p.desk.stack.readLine_tree]
    exact h.unread.kept

/-- A line and those that it takes in come to what they come to over a text. -/
theorem At.processLine {more rest rest' : List Text}
    (h : p.At b st path others (line :: (more ++ rest')))
    (hended : (st.processLine line (more ++ rest)).2.ended = false)
    (hrest : (st.processLine line (more ++ rest)).2.answers =
      rest.map fun line => .ok (some line)) :
    ∃ q : Pass, p.follow = q.follow ∧ q.pp.queue = (st.processLine line (more ++ rest)).1.queue ∧
      q.cleared.At b (Run.standing (st.processLine line (more ++ rest)).1) path others rest' ∧
      q.written = p.written ∧
      q.faults = p.faults ++ (st.processLine line (more ++ rest)).1.log.entries.map (·.fault) := by
  obtain ⟨pp, desk, hfetch, hat, hlog⟩ := h.fetchLine
  have halike : (b.beside p.output path others rest rest').Alike (feed (more ++ rest)) desk :=
    ⟨more, rfl, hat.unread⟩
  have hdone : (b.beside p.output path others rest rest').Together [] pp.log.entries
      (st.processLine line (more ++ rest)) (pp.processLine line desk) :=
    Lockstep.processLine hat.paired halike line
  rcases hdone with hover | ⟨hpp, more', hfeed, hdesk⟩
  · rcases hover with hover | hover
    · exact absurd hover (by simp [hended])
    · rw [hrest, List.length_map] at hover
      exact absurd hover (Nat.lt_irrefl _)
  · have hnone : more' = [] := by
      rw [hrest] at hfeed
      have := congrArg List.length hfeed
      rw [List.length_map, List.length_map, List.length_append] at this
      exact List.eq_nil_of_length_eq_zero (by omega)
    subst hnone
    refine ⟨{ p with pp := (pp.processLine line desk).1, desk := (pp.processLine line desk).2 },
      follow_congr (step_of_fetchLine h.queue hfetch), hpp.queue.symm, ⟨rfl, ?_, hdesk⟩, rfl, ?_⟩
    · unfold Run.standing
      rw [hpp.table, hpp.inGroup]
      rfl
    · unfold faults
      rw [← hlog]
      exact hpp.log.map_fault

/-! ### Statements that wait -/

/-- The reports on a statement that is obeyed. -/
def complaints (statement : Text) : List Fault :=
  match Command.ofStatement? statement with
  | some .badCLine => [.malformed]
  | _ => []

/-- A statement that includes nothing leaves the pass where it is. -/
theorem At.obey {statement : Text} (h : p.cleared.At b st path others lines)
    (hplain : isInclude statement = false) :
    (p.obey statement).1 = .done ∧ (p.obey statement).2.pp.queue = p.pp.queue ∧
      (p.obey statement).2.cleared.At b st path others lines ∧
      (p.obey statement).2.faults = p.faults ++ complaints statement := by
  unfold isInclude at hplain
  unfold Pass.obey complaints
  split
  · rename_i hcommand
    rw [hcommand]
    refine ⟨rfl, rfl, ⟨rfl, h.standing, ?_⟩, (List.append_nil _).symm⟩
    exact ⟨h.unread.top, h.unread.includePath, h.unread.clear,
      b.upkeep.writeOutput h.unread.kept statement⟩
  · rename_i file hcommand
    rw [hcommand] at hplain
    exact absurd hplain (by simp)
  · rename_i hcommand
    rw [hcommand]
    refine ⟨rfl, rfl, ⟨rfl, h.standing, ?_⟩, (List.append_nil _).symm⟩
    exact ⟨h.unread.top, h.unread.includePath, h.unread.clear, h.unread.kept⟩
  · rename_i hcommand
    rw [hcommand]
    exact ⟨rfl, rfl, ⟨rfl, h.standing, h.unread⟩, List.map_append⟩

/-- Statements that include nothing are written and obeyed before the next line. -/
theorem At.drain (h : p.cleared.At b st path others lines)
    (hplain : ∀ statement ∈ p.pp.queue, isInclude statement = false) :
    ∃ q : Pass, p.follow = q.follow ∧ q.At b st path others lines ∧
      q.written = (p.pp.queue.filter isPlain).reverse ++ p.written ∧
      q.faults = p.faults ++ p.pp.queue.flatMap complaints := by
  generalize hq : p.pp.queue = queue at hplain ⊢
  induction queue generalizing p with
  | nil => exact ⟨p, rfl, ⟨hq, h.standing, h.unread⟩, rfl, (List.append_nil _).symm⟩
  | cons statement queue ih =>
    let asked : Pass := { p with
      pp := { p.pp with queue }
      desk := LineSource.record
        (Listing.statementEntry (LineSource.locations p.desk).asm statement) p.desk }
    have hasked : asked.cleared.At b st path others lines := ⟨rfl, h.standing, h.unread.record _⟩
    obtain ⟨hdone, hrest, hat, hfaults⟩ := hasked.obey (hplain statement List.mem_cons_self)
    obtain ⟨q, hfollow, hq', hwritten, hall⟩ :=
      ih hat hrest (fun s hs => hplain s (List.mem_cons_of_mem _ hs))
    have hstep : p.step = (.done, (asked.obey statement).2) :=
      (step_of_queue hq).trans (Prod.ext hdone rfl)
    refine ⟨q, (follow_done hstep).trans hfollow, hq', ?_, ?_⟩
    · rw [hwritten, obey_written, List.filter_cons]
      split
      · rw [List.reverse_cons, List.append_assoc]
        rfl
      · rfl
    · rw [hall, hfaults, List.flatMap_cons, List.append_assoc]
      rfl

/-! ### A line that includes a file -/

/-- The pass asks for the file, and that is all that the line does. -/
theorem At.includes {file : String} (h : p.At b st path others (line :: lines))
    (hfile : st.includes? line = some file) :
    ∃ q, p.step = (.asked file, q) ∧ q.At b st path others lines ∧ q.written = p.written ∧
      q.faults = p.faults := by
  obtain ⟨hplain, hsame, hquiet, statement, hqueue, hcommand⟩ := Standing.includes?_some hfile
  obtain ⟨pp, desk, hfetch, hat, hlog⟩ := h.fetchLine
  have hpp := hat.paired.expandLine line
  have hwaits : (pp.expandLine line).queue = statement :: [] := hpp.queue.symm.trans hqueue
  have hfaults : (pp.expandLine line).log.entries.map (·.fault) = p.faults := by
    rw [hpp.log.map_fault, hquiet, hlog]
    exact List.append_nil _
  have hline : pp.processLine line desk = (pp.expandLine line, desk) := by
    unfold Preprocessor.processLine
    rw [hplain]
  have hstep := step_of_fetchLine h.queue hfetch
  rw [hline, step_of_queue (p := { p with pp := pp.expandLine line, desk }) hwaits] at hstep
  refine ⟨_, hstep.trans (Prod.ext (obey_asked.2 hcommand) rfl), ?_, ?_, ?_⟩
  · unfold Pass.obey
    rw [hcommand]
    refine ⟨rfl, ?_, hat.unread.record _⟩
    rw [← hsame]
    unfold Run.standing
    dsimp only
    rw [hpp.table, hpp.inGroup]
  · unfold Pass.obey
    rw [hcommand]
  · unfold Pass.obey
    rw [hcommand]
    exact hfaults

/-- A file that can be read and is not open is put on top of the inputs. -/
theorem At.load {file found : String} {reader : Reader} (h : p.At b st path others lines)
    (hfound : b.tree.search file b.includePath = found)
    (hreader : b.tree.reader? found = some reader) (hreadable : reader ≠ .unreadable)
    (hclear : ∀ place ∈ reader.place?, ¬ b.Written place)
    (hnew : ∀ input ∈ p.stack.inputs, input.location.file ≠ some found) :
    ∃ q, p.load file = (true, q) ∧
      q.At b st found p.stack.inputs (Reader.lines (reader.rest b.tree)) ∧
      q.written = p.written ∧ q.faults = p.faults := by
  have hagrees := h.unread.kept.1
  have hpath : p.stack.tree.search file p.stack.includePath = found := by
    rw [show p.stack.includePath = b.includePath from h.unread.includePath]
    exact (hagrees.search file b.includePath).trans hfound
  have hopen : p.stack.tree.reader? found = some reader := (hagrees.reader? found).trans hreader
  have hnew' : ∀ input ∈ p.stack.push.inputs, input.location.file ≠ some found := by
    intro input hi
    rcases List.mem_cons.1 hi with rfl | hi
    · simp
    · exact hnew input hi
  obtain ⟨s, hbind, hinputs, htree, hincludes⟩ :=
    InputStack.bind_ok (s := p.stack.push) rfl hnew' file reader
  have hload : p.load file = (true, p.withStack s) := by
    unfold Pass.load Pass.enter
    dsimp only
    rw [hpath, hopen, hbind]
  refine ⟨p.withStack s, hload, ⟨h.queue, h.standing, ?_⟩, rfl, rfl⟩
  refine ⟨⟨_, hinputs, rfl, reader, rfl, hreadable, rfl⟩, hincludes.trans h.unread.includePath,
    ?_, ?_⟩
  · intro input hi place hp
    rw [show (p.withStack s).desk.stack.inputs = _ from hinputs] at hi
    rcases List.mem_cons.1 hi with rfl | hi
    · exact hclear place hp
    · exact h.unread.clear input hi place hp
  · show b.upkeep.Holds s.tree p.output p.desk.listing
    rw [htree]
    exact h.unread.kept

/-- The file was read to its end, and the pass goes on where it asked for it. -/
theorem At.leave {q : Pass} {st' : Standing} (h : p.At b st path others lines)
    (hq : q.Exhausted b st' p.stack.inputs) : q.leave.At b st' path others lines := by
  have hinputs : q.leave.stack.inputs = p.stack.inputs := (leave_stack_inputs q).trans hq.tail
  obtain ⟨input, htop, hfile, hreads⟩ := h.unread.top
  refine ⟨hq.queue, hq.standing, ⟨input, hinputs.trans htop, hfile, hreads⟩, ?_, ?_,
    leave_kept hq.kept⟩
  · exact (InputStack.pop_includePath _).trans hq.includePath
  · exact h.unread.clear.of_inputs fun input hi => hinputs ▸ hi

end Line

end Pass

end AsmPrep.Run
