/-
What happens in a pass, one thing after the other.

Lines are read, `c_line`s are obeyed, files are put on top of the inputs and dropped again,
and now and then something is reported.  These are the events of a pass.  The pass moves from
one to the next: it reads a line and deals with it, together with the lines that a macro text
goes on in, or it deals with a statement that waits, or it drops the input on top when that
has come to its end.

However a pass runs, it takes a course of such moves from its beginning to its end.
-/
import AsmPrep.Proofs.Preprocessor.Statements
import AsmPrep.Proofs.Run.Follow
import AsmPrep.Proofs.Source.Operations

namespace AsmPrep

/-! ### Lines that a source gives -/

namespace LineSource

variable {σ : Type} [LineSource σ] {s t u : σ} {lines more : List Text}

/-- `Handed s lines t`: between `s` and `t` the source gives these lines, and no fault. -/
inductive Handed (s : σ) : List Text → σ → Prop where
  | start : Handed s [] s
  | line {lines : List Text} {t : σ} {line : Text} (h : Handed s lines t)
      (hl : (nextLine t).1 = .ok (some line)) : Handed s (lines ++ [line]) (nextLine t).2
  | ending {lines : List Text} {t : σ} (h : Handed s lines t) (hl : (nextLine t).1 = .ok none) :
      Handed s lines (nextLine t).2
  | entry {lines : List Text} {t : σ} (text : Text) (h : Handed s lines t) :
      Handed s lines (record text t)

theorem Handed.trans (h : Handed s lines t) (h' : Handed t more u) :
    Handed s (lines ++ more) u := by
  induction h' with
  | start => rwa [List.append_nil]
  | line _ hl ih =>
    rw [← List.append_assoc]
    exact ih.line hl
  | ending _ hl ih => exact ih.ending hl
  | entry text _ ih => exact ih.entry text

theorem Handed.of_eq (h : t = s) : Handed s [] t := by
  rw [h]
  exact .start

/-- The lines are taken from what the source still holds. -/
theorem Handed.remaining_le (h : Handed s lines t) :
    remaining t + lines.length ≤ remaining s := by
  induction h with
  | start => exact Nat.le_refl _
  | @line lines t line _ hl ih =>
    have hless := remaining_lt t line hl
    rw [List.length_append, List.length_singleton]
    omega
  | @ending lines t _ hl ih =>
    exact Nat.le_trans (Nat.add_le_add_right (LineSource.remaining_le t) _) ih
  | @entry lines t text _ ih =>
    exact Nat.le_trans (Nat.add_le_add_right (remaining_record text t) _) ih

/-- A source that is as before has given no line. -/
theorem Handed.eq_nil (h : Handed s lines s) : lines = [] := by
  have hle := h.remaining_le
  exact List.eq_nil_of_length_eq_zero (by omega)

end LineSource

theorem Reader.line?_readable {t : Files.Tree} {reader after : Reader} {line : Text}
    (h : reader.line? t = some (line, after)) : after ≠ .unreadable := by
  unfold Reader.line? at h
  split at h
  · obtain ⟨-, rfl⟩ := Prod.mk.inj (Option.some.inj h)
    exact Reader.noConfusion
  · obtain ⟨-, rfl⟩ := Prod.mk.inj (Option.some.inj h)
    exact Reader.noConfusion
  · exact absurd h (by simp)

/-- All that reading a line can come to: nothing is open, a line is there, or the input is closed.
In the last two cases the line number moves on. -/
theorem InputStack.readLine_cases (s : InputStack) :
    (s.readLine = (.ok none, s) ∧ ∀ top ∈ s.inputs.head?, top.reader = none) ∨
      ∃ top others reader, s.inputs = top :: others ∧ top.reader = some reader ∧
        let l : Location := { top.location with line := top.location.line + 1 }
        let moved (input : Input) : InputStack :=
          { s with inputs := input :: others, locations := s.locations.set .asm l }
        (∃ line after, after ≠ .unreadable ∧ s.readLine =
          (.ok (some line), moved { top with reader := some after, location := l })) ∨
        ∃ answer, (∀ line, answer ≠ .ok (some line)) ∧
          (∀ fault, answer = .error fault → reader = .unreadable) ∧ s.readLine =
            (answer, moved { top with reader := none, location := l, ended := true }) := by
  unfold InputStack.readLine
  split
  · rename_i hs
    refine .inl ⟨rfl, ?_⟩
    rw [hs]
    exact fun top htop => absurd htop (Option.not_mem_none _)
  · rename_i top others hs
    split
    · rename_i hr
      refine .inl ⟨rfl, ?_⟩
      rw [hs]
      rintro top' htop
      obtain rfl := Option.some.inj htop
      exact hr
    · rename_i reader hr
      refine .inr ⟨top, others, reader, hs, hr, ?_⟩
      unfold Input.read
      dsimp only
      split
      · rename_i hu
        exact .inr ⟨_, fun _ => by simp, fun _ _ => hu, rfl⟩
      · split
        · exact .inr ⟨_, fun _ => by simp, fun _ h => by simp at h, rfl⟩
        · rename_i line after hl
          exact .inl ⟨line, after, Reader.line?_readable hl, rfl⟩

namespace Run

open LineSource (nextLine record Handed)

/-! ### One raw line, on the desk -/

namespace Desk

/-- The input on top can be read, if it is open. -/
def Readable (d : Desk) : Prop := ∀ top ∈ d.stack.inputs.head?, top.reader ≠ some .unreadable

/-- The input on top is closed. -/
def Closed (d : Desk) : Prop := ∀ top ∈ d.stack.inputs.head?, top.reader = none

variable {d : Desk} {line : Text}

theorem readable_of_line (h : (nextLine d).1 = .ok (some line)) : (nextLine d).2.Readable := by
  rcases d.stack.readLine_cases with ⟨hread, -⟩ | ⟨top, others, reader, -, -, hread | hread⟩
  · replace h : d.stack.readLine.1 = .ok (some line) := h
    rw [hread] at h
    exact absurd h (by simp)
  · obtain ⟨line, after, hafter, hread⟩ := hread
    rintro input hinput
    replace hinput : input ∈ d.stack.readLine.2.inputs.head? := hinput
    rw [hread] at hinput
    obtain rfl := Option.some.inj hinput
    exact fun heq => hafter (Option.some.inj heq)
  · obtain ⟨answer, hnone, -, hread⟩ := hread
    replace h : d.stack.readLine.1 = .ok (some line) := h
    rw [hread] at h
    exact absurd h (hnone line)

theorem closed_of_no_line (h : ∀ line, (nextLine d).1 ≠ .ok (some line)) :
    (nextLine d).2.Closed := by
  rintro input hinput
  replace hinput : input ∈ d.stack.readLine.2.inputs.head? := hinput
  rcases d.stack.readLine_cases with ⟨hread, hclosed⟩ | ⟨top, others, reader, -, -, hread | hread⟩
  · rw [hread] at hinput
    exact hclosed input hinput
  · obtain ⟨line, after, -, hread⟩ := hread
    exact absurd (congrArg Prod.fst hread) (h line)
  · obtain ⟨answer, -, -, hread⟩ := hread
    rw [hread] at hinput
    obtain rfl := Option.some.inj hinput
    rfl

theorem nextLine_ne_error (hd : d.Readable) (fault : Fault) : (nextLine d).1 ≠ .error fault := by
  intro h
  replace h : d.stack.readLine.1 = .error fault := h
  rcases d.stack.readLine_cases with ⟨hread, -⟩ | ⟨top, others, reader, hs, hr, hread | hread⟩
  · rw [hread] at h
    exact absurd h (by simp)
  · obtain ⟨line, after, -, hread⟩ := hread
    rw [hread] at h
    exact absurd h (by simp)
  · obtain ⟨answer, -, hfault, hread⟩ := hread
    rw [hread] at h
    refine hd top (by rw [hs]; rfl) ?_
    rw [hr, hfault fault h]

end Desk

section Line

variable {pp pp' : Preprocessor} {d d' : Desk} {line : Text}

theorem fetchLine_handed (hf : pp.fetchLine d = (some line, pp', d')) :
    Handed d [line] d' ∧ d'.Readable ∧ pp'.log = pp.log := by
  obtain ⟨hnext, rfl, rfl⟩ := Preprocessor.fetchLine_some hf
  exact ⟨(Handed.start.line hnext).entry _, Desk.readable_of_line hnext, rfl⟩

theorem fetchLine_handed_none (hd : d.Readable) (hf : pp.fetchLine d = (none, pp', d')) :
    Handed d [] d' ∧ pp'.log = pp.log := by
  unfold Preprocessor.fetchLine at hf
  dsimp only at hf
  split at hf
  · exact absurd hf (by simp)
  · rename_i hnext
    obtain ⟨-, rfl, rfl⟩ : _ ∧ _ ∧ _ := by simpa only [Prod.mk.injEq] using hf
    exact ⟨Handed.start.ending hnext, rfl⟩
  · rename_i fault hnext
    exact absurd hnext (Desk.nextLine_ne_error hd fault)

/-- A macro text that goes on takes lines, and nothing is reported. -/
theorem readBody_handed (hd : d.Readable) (pp : Preprocessor) (text : Text) :
    (∃ lines, Handed d lines (pp.readBody text d).2.2) ∧
      (pp.readBody text d).2.1.log = pp.log := by
  fun_induction Preprocessor.readBody pp text d with
  | case1 pp text d added _ line pp' d' h ih =>
    obtain ⟨hfirst, hd', hlog⟩ := fetchLine_handed h
    obtain ⟨⟨lines, hlines⟩, hrest⟩ := ih hd'
    exact ⟨⟨_, hfirst.trans hlines⟩, hrest.trans hlog⟩
  | case2 pp text d added _ pp' d' h =>
    obtain ⟨hend, hlog⟩ := fetchLine_handed_none hd h
    exact ⟨⟨[], hend⟩, hlog⟩
  | case3 => exact ⟨⟨[], .start⟩, rfl⟩

/-- A line that is dealt with takes no more lines, or nothing is reported about it. -/
theorem processLine_cases (hd : d.Readable) (pp : Preprocessor) (line : Text) :
    let made := pp.processLine line d
    (made.2 = d ∧ ∃ faults, made.1.log = pp.log.reportAll faults pp.locations) ∨
      (made.1.log = pp.log ∧ made.1.queue = pp.queue ∧ ∃ lines, Handed d lines made.2) := by
  intro made
  have hquiet : pp.log = pp.log.reportAll [] pp.locations :=
    congrArg Log.mk (List.append_nil pp.log.entries).symm
  have htext : ∀ (pp₂ : Preprocessor) (text : Text), pp₂.log = pp.log →
      pp₂.queue = pp.queue → (pp₂.readMacroText text d).2.1.log = pp.log ∧
        (pp₂.readMacroText text d).2.1.queue = pp.queue ∧
        ∃ lines, Handed d lines (pp₂.readMacroText text d).2.2 := by
    intro pp₂ text hlog hqueue
    obtain ⟨hlines, hsame⟩ := readBody_handed hd pp₂ (Text.skipBlanks text)
    exact ⟨hsame.trans hlog, (pp₂.readBody_queue _ d).trans hqueue, hlines⟩
  unfold made Preprocessor.processLine
  split
  · exact .inl ⟨rfl, _, rfl⟩
  · unfold Preprocessor.defineFrom
    split
    · exact .inl ⟨rfl, [_], rfl⟩
    · dsimp only
      split
      · exact .inl ⟨rfl, [_], rfl⟩
      · split
        · exact .inl ⟨rfl, [_], rfl⟩
        · exact .inr (htext _ _ rfl rfl)
  · refine .inl ⟨rfl, ?_⟩
    unfold Preprocessor.undefineFrom
    split
    · exact ⟨[_], rfl⟩
    · exact ⟨[], hquiet⟩
  · unfold Preprocessor.continueFrom
    split
    · exact .inl ⟨rfl, [_], rfl⟩
    · exact .inr (htext _ _ rfl rfl)
  · exact .inl ⟨rfl, [], hquiet⟩

end Line

/-! ### Events and moves -/

/-- What can happen in a pass. -/
inductive Event where
  /-- A file is put on top of the inputs. -/
  | opened (path : String)
  /-- The input on top is dropped. -/
  | dropped
  /-- A line of the input on top is read. -/
  | read (line : Text)
  /-- A line of the input on top is asked for, and the input cannot be read. -/
  | failed
  /-- A `c_line` is obeyed. -/
  | cLine (line : UInt32) (file : Option String)
  | reported (d : Diagnostic)

/-- What a statement makes happen, apart from what is reported. -/
def Event.ofStatement (statement : Text) : List Event :=
  match Command.ofStatement? statement with
  | some (.cLine line file) => [.cLine line file]
  | _ => []

namespace Pass

/-- `Move p es q`: from `p` the pass comes to `q`, and in between these things happen. -/
inductive Move : Pass → List Event → Pass → Prop where
  /-- A line is read and dealt with, together with the lines that a macro text goes on in. -/
  | line {p : Pass} {pp : Preprocessor} {desk : Desk} {line : Text} {lines : List Text}
      {new : List Diagnostic} (hq : p.pp.queue = [])
      (hf : p.pp.fetchLine p.desk = (some line, pp, desk))
      (hlines : Handed desk lines (pp.processLine line desk).2)
      (hnew : (pp.processLine line desk).1.log.entries = p.pp.log.entries ++ new) :
      Move p ((line :: lines).map .read ++ new.map .reported)
        { p with pp := (pp.processLine line desk).1, desk := (pp.processLine line desk).2 }
  /-- The input on top gives no more lines. -/
  | ended {p : Pass} {pp : Preprocessor} {desk : Desk} (hq : p.pp.queue = [])
      (hf : p.pp.fetchLine p.desk = (none, pp, desk)) (hend : (nextLine p.desk).1 = .ok none) :
      Move p [] { p with pp, desk }
  /-- The input on top cannot be read. -/
  | failed {p : Pass} {pp : Preprocessor} {desk : Desk} {fault : Fault} {new : List Diagnostic}
      (hq : p.pp.queue = []) (hf : p.pp.fetchLine p.desk = (none, pp, desk))
      (hfault : (nextLine p.desk).1 = .error fault)
      (hnew : pp.log.entries = p.pp.log.entries ++ new) :
      Move p (.failed :: new.map .reported) { p with pp, desk }
  /-- A statement that waits is written or obeyed. -/
  | obeyed {p q : Pass} {statement : Text} {others : List Text} {new : List Diagnostic}
      (hq : p.pp.queue = statement :: others) (hs : p.step = (.done, q))
      (hnew : q.pp.log.entries = p.pp.log.entries ++ new) :
      Move p (Event.ofStatement statement ++ new.map .reported) q
  /-- A statement that waits asks for a file that cannot be included. -/
  | refused {p q entered : Pass} {file : String} {statement : Text} {others : List Text}
      {new : List Diagnostic} (hq : p.pp.queue = statement :: others)
      (hs : p.step = (.asked file, q)) (hload : q.load file = (false, entered))
      (hnew : entered.pp.log.entries = p.pp.log.entries ++ new) :
      Move p (new.map .reported) entered
  /-- A statement that waits asks for a file, and it is included. -/
  | loaded {p q entered : Pass} {file : String} {statement : Text} {others : List Text}
      (hq : p.pp.queue = statement :: others) (hs : p.step = (.asked file, q))
      (hload : q.load file = (true, entered)) :
      Move p [.opened (q.stack.tree.search file q.stack.includePath)] entered
  /-- The input on top has come to its end and is dropped. -/
  | dropped {p : Pass} {top next : Input} {others : List Input} (hq : p.pp.queue = [])
      (hinputs : p.stack.inputs = top :: next :: others) (hend : top.reader = none) :
      Move p [.dropped] p.leave

/-- `Course p es q`: the pass moves from `p` to `q`, and these things happen on the way. -/
inductive Course (p : Pass) : List Event → Pass → Prop where
  | start : Course p [] p
  | move {q r : Pass} {es more : List Event} (h : Course p es q) (hm : Move q more r) :
      Course p (es ++ more) r

variable {p q r : Pass} {es more : List Event}

theorem Course.trans (h : Course p es q) (h' : Course q more r) : Course p (es ++ more) r := by
  induction h' with
  | start => rwa [List.append_nil]
  | move _ hm ih =>
    rw [← List.append_assoc]
    exact ih.move hm

theorem Move.course (hm : Move p es q) : Course p es q := Course.start.move hm

/-! ### Every pass takes a course -/

/-- The pass when lines were read until a statement waits, or as long as there were any. -/
def filled (p : Pass) : Pass :=
  { p with pp := (p.pp.fill p.desk).1, desk := (p.pp.fill p.desk).2 }

/-- A step is the end of the input on top, or one with a statement that waits. -/
theorem step_filled (p : Pass) :
    (p.filled.pp.queue = [] ∧ p.step = (.exhausted, p.filled)) ∨
      ∃ statement others, p.filled.pp.queue = statement :: others ∧ p.filled.step = p.step := by
  rcases hq : p.filled.pp.queue with _ | ⟨statement, others⟩
  · refine .inl ⟨rfl, ?_⟩
    unfold step Preprocessor.nextStatement
    dsimp only
    replace hq : (p.pp.fill p.desk).1.queue = [] := hq
    rw [hq]
    rfl
  · refine .inr ⟨statement, others, rfl, ?_⟩
    have hfill : p.filled.pp.fill p.filled.desk = p.pp.fill p.desk :=
      Preprocessor.fill_of_queue (by rw [hq]; exact List.cons_ne_nil _ _)
    unfold step
    rw [Preprocessor.nextStatement_congr hfill]
    rfl

theorem fill_course (p : Pass) (pp : Preprocessor) (desk : Desk) :
    (∃ es, Course { p with pp, desk } es
      { p with pp := (pp.fill desk).1, desk := (pp.fill desk).2 }) ∧
      ((pp.fill desk).1.queue = [] → (pp.fill desk).2.Closed) := by
  fun_induction Preprocessor.fill pp desk with
  | case1 pp desk hq pp' desk' hf =>
    have hempty : pp.queue = [] := List.isEmpty_iff.1 hq
    have hf' := hf
    unfold Preprocessor.fetchLine at hf'
    dsimp only at hf'
    split at hf'
    · exact absurd hf' (by simp)
    · rename_i hend
      obtain ⟨-, -, rfl⟩ : _ ∧ _ ∧ _ := by simpa only [Prod.mk.injEq] using hf'
      exact ⟨⟨_, (Move.ended (p := { p with pp, desk }) hempty hf hend).course⟩,
        fun _ => Desk.closed_of_no_line fun line => by rw [hend]; simp⟩
    · rename_i fault hfault
      obtain ⟨-, rfl, rfl⟩ : _ ∧ _ ∧ _ := by simpa only [Prod.mk.injEq] using hf'
      exact ⟨⟨_, (Move.failed (p := { p with pp, desk }) hempty hf hfault rfl).course⟩,
        fun _ => Desk.closed_of_no_line fun line => by rw [hfault]; simp⟩
  | case2 pp desk hq line pp' desk' hf processed ih =>
    obtain ⟨⟨es, hes⟩, hclosed⟩ := ih
    obtain ⟨hnext, rfl, rfl⟩ := Preprocessor.fetchLine_some hf
    have hempty : pp.queue = [] := List.isEmpty_iff.1 hq
    have hd : Desk.Readable (record (Listing.rawEntry
        (LineSource.locations (nextLine desk).2).asm line) (nextLine desk).2) :=
      Desk.readable_of_line hnext
    refine ⟨?_, hclosed⟩
    rcases processLine_cases hd _ line with ⟨hsrc, faults, hlog⟩ | ⟨hlog, -, lines, hlines⟩
    · have hm := Move.line (p := { p with pp, desk }) hempty hf
        (Handed.of_eq hsrc) (congrArg Log.entries hlog)
      exact ⟨_, hm.course.trans hes⟩
    · have hm := Move.line (p := { p with pp, desk }) hempty hf hlines
        ((congrArg Log.entries hlog).trans (List.append_nil _).symm)
      exact ⟨_, hm.course.trans hes⟩
  | case3 pp desk hq =>
    exact ⟨⟨[], .start⟩, fun hempty => absurd (List.isEmpty_iff.2 hempty) hq⟩

theorem obey_log (p : Pass) (statement : Text) :
    ∃ new, (p.obey statement).2.pp.log.entries = p.pp.log.entries ++ new := by
  unfold obey
  split
  · exact ⟨[], (List.append_nil _).symm⟩
  · exact ⟨[], (List.append_nil _).symm⟩
  · exact ⟨[], (List.append_nil _).symm⟩
  · exact ⟨[_], rfl⟩

theorem load_log (p : Pass) (file : String) :
    ∃ new, (p.load file).2.pp.log.entries = p.pp.log.entries ++ new := by
  unfold load enter
  dsimp only
  split
  · exact ⟨[], (List.append_nil _).symm⟩
  · exact ⟨[_], rfl⟩

theorem step_log {statement : Text} {others : List Text} (hq : p.pp.queue = statement :: others) :
    ∃ new, p.step.2.pp.log.entries = p.pp.log.entries ++ new := by
  rw [step_of_queue hq]
  exact obey_log _ _

/-- A step with a statement comes after the lines that had to be read for it. -/
theorem step_course {answer : Step} (h : p.step = (answer, q)) (hanswer : answer ≠ .exhausted) :
    ∃ es t statement others new, Course p es t ∧ t.pp.queue = statement :: others ∧
      t.step = (answer, q) ∧ q.pp.log.entries = t.pp.log.entries ++ new := by
  rcases step_filled p with ⟨-, hfilled⟩ | ⟨statement, others, hq, hstep⟩
  · exact absurd (congrArg Prod.fst (h.symm.trans hfilled)) hanswer
  · obtain ⟨⟨es, hes⟩, -⟩ := fill_course p p.pp p.desk
    obtain ⟨new, hnew⟩ := step_log hq
    rw [hstep, h] at hnew
    exact ⟨es, p.filled, statement, others, new, hes, hq, hstep.trans h, hnew⟩

theorem step_inputs_ne_nil (h : p.stack.inputs ≠ []) : p.step.2.stack.inputs ≠ [] := by
  intro hnone
  have hnames := (step_alike p).files
  rw [hnone] at hnames
  exact h (List.map_eq_nil_iff.1 hnames.symm)

/-- **Every pass takes a course to its end.**  Then the input on top is closed. -/
theorem follow_course (p : Pass) (h : p.stack.inputs ≠ []) :
    (∃ es, Course p es p.follow) ∧ p.follow.desk.Closed := by
  induction p using follow_induction with
  | exhausted p q hs =>
    rcases step_filled p with ⟨hempty, hfilled⟩ | ⟨statement, others, hq, hstep⟩
    · obtain rfl : p.filled = q := congrArg Prod.snd (hfilled.symm.trans hs)
      obtain ⟨hes, hclosed⟩ := fill_course p p.pp p.desk
      exact ⟨hes, hclosed hempty⟩
    · rw [hs, step_of_queue hq] at hstep
      exact absurd (congrArg Prod.fst hstep) (obey_ne_exhausted _ _)
  | done p q hs ih =>
    have hq := step_inputs_ne_nil h
    rw [hs] at hq
    obtain ⟨⟨rest, hrest⟩, hclosed⟩ := ih hq
    obtain ⟨es, t, statement, others, new, hes, hqueue, hstep, hnew⟩ :=
      step_course hs Step.noConfusion
    exact ⟨⟨_, (hes.move (.obeyed hqueue hstep hnew)).trans hrest⟩, hclosed⟩
  | refused p q file entered hs hload ih =>
    have hq := step_inputs_ne_nil h
    rw [hs] at hq
    obtain ⟨⟨rest, hrest⟩, hclosed⟩ := ih (by rwa [load_error hload])
    obtain ⟨es, t, statement, others, new, hes, hqueue, hstep, hnew⟩ :=
      step_course hs Step.noConfusion
    obtain ⟨new', hnew'⟩ := load_log q file
    rw [hload, hnew, List.append_assoc] at hnew'
    exact ⟨⟨_, (hes.move (.refused hqueue hstep hload hnew')).trans hrest⟩, hclosed⟩
  | loaded p q file entered hs hload ihi ihr =>
    have hq := step_inputs_ne_nil h
    rw [hs] at hq
    obtain ⟨reader, -, hentered⟩ := load_ok hload
    obtain ⟨⟨inner, hinner⟩, hclosed⟩ := ihi (by rw [hentered]; exact List.cons_ne_nil _ _)
    have htail : entered.follow.stack.inputs.tail = q.stack.inputs := by
      rw [follow_tail, hentered, List.tail_cons]
    obtain ⟨⟨rest, hrest⟩, hlast⟩ := ihr (by rwa [leave_stack_inputs, htail])
    obtain ⟨es, t, statement, others, new, hes, hqueue, hstep, -⟩ :=
      step_course hs Step.noConfusion
    refine ⟨?_, hlast⟩
    -- The file is read to its end and dropped, and what was below it is on top again.
    rcases hunder : q.stack.inputs with _ | ⟨next, below⟩
    · exact absurd hunder hq
    rcases hinputs : entered.follow.stack.inputs with _ | ⟨top, others⟩
    · rw [hinputs, hunder] at htail
      exact absurd htail (by simp)
    rw [hinputs, hunder, List.tail_cons] at htail
    have hdropped : Move entered.follow [.dropped] entered.follow.leave := by
      refine .dropped entered.follow_queue (hinputs.trans (by rw [htail])) (hclosed top ?_)
      show top ∈ entered.follow.stack.inputs.head?
      rw [hinputs]
      rfl
    exact ⟨_, (((hes.move (.loaded hqueue hstep hload)).trans hinner).move hdropped).trans hrest⟩

end Pass

end Run

end AsmPrep
