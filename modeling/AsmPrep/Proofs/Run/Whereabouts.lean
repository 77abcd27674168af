/-
Where the reports of a pass point to.

The place of a line is kept in three copies.  The input that it came from counts its lines,
the stack has the place of the input on top and the place in the generating program, and the
preprocessor keeps what the stack said when it asked for a line.  Reports carry the one or
the other.

The places that they should carry can be told from the events alone: from the files that are
open, the number of lines that were read of each, and the `c_line`s so far.  Every move keeps
the copies in line with that.  An input that was closed has counted one line more, but then no
statement waits and nothing can be reported before the input is dropped.
-/
import AsmPrep.Proofs.Run.Complete
import AsmPrep.Proofs.Run.Course
import AsmPrep.Proofs.Source.Numbering

namespace AsmPrep.Run

open LineSource (nextLine record Handed)

/-! ### Places, as the events have them -/

/-- A file that is open, and how many of its lines were asked for. -/
structure OpenFile where
  path : String
  lines : Nat := 0

/-- The place of the line that was asked for last.  Its number has 32 bits. -/
def OpenFile.location (f : OpenFile) : Location := { file := some f.path, line := .ofNat f.lines }

/-- The files that are open after one more event. -/
def Event.onFiles (files : List OpenFile) : Event → List OpenFile
  | opened path => { path } :: files
  | dropped => files.tail
  | read _ | failed => files.modifyHead fun f => { f with lines := f.lines + 1 }
  | cLine _ _ | reported _ => files

/-- The files that are open, the one on top first. -/
def openFiles (es : List Event) : List OpenFile := es.foldl Event.onFiles []

/-- The line that a `c_line` gives. -/
def Event.cLine? : Event → Option UInt32
  | cLine line _ => some line
  | _ => none

/-- The file that a `c_line` gives. -/
def Event.cFile? : Event → Option String
  | cLine _ file => file
  | _ => none

/-- The place in the generating program: the line of the last `c_line`, and the last file that
any of them named. -/
def cLocation (es : List Event) : Location :=
  { file := (es.filterMap Event.cFile?).getLast?
    line := (es.filterMap Event.cLine?).getLast?.getD 0 }

/-- The places after some events.  In the assembly text it is that of the file on top. -/
def locationsAfter (es : List Event) : Locations :=
  { c := cLocation es, asm := ((openFiles es).head?.map OpenFile.location).getD {} }

def Event.report? : Event → Option Diagnostic
  | reported d => some d
  | _ => none

/-- What was reported. -/
def reports (es : List Event) : List Diagnostic := es.filterMap Event.report?

section Events

variable {es more : List Event} {new : List Diagnostic}

theorem openFiles_append (es more : List Event) :
    openFiles (es ++ more) = more.foldl Event.onFiles (openFiles es) := List.foldl_append

theorem cLocation_append (h : ∀ e ∈ more, e.cLine? = none ∧ e.cFile? = none) :
    cLocation (es ++ more) = cLocation es := by
  have hline : more.filterMap Event.cLine? = [] :=
    List.filterMap_eq_nil_iff.2 fun e he => (h e he).1
  have hfile : more.filterMap Event.cFile? = [] :=
    List.filterMap_eq_nil_iff.2 fun e he => (h e he).2
  unfold cLocation
  rw [List.filterMap_append, List.filterMap_append, hline, hfile, List.append_nil,
    List.append_nil]

theorem cLocation_concat {e : Event} (he : e.cLine? = none ∧ e.cFile? = none) :
    cLocation (es ++ [e]) = cLocation es :=
  cLocation_append fun _ hmem => List.mem_singleton.1 hmem ▸ he

/-- A `c_line` without a file keeps the one before it. -/
theorem cLocation_cLine (line : UInt32) (file : Option String) :
    cLocation (es ++ [.cLine line file]) = ⟨file.or (cLocation es).file, line⟩ := by
  unfold cLocation
  cases file with
  | none => simp [Event.cFile?, Event.cLine?]
  | some file => simp [Event.cFile?, Event.cLine?]

/-- Reports happen where the pass is already. -/
theorem locationsAfter_reported (es : List Event) (new : List Diagnostic) :
    openFiles (es ++ new.map .reported) = openFiles es ∧
      locationsAfter (es ++ new.map .reported) = locationsAfter es := by
  have hfiles : openFiles (es ++ new.map .reported) = openFiles es := by
    rw [openFiles_append]
    induction new with
    | nil => rfl
    | cons d new ih => exact ih
  have hc : cLocation (es ++ new.map .reported) = cLocation es := by
    refine cLocation_append fun e he => ?_
    obtain ⟨d, -, rfl⟩ := List.mem_map.1 he
    exact ⟨rfl, rfl⟩
  refine ⟨hfiles, ?_⟩
  unfold locationsAfter
  rw [hfiles, hc]

/-- Everything reported carries the places of where it happens. -/
def Placed (es : List Event) : Prop :=
  ∀ before d after, es = before ++ .reported d :: after → d.locations = locationsAfter before

theorem Placed.concat {e : Event} (h : Placed es)
    (he : ∀ d, e.report? = some d → d.locations = locationsAfter es) : Placed (es ++ [e]) := by
  intro before d after heq
  rcases List.eq_nil_or_concat after with rfl | ⟨after, last, rfl⟩
  · obtain ⟨rfl, hlast⟩ := List.append_inj' heq rfl
    exact he d (by rw [List.singleton_inj.1 hlast]; rfl)
  · rw [List.concat_eq_append, ← List.cons_append, ← List.append_assoc] at heq
    exact h before d after (List.append_inj' heq rfl).1

theorem Placed.append_quiet (h : Placed es) (hquiet : ∀ e ∈ more, e.report? = none) :
    Placed (es ++ more) := by
  induction more generalizing es with
  | nil => rwa [List.append_nil]
  | cons e more ih =>
    rw [List.append_cons]
    refine ih (h.concat ?_) fun e he => hquiet e (List.mem_cons_of_mem _ he)
    intro d hd
    rw [hquiet e List.mem_cons_self] at hd
    exact absurd hd (by simp)

theorem Placed.append_reported (h : Placed es)
    (hnew : ∀ d ∈ new, d.locations = locationsAfter es) : Placed (es ++ new.map .reported) := by
  induction new generalizing es with
  | nil => rwa [List.map_nil, List.append_nil]
  | cons d new ih =>
    rw [List.map_cons, List.append_cons]
    refine ih (h.concat ?_) fun d' hd' => ?_
    · rintro d' hd'
      obtain rfl := Option.some.inj hd'
      exact hnew d List.mem_cons_self
    · have hsame : locationsAfter (es ++ [.reported d]) = locationsAfter es :=
        (locationsAfter_reported es [d]).2
      rw [hsame]
      exact hnew d' (List.mem_cons_of_mem _ hd')

end Events

/-! ### The inputs stand where the events have brought them -/

/-- The inputs are the files that the events have opened, at the lines that were read, and so are
the locations.  Only the input on top can be closed, and then its own count is one too high. -/
structure Stands (es : List Event) (s : InputStack) (top : Input) (others : List Input) :
    Prop where
  inputs : s.inputs = top :: others
  c : s.locations.c = cLocation es
  asm : s.locations.asm = top.location
  files : ∃ file below, openFiles es = file :: below ∧
    below.map OpenFile.location = others.map (·.location) ∧
    (top.reader ≠ none → file.location = top.location)
  below : ∀ input ∈ others, input.reader ≠ none

namespace Stands

variable {es more : List Event} {s t : InputStack} {d d' : Desk} {top : Input}
  {others : List Input}

theorem locations (h : Stands es s top others) (hopen : top.reader ≠ none) :
    s.locations = locationsAfter es := by
  obtain ⟨file, below, hfiles, -, htop⟩ := h.files
  unfold locationsAfter
  rw [hfiles, List.head?_cons, Option.map_some, Option.getD_some, htop hopen, ← h.asm, ← h.c]

theorem congr (h : Stands es s top others) (hinputs : t.inputs = s.inputs)
    (hlocations : t.locations = s.locations) : Stands es t top others where
  inputs := hinputs.trans h.inputs
  c := hlocations ▸ h.c
  asm := hlocations ▸ h.asm
  files := h.files
  below := h.below

/-- Reports change nothing. -/
theorem reported (h : Stands es s top others) (new : List Diagnostic) :
    Stands (es ++ new.map .reported) s top others := by
  obtain ⟨hfiles, hlocations⟩ := locationsAfter_reported es new
  have hc : cLocation (es ++ new.map .reported) = cLocation es := congrArg Locations.c hlocations
  exact ⟨h.inputs, hc ▸ h.c, h.asm, hfiles ▸ h.files, h.below⟩

/-- Asking an open input for a line moves it on by one. -/
theorem moved (h : Stands es s top others) (hopen : top.reader ≠ none) {e : Event}
    (he : e = .failed ∨ ∃ line, e = .read line) (reader? : Option Reader) (ended : Bool) :
    let l : Location := { top.location with line := top.location.line + 1 }
    let next : Input := { reader := reader?, location := l, ended }
    Stands (es ++ [e]) { s with
      inputs := next :: others, locations := s.locations.set .asm l } next others ∧
      (s.locations.set .asm l) = locationsAfter (es ++ [e]) := by
  intro l next
  obtain ⟨file, below, hfiles, hbelow, htop⟩ := h.files
  let read : OpenFile := { file with lines := file.lines + 1 }
  have hread : read.location = l := by
    show ({ file := some file.path, line := UInt32.ofNat (file.lines + 1) } : Location) = l
    rw [UInt32.ofNat_add]
    exact congrArg (fun place : Location => { place with line := place.line + 1 }) (htop hopen)
  have hfiles' : openFiles (es ++ [e]) = read :: below := by
    rw [openFiles_append, hfiles]
    rcases he with rfl | ⟨line, rfl⟩ <;> rfl
  have hc : cLocation (es ++ [e]) = cLocation es := by
    rcases he with rfl | ⟨line, rfl⟩ <;> exact cLocation_concat ⟨rfl, rfl⟩
  refine ⟨⟨rfl, h.c.trans hc.symm, rfl, ⟨read, below, hfiles', hbelow, fun _ => hread⟩, h.below⟩,
    ?_⟩
  unfold locationsAfter
  rw [hfiles', List.head?_cons, Option.map_some, Option.getD_some, hread, hc, ← h.c]
  rfl

theorem nextLine_some (h : Stands es d.stack top others) {line : Text}
    (hl : (nextLine d).1 = .ok (some line)) :
    ∃ next, Stands (es ++ [.read line]) (nextLine d).2.stack next others ∧
      next.reader ≠ none := by
  replace hl : d.stack.readLine.1 = .ok (some line) := hl
  rcases d.stack.readLine_cases with ⟨hread, -⟩ | ⟨input, below, reader, hs, hr, hread | hread⟩
  · rw [hread] at hl
    exact absurd hl (by simp)
  · obtain ⟨line', after, -, hread⟩ := hread
    obtain ⟨rfl, rfl⟩ := List.cons.inj (h.inputs.symm.trans hs)
    have hmoved := h.moved (by rw [hr]; simp) (e := .read line) (.inr ⟨line, rfl⟩) (some after)
      top.ended
    have hstack : (nextLine d).2.stack = _ := congrArg Prod.snd hread
    exact ⟨_, hmoved.1.congr (congrArg (·.inputs) hstack) (congrArg (·.locations) hstack),
      Option.some_ne_none after⟩
  · obtain ⟨answer, hnone, -, hread⟩ := hread
    rw [hread] at hl
    exact absurd hl (hnone line)

theorem nextLine_end (h : Stands es d.stack top others) (hl : (nextLine d).1 = .ok none) :
    ∃ next, Stands es (nextLine d).2.stack next others := by
  replace hl : d.stack.readLine.1 = .ok none := hl
  rcases d.stack.readLine_cases with ⟨hread, -⟩ | ⟨input, below, reader, hs, hr, hread | hread⟩
  · refine ⟨top, ?_⟩
    show Stands es d.stack.readLine.2 top others
    rwa [hread]
  · obtain ⟨line, after, -, hread⟩ := hread
    rw [hread] at hl
    exact absurd hl (by simp)
  · obtain ⟨answer, -, -, hread⟩ := hread
    obtain ⟨rfl, rfl⟩ := List.cons.inj (h.inputs.symm.trans hs)
    obtain ⟨file, files, hfiles, hbelow, -⟩ := h.files
    have hstack : (nextLine d).2.stack = _ := congrArg Prod.snd hread
    refine ⟨{ top with
      reader := none
      location := { top.location with line := top.location.line + 1 }
      ended := true }, ?_⟩
    rw [hstack]
    exact ⟨rfl, h.c, rfl, ⟨file, files, hfiles, hbelow, fun hopen => absurd rfl hopen⟩, h.below⟩

theorem nextLine_fault (h : Stands es d.stack top others) {fault : Fault}
    (hl : (nextLine d).1 = .error fault) :
    (∃ next, Stands (es ++ [.failed]) (nextLine d).2.stack next others) ∧
      (nextLine d).2.stack.locations = locationsAfter (es ++ [.failed]) := by
  replace hl : d.stack.readLine.1 = .error fault := hl
  rcases d.stack.readLine_cases with ⟨hread, -⟩ | ⟨input, below, reader, hs, hr, hread | hread⟩
  · rw [hread] at hl
    exact absurd hl (by simp)
  · obtain ⟨line, after, -, hread⟩ := hread
    rw [hread] at hl
    exact absurd hl (by simp)
  · obtain ⟨answer, -, -, hread⟩ := hread
    obtain ⟨rfl, rfl⟩ := List.cons.inj (h.inputs.symm.trans hs)
    have hmoved := h.moved (by rw [hr]; simp) (e := .failed) (.inl rfl) none true
    have hstack : (nextLine d).2.stack = _ := congrArg Prod.snd hread
    have hplace := congrArg (·.locations) hstack
    exact ⟨⟨_, hmoved.1.congr (congrArg (·.inputs) hstack) hplace⟩, hplace.trans hmoved.2⟩

/-- Lines that are handed out move the input on by as many. -/
theorem handed {lines : List Text} (h : Stands es d.stack top others)
    (hlines : Handed d lines d') :
    ∃ next, Stands (es ++ lines.map .read) d'.stack next others := by
  induction hlines with
  | start => exact ⟨top, by rwa [List.map_nil, List.append_nil]⟩
  | @line lines d' line _ hl ih =>
    obtain ⟨next, hnext⟩ := ih
    obtain ⟨next', hnext', -⟩ := hnext.nextLine_some hl
    rw [List.map_append, List.map_singleton, ← List.append_assoc]
    exact ⟨next', hnext'⟩
  | ending _ hl ih =>
    obtain ⟨next, hnext⟩ := ih
    exact hnext.nextLine_end hl
  | entry text _ ih =>
    obtain ⟨next, hnext⟩ := ih
    exact ⟨next, hnext.congr rfl rfl⟩

end Stands

/-! ### Moves -/

namespace Pass

variable {past es : List Event} {p q entered : Pass} {top : Input} {others : List Input}
  {file : String}

/-- The pass stands where the events have brought it, and a statement waits only while the input
that it came from is open. -/
def Tracks (es : List Event) (p : Pass) : Prop :=
  ∃ top others, Stands es p.stack top others ∧ (p.pp.queue ≠ [] → top.reader ≠ none)

/-- A file that is included begins before its first line. -/
theorem load_stands (h : Stands es p.stack top others) (hopen : top.reader ≠ none)
    (hload : p.load file = (true, entered)) :
    let path := p.stack.tree.search file p.stack.includePath
    entered.pp = p.pp ∧ ∃ next, next.reader ≠ none ∧
      Stands (es ++ [.opened path]) entered.stack next (top :: others) := by
  intro path
  obtain ⟨reader, -, hinputs⟩ := load_ok hload
  obtain ⟨asking, files, hfiles, hbelow, htop⟩ := h.files
  have hrest : entered.pp = p.pp ∧
      entered.stack.locations = p.stack.locations.set .asm { file := some path } := by
    unfold load enter at hload
    dsimp only at hload
    split at hload
    · rename_i stack hb
      obtain ⟨-, rfl⟩ := Prod.mk.inj hload
      refine ⟨rfl, ?_⟩
      show stack.locations = _
      unfold InputStack.bind InputStack.push at hb
      dsimp only at hb
      split at hb
      · exact absurd hb (by simp)
      · split at hb
        · exact absurd hb (by simp)
        · obtain ⟨-, rfl⟩ := Prod.mk.inj hb
          rfl
    · exact absurd hload (by simp)
  have hc : cLocation (es ++ [.opened path]) = cLocation es := cLocation_concat ⟨rfl, rfl⟩
  refine ⟨hrest.1, _, ?_, hinputs.trans (by rw [h.inputs]), ?_, ?_,
    ⟨{ path }, asking :: files, ?_, ?_, fun _ => rfl⟩, ?_⟩
  · exact Option.some_ne_none reader
  · rw [hrest.2, hc]
    exact h.c
  · rw [hrest.2]
    rfl
  · rw [openFiles_append, hfiles]
    rfl
  · rw [List.map_cons, List.map_cons, htop hopen, hbelow]
  · rintro input hinput
    rcases List.mem_cons.1 hinput with rfl | hinput
    · exact hopen
    · exact h.below input hinput

/-- A file that cannot be included leaves the places as they are, and is reported there. -/
theorem load_refused (h : Stands es p.stack top others) (hload : p.load file = (false, entered)) :
    Stands es entered.stack top others ∧ entered.pp.queue = p.pp.queue ∧
      ∃ fault, entered.pp.log = p.pp.log.report fault p.stack.locations := by
  have hinputs := load_error hload
  have hrest : entered.stack.locations = p.stack.locations ∧ entered.pp.queue = p.pp.queue ∧
      ∃ fault, entered.pp.log = p.pp.log.report fault p.stack.locations := by
    unfold load enter at hload
    dsimp only at hload
    split at hload
    · exact absurd hload (by simp)
    · rename_i fault stack hb
      obtain ⟨-, rfl⟩ := Prod.mk.inj hload
      have hbound : (∃ tried, stack.inputs = tried :: top :: others) ∧
          stack.locations = p.stack.locations := by
        unfold InputStack.bind InputStack.push at hb
        dsimp only at hb
        rw [h.inputs] at hb
        split at hb
        · obtain ⟨-, rfl⟩ := Prod.mk.inj hb
          exact ⟨⟨_, rfl⟩, rfl⟩
        · split at hb
          · obtain ⟨-, rfl⟩ := Prod.mk.inj hb
            exact ⟨⟨_, rfl⟩, rfl⟩
          · exact absurd hb (by simp)
      obtain ⟨⟨tried, htried⟩, hlocations⟩ := hbound
      refine ⟨?_, rfl, fault, ?_⟩
      · show stack.pop.locations = _
        rw [InputStack.pop_of_inputs htried, hlocations, ← h.asm]
        rfl
      · show p.pp.log.report fault stack.locations = _
        rw [hlocations]
  exact ⟨h.congr hinputs hrest.1, hrest.2⟩

/-- The end of an input brings the one below it back to the line that it was left at. -/
theorem leave_stands {next : Input} (h : Stands es p.stack top (next :: others)) :
    Stands (es ++ [.dropped]) p.leave.stack next others ∧ next.reader ≠ none := by
  have hpop : p.leave.stack = { p.stack with
      inputs := next :: others, locations := p.stack.locations.set .asm next.location } :=
    InputStack.pop_of_inputs h.inputs
  obtain ⟨file, files, hfiles, hbelow, -⟩ := h.files
  obtain ⟨file', below, rfl, hnext, hrest⟩ := List.map_eq_cons_iff.1 hbelow
  have hc : cLocation (es ++ [.dropped]) = cLocation es := cLocation_concat ⟨rfl, rfl⟩
  refine ⟨?_, h.below next List.mem_cons_self⟩
  rw [hpop]
  refine ⟨rfl, h.c.trans hc.symm, rfl, ⟨file', below, ?_, hrest, fun _ => hnext⟩, ?_⟩
  · rw [openFiles_append, hfiles]
    rfl
  · exact fun input hinput => h.below input (List.mem_cons_of_mem _ hinput)

/-- What a move reports comes last in it, at the place that the move has come to. -/
structure Reached (past es : List Event) (p q : Pass) (quiet : List Event)
    (new : List Diagnostic) : Prop where
  events : es = quiet ++ new.map .reported
  silent : ∀ e ∈ quiet, e.report? = none
  log : q.pp.log.entries = p.pp.log.entries ++ new
  tracks : Tracks (past ++ quiet) q
  placed : ∀ d ∈ new, d.locations = locationsAfter (past ++ quiet)

theorem reached_line {pp : Preprocessor} {desk : Desk} {line : Text} {lines : List Text}
    {new : List Diagnostic} (ht : Tracks past p) (hq : p.pp.queue = [])
    (hf : p.pp.fetchLine p.desk = (some line, pp, desk))
    (hlines : Handed desk lines (pp.processLine line desk).2)
    (hnew : (pp.processLine line desk).1.log.entries = p.pp.log.entries ++ new) :
    Reached past ((line :: lines).map .read ++ new.map .reported) p
      { p with pp := (pp.processLine line desk).1, desk := (pp.processLine line desk).2 }
      ((line :: lines).map .read) new := by
  obtain ⟨top, others, hstands, -⟩ := ht
  obtain ⟨hnext, rfl, hdesk⟩ := Preprocessor.fetchLine_some hf
  obtain ⟨next, hfirst, hopen⟩ := hstands.nextLine_some hnext
  have hread : Stands (past ++ [.read line]) desk.stack next others := by
    rw [hdesk]
    exact hfirst.congr rfl rfl
  have hplace : LineSource.locations (nextLine p.desk).2 =
      locationsAfter (past ++ [.read line]) := hfirst.locations hopen
  have hreadable : desk.Readable := by
    rw [hdesk]
    exact Desk.readable_of_line hnext
  have hall : past ++ (line :: lines).map .read =
      past ++ [.read line] ++ lines.map .read := by
    rw [List.map_cons, List.append_cons]
  have hsilent : ∀ e ∈ (line :: lines).map Event.read, e.report? = none := by
    intro e he
    obtain ⟨line', -, rfl⟩ := List.mem_map.1 he
    rfl
  rcases processLine_cases hreadable _ line with ⟨hsrc, faults, hlog⟩ | ⟨hlog, hqueue, -⟩
  · -- The line is reported about, and no more lines are taken.
    have hnone : lines = [] := by
      rw [hsrc] at hlines
      exact hlines.eq_nil
    have hfaults : new = faults.map fun fault =>
        ⟨fault, LineSource.locations (nextLine p.desk).2⟩ :=
      List.append_cancel_left (hnew.symm.trans (congrArg Log.entries hlog))
    refine ⟨rfl, hsilent, hnew, ⟨next, others, ?_, fun _ => hopen⟩, ?_⟩
    · rw [hall, hnone, List.map_nil, List.append_nil]
      exact hread.congr (congrArg (·.stack.inputs) hsrc) (congrArg (·.stack.locations) hsrc)
    · intro d hd
      rw [hfaults] at hd
      obtain ⟨fault, -, rfl⟩ := List.mem_map.1 hd
      rw [hall, hnone, List.map_nil, List.append_nil]
      exact hplace
  · -- More lines are taken, and nothing is reported.
    have hnone : new = [] :=
      List.append_cancel_left ((hnew.symm.trans (congrArg Log.entries hlog)).trans
        (List.append_nil _).symm)
    obtain ⟨last, hlast⟩ := hread.handed hlines
    refine ⟨rfl, hsilent, hnew, ⟨last, others, hall ▸ hlast, fun hne => ?_⟩, ?_⟩
    · exact absurd (hqueue.trans hq) hne
    · rw [hnone]
      exact fun d hd => absurd hd List.not_mem_nil

theorem reached_obeyed {statement : Text} {waiting : List Text} {new : List Diagnostic}
    (ht : Tracks past p) (hq : p.pp.queue = statement :: waiting) (hs : p.step = (.done, q))
    (hnew : q.pp.log.entries = p.pp.log.entries ++ new) :
    Reached past (Event.ofStatement statement ++ new.map .reported) p q
      (Event.ofStatement statement) new := by
  obtain ⟨top, others, hstands, hwaits⟩ := ht
  have hopen : top.reader ≠ none := hwaits (by rw [hq]; exact List.cons_ne_nil _ _)
  have hplace := hstands.locations hopen
  have hsame : ∀ {entries : List Diagnostic}, entries = entries ++ new → new = [] := fun h =>
    List.append_cancel_left (h.symm.trans (List.append_nil _).symm)
  rw [step_of_queue hq] at hs
  unfold obey at hs
  unfold Event.ofStatement
  split at hs
  · rename_i hcommand
    obtain ⟨-, rfl⟩ := Prod.mk.inj hs
    rw [hcommand]
    obtain rfl := hsame hnew
    refine ⟨rfl, by simp, hnew, ⟨top, others, ?_, fun _ => hopen⟩, by simp⟩
    rw [List.append_nil]
    exact hstands.congr rfl rfl
  · exact absurd (congrArg Prod.fst hs) (by simp)
  · rename_i line file hcommand
    obtain ⟨-, rfl⟩ := Prod.mk.inj hs
    rw [hcommand]
    obtain rfl := hsame hnew
    refine ⟨rfl, by simp [Event.report?], hnew, ⟨top, others, ?_, fun _ => hopen⟩, by simp⟩
    refine ⟨hstands.inputs, ?_, hstands.asm, ?_, hstands.below⟩
    · rw [cLocation_cLine, ← hstands.c]
      rfl
    · rw [openFiles_append]
      exact hstands.files
  · rename_i hcommand
    obtain ⟨-, rfl⟩ := Prod.mk.inj hs
    rw [hcommand]
    refine ⟨rfl, by simp, hnew, ⟨top, others, ?_, fun _ => hopen⟩, ?_⟩
    · rw [List.append_nil]
      exact hstands.congr rfl rfl
    · obtain rfl : _ = new := List.append_cancel_left hnew
      intro d hd
      obtain rfl := List.mem_singleton.1 hd
      rw [List.append_nil]
      exact hplace

/-- A statement that asks for a file only leaves the queue before that. -/
theorem stands_of_asked {statement : Text} {waiting : List Text}
    (h : Stands past p.stack top others) (hq : p.pp.queue = statement :: waiting)
    (hs : p.step = (.asked file, q)) :
    Stands past q.stack top others ∧ q.stack.locations = p.stack.locations ∧
      q.pp.log = p.pp.log := by
  rw [step_of_queue hq] at hs
  unfold obey at hs
  split at hs
  · exact absurd (congrArg Prod.fst hs) (by simp)
  · obtain ⟨-, rfl⟩ := Prod.mk.inj hs
    exact ⟨h.congr rfl rfl, rfl, rfl⟩
  · exact absurd (congrArg Prod.fst hs) (by simp)
  · exact absurd (congrArg Prod.fst hs) (by simp)

/-- Every move of a pass that is in line with the events keeps it in line. -/
theorem Move.reached (hm : Move p es q) (ht : Tracks past p) :
    ∃ quiet new, Reached past es p q quiet new := by
  cases hm with
  | line hq hf hlines hnew => exact ⟨_, _, reached_line ht hq hf hlines hnew⟩
  | @ended pp desk hq hf hend =>
    obtain ⟨top, others, hstands, -⟩ := ht
    obtain ⟨next, hnext⟩ := hstands.nextLine_end hend
    have hempty := p.pp.fetchLine_queue p.desk
    rw [hf] at hempty
    unfold Preprocessor.fetchLine at hf
    dsimp only at hf
    rw [hend] at hf
    obtain ⟨-, rfl, rfl⟩ : _ ∧ _ ∧ _ := by simpa only [Prod.mk.injEq] using hf
    refine ⟨[], [], rfl, by simp, (List.append_nil _).symm, ⟨next, others, ?_, ?_⟩, by simp⟩
    · rwa [List.append_nil]
    · exact fun hne => absurd (hempty.trans hq) hne
  | @failed pp desk fault new hq hf hfault hnew =>
    obtain ⟨top, others, hstands, -⟩ := ht
    obtain ⟨⟨next, hnext⟩, hplace⟩ := hstands.nextLine_fault hfault
    have hempty := p.pp.fetchLine_queue p.desk
    rw [hf] at hempty
    unfold Preprocessor.fetchLine at hf
    dsimp only at hf
    rw [hfault] at hf
    obtain ⟨-, rfl, rfl⟩ : _ ∧ _ ∧ _ := by simpa only [Prod.mk.injEq] using hf
    obtain rfl : _ = new := List.append_cancel_left hnew
    refine ⟨[.failed], _, rfl, by simp [Event.report?], hnew, ⟨next, others, hnext, ?_⟩, ?_⟩
    · exact fun hne => absurd (hempty.trans hq) hne
    · intro d hd
      obtain rfl := List.mem_singleton.1 hd
      exact hplace
  | obeyed hq hs hnew => exact ⟨_, _, reached_obeyed ht hq hs hnew⟩
  | @refused asked _ file statement waiting new hq hs hload hnew =>
    obtain ⟨top, others, hstands, hwaits⟩ := ht
    have hopen : top.reader ≠ none := hwaits (by rw [hq]; exact List.cons_ne_nil _ _)
    obtain ⟨hasked, hlocations, hlog⟩ := stands_of_asked hstands hq hs
    obtain ⟨hafter, -, fault, hreport⟩ := load_refused hasked hload
    have hfault : new = [⟨fault, asked.stack.locations⟩] := by
      refine List.append_cancel_left (hnew.symm.trans ?_)
      rw [hreport, hlog]
      rfl
    refine ⟨[], new, rfl, by simp, hnew, ⟨top, others, ?_, fun _ => hopen⟩, ?_⟩
    · rwa [List.append_nil]
    · intro d hd
      rw [hfault] at hd
      obtain rfl := List.mem_singleton.1 hd
      rw [List.append_nil]
      exact hlocations.trans (hstands.locations hopen)
  | @loaded asked _ file statement waiting hq hs hload =>
    obtain ⟨top, others, hstands, hwaits⟩ := ht
    have hopen : top.reader ≠ none := hwaits (by rw [hq]; exact List.cons_ne_nil _ _)
    obtain ⟨hasked, -, hlog⟩ := stands_of_asked hstands hq hs
    obtain ⟨hpp, next, hnext, hafter⟩ := load_stands hasked hopen hload
    refine ⟨[.opened _], [], rfl, by simp [Event.report?], ?_, ⟨next, _, hafter, fun _ => hnext⟩,
      by simp⟩
    rw [hpp, hlog, List.append_nil]
  | @dropped top next others hq hinputs hend =>
    obtain ⟨top', others', hstands, -⟩ := ht
    obtain ⟨rfl, rfl⟩ := List.cons.inj (hstands.inputs.symm.trans hinputs)
    obtain ⟨hafter, hopen⟩ := leave_stands hstands
    exact ⟨[.dropped], [], rfl, by simp [Event.report?], (List.append_nil _).symm,
      ⟨next, others, hafter, fun _ => hopen⟩, by simp⟩

/-- And so does every course. -/
theorem Course.placed (h : Course p es q) (ht : Tracks past p) (hplaced : Placed past) :
    Tracks (past ++ es) q ∧ Placed (past ++ es) ∧
      q.pp.log.entries = p.pp.log.entries ++ reports es := by
  induction h with
  | start =>
    rw [List.append_nil]
    exact ⟨ht, hplaced, (List.append_nil _).symm⟩
  | @move q r es more _ hm ih =>
    obtain ⟨htracks, hsofar, hlog⟩ := ih
    obtain ⟨quiet, new, hreached⟩ := hm.reached htracks
    obtain ⟨top, others, hstands, hwaits⟩ := hreached.tracks
    rw [← List.append_assoc, hreached.events, ← List.append_assoc]
    refine ⟨⟨top, others, hstands.reported new, hwaits⟩, ?_, ?_⟩
    · exact (hsofar.append_quiet hreached.silent).append_reported hreached.placed
    · have hquiet : quiet.filterMap Event.report? = [] :=
        List.filterMap_eq_nil_iff.2 hreached.silent
      have hnew : (new.map Event.reported).filterMap Event.report? = new := by
        rw [List.filterMap_map]
        exact List.filterMap_some
      rw [hreached.log, hlog]
      unfold reports
      rw [List.filterMap_append, List.filterMap_append, hquiet, hnew, List.nil_append,
        List.append_assoc]

end Pass

/-! ### A run over a file -/

section Start

variable {settings : Settings} {sofar : Tally} {path : String} {p : Pass}

end Start

/-- Without a listing nothing is recorded. -/
theorem Desk.record_of_none {d : Desk} (h : d.listing = none) (entry : Text) :
    LineSource.record entry d = d := by
  obtain ⟨stack, listing⟩ := d
  obtain rfl : listing = none := h
  rfl

namespace Pass

variable {p : Pass} {line : Text} {lines : List Text} {l : Location}

/-- The pass is between two lines, with these to come, and keeps no listing. -/
structure Reads (p : Pass) (lines : List Text) (l : Location) : Prop where
  queue : p.pp.queue = []
  listing : p.desk.listing = none
  serves : p.stack.Serves lines l

/-- The next line is fetched from the place below. -/
theorem Reads.fetchLine (h : p.Reads (line :: lines) l) :
    ∃ pp desk, p.pp.fetchLine p.desk = (some line, pp, desk) ∧
      Reads { p with pp, desk } lines (l.down 1) ∧ pp.locations.asm = l.down 1 ∧
      pp.log = p.pp.log := by
  obtain ⟨hline, hserves⟩ := h.serves.readLine
  have hnext : (nextLine p.desk).1 = .ok (some line) := hline
  have hlisting : (nextLine p.desk).2.listing = none := h.listing
  refine ⟨{ p.pp with locations := LineSource.locations (nextLine p.desk).2 },
    (nextLine p.desk).2, ?_, ⟨h.queue, hlisting, hserves⟩, hserves.asm, rfl⟩
  unfold Preprocessor.fetchLine
  dsimp only
  rw [hnext]
  dsimp only
  rw [Desk.record_of_none hlisting]

end Pass

end AsmPrep.Run
