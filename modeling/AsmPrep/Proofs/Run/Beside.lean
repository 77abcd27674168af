/-
Two passes over one input, after different pasts.

One of the runs has written more before, to the same files.  As long as neither of them
reads what it writes, they read the same, make the same statements and the same reports,
and write the same; what was written before stays in front of it.  The names that a run has
met are of no consequence.
-/
import AsmPrep.Proofs.Preprocessor.Lockstep
import AsmPrep.Proofs.Run.Outlets
import AsmPrep.Run.Complete

namespace AsmPrep.Run

open Files
open Preprocessor (Paired)

/-- Two runs that came from one tree: the places that both write to, and the texts that one of
them has written there before. -/
structure Pasts where
  outlets : Outlets
  tree : Tree
  output : Text := []
  listing : Text := []

namespace Pasts

variable (b : Pasts)

/-! ### Inputs and listings -/

/-- The inputs are the same and read nothing that is written, and what was written differs by
what was written before. -/
structure Desks (output output' : Option Writer) (d d' : Desk) : Prop where
  inputs : d.stack.inputs = d'.stack.inputs
  locations : d.stack.locations = d'.stack.locations
  includePath : d.stack.includePath = d'.stack.includePath
  clear : d.stack.Clear b.outlets.Written
  kept : b.outlets.Kept b.tree d.stack.tree output d.listing
  kept' : b.outlets.Kept b.tree d'.stack.tree output' d'.listing
  output : Ahead b.output d.stack.tree d'.stack.tree output output'
  listing : Ahead b.listing d.stack.tree d'.stack.tree d.listing d'.listing

namespace Desks

variable {b} {output output' : Option Writer} {d d' : Desk}

theorem record (h : b.Desks output output' d d') (entry : Text) :
    b.Desks output output' (LineSource.record entry d) (LineSource.record entry d') where
  inputs := h.inputs
  locations := h.locations
  includePath := h.includePath
  clear := h.clear
  kept := h.kept.writeListing entry
  kept' := h.kept'.writeListing entry
  output := h.output.of_at?
    (fun _ hx => h.kept.listing.at?_writeTo (b.outlets.apart _ (h.kept.output.mem hx)) entry)
    (fun _ hx => h.kept'.listing.at?_writeTo (b.outlets.apart _ (h.kept'.output.mem hx)) entry)
  listing := h.listing.write entry

theorem nextLine (h : b.Desks output output' d d') :
    (LineSource.nextLine d).1 = (LineSource.nextLine d').1 ∧
      b.Desks output output' (LineSource.nextLine d).2 (LineSource.nextLine d').2 := by
  obtain ⟨hline, hinputs, hlocations⟩ :=
    InputStack.readLine_congr h.inputs h.locations (h.kept.agrees h.kept') h.clear
  have htree : (LineSource.nextLine d).2.stack.tree = d.stack.tree := d.stack.readLine_tree
  have htree' : (LineSource.nextLine d').2.stack.tree = d'.stack.tree := d'.stack.readLine_tree
  refine ⟨hline, ⟨hinputs, hlocations, ?_, ?_, ?_, ?_, ?_, ?_⟩⟩
  · exact d.stack.readLine_includePath.trans
      (h.includePath.trans d'.stack.readLine_includePath.symm)
  · exact h.clear.readLine
  · rw [htree]
    exact h.kept
  · rw [htree']
    exact h.kept'
  · rw [htree, htree']
    exact h.output
  · rw [htree, htree']
    exact h.listing

end Desks

/-- Two such desks answer alike. -/
def lockstep (output output' : Option Writer) : Lockstep Desk Desk where
  Alike := b.Desks output output'
  Near := Eq
  Over := fun _ => False
  near h := h.locations
  next h := .inr h.nextLine
  record _ h hl := hl ▸ h.record _
  over_next h := h
  over_record _ h := h

/-! ### Passes -/

/-- Passes that go on in the same way. -/
structure Passes (p p' : Pass) : Prop where
  pp : Paired Eq [] [] p.pp p'.pp
  desk : b.Desks p.output p'.output p.desk p'.desk
  written : p.written = p'.written

namespace Passes

variable {b} {p p' : Pass}

/-- The inputs may change, and the files stay as they are. -/
theorem withStack (h : b.Passes p p') {s s' : InputStack} (hinputs : s.inputs = s'.inputs)
    (hlocations : s.locations = s'.locations) (hpath : s.includePath = s'.includePath)
    (hclear : s.Clear b.outlets.Written) (htree : s.tree = p.stack.tree)
    (htree' : s'.tree = p'.stack.tree) : b.Passes (p.withStack s) (p'.withStack s') where
  pp := h.pp
  written := h.written
  desk :=
    { inputs := hinputs
      locations := hlocations
      includePath := hpath
      clear := hclear
      kept := show b.outlets.Kept b.tree s.tree p.output p.desk.listing from htree ▸ h.desk.kept
      kept' := show b.outlets.Kept b.tree s'.tree p'.output p'.desk.listing from
        htree' ▸ h.desk.kept'
      output := show Ahead b.output s.tree s'.tree p.output p'.output from
        htree ▸ htree' ▸ h.desk.output
      listing := show Ahead b.listing s.tree s'.tree p.desk.listing p'.desk.listing from
        htree ▸ htree' ▸ h.desk.listing }

theorem report (h : b.Passes p p') (fault : Fault) : b.Passes (p.report fault) (p'.report fault) :=
  { h with pp := h.pp.reportAt fault h.desk.locations }

theorem write (h : b.Passes p p') (statement : Text) :
    b.Passes (p.write statement) (p'.write statement) where
  pp := h.pp
  written := congrArg (statement :: ·) h.written
  desk :=
    { inputs := h.desk.inputs
      locations := h.desk.locations
      includePath := h.desk.includePath
      clear := h.desk.clear
      kept := h.desk.kept.writeOutput statement
      kept' := h.desk.kept'.writeOutput statement
      output := h.desk.output.write statement
      listing := h.desk.listing.of_at?
        (fun _ hx => h.desk.kept.output.at?_writeTo
          (fun hmem => b.outlets.apart _ hmem (h.desk.kept.listing.mem hx)) statement)
        (fun _ hx => h.desk.kept'.output.at?_writeTo
          (fun hmem => b.outlets.apart _ hmem (h.desk.kept'.listing.mem hx)) statement) }

theorem setCLine (h : b.Passes p p') (line : UInt32) (file : Option String) :
    b.Passes (p.setCLine line file) (p'.setCLine line file) := by
  unfold Pass.setCLine
  refine h.withStack h.desk.inputs ?_ h.desk.includePath h.desk.clear rfl rfl
  have hlocations : p.stack.locations = p'.stack.locations := h.desk.locations
  unfold InputStack.setLocation
  rw [hlocations]

theorem obey (h : b.Passes p p') (statement : Text) :
    (p.obey statement).1 = (p'.obey statement).1 ∧
      b.Passes (p.obey statement).2 (p'.obey statement).2 := by
  unfold Pass.obey
  split
  · exact ⟨rfl, h.write statement⟩
  · exact ⟨rfl, h⟩
  · exact ⟨rfl, h.setCLine _ _⟩
  · exact ⟨rfl, h.report _⟩

/-- **One statement is the same for both.** -/
theorem step (h : b.Passes p p') : p.step.1 = p'.step.1 ∧ b.Passes p.step.2 p'.step.2 := by
  have hnext := Lockstep.nextStatement (L := b.lockstep p.output p'.output) h.pp h.desk
  rcases hnext with hover | ⟨hanswer, hpp, hdesk⟩
  · exact absurd hover id
  · unfold Pass.step
    match hn : p.pp.nextStatement p.desk, hn' : p'.pp.nextStatement p'.desk with
    | (answer, pp, desk), (answer', pp', desk') =>
      rw [hn, hn'] at hanswer hpp hdesk
      obtain rfl : answer = answer' := hanswer
      have hnow : b.Passes { p with pp, desk } { p' with pp := pp', desk := desk' } :=
        ⟨hpp, hdesk, h.written⟩
      cases answer with
      | none => exact ⟨rfl, hnow⟩
      | some statement => exact hnow.obey statement

theorem leave (h : b.Passes p p') : b.Passes p.leave p'.leave := by
  obtain ⟨hinputs, hlocations⟩ := InputStack.pop_congr h.desk.inputs h.desk.locations
  refine h.withStack hinputs hlocations ?_ ?_ (InputStack.pop_tree _) (InputStack.pop_tree _)
  · exact (InputStack.pop_includePath _).trans
      (h.desk.includePath.trans (InputStack.pop_includePath _).symm)
  · refine h.desk.clear.of_inputs fun input hi => ?_
    rw [show (p.stack.pop).inputs = _ from Pass.pop_inputs _] at hi
    exact List.mem_of_mem_tail hi

theorem push (h : b.Passes p p') :
    b.Passes (p.withStack p.stack.push) (p'.withStack p'.stack.push) := by
  refine h.withStack (congrArg (List.cons ({} : Input)) h.desk.inputs) h.desk.locations
    h.desk.includePath ?_ rfl rfl
  intro input hi place hp
  rcases List.mem_cons.1 hi with rfl | hi
  · exact absurd hp (Option.not_mem_none _)
  · exact h.desk.clear input hi place hp

/-- What is opened in the top input is opened by both or by neither. -/
theorem bind (h : b.Passes p p') (asked file : String) (reader? : Option Reader)
    (hclear : (p'.stack.bind asked file reader?).1 = .ok () →
      (p'.stack.bind asked file reader?).2.Clear b.outlets.Written) :
    (p.stack.bind asked file reader?).1 = (p'.stack.bind asked file reader?).1 ∧
      b.Passes (p.withStack (p.stack.bind asked file reader?).2)
        (p'.withStack (p'.stack.bind asked file reader?).2) := by
  obtain ⟨hdone, hinputs, hlocations⟩ :=
    InputStack.bind_congr (s := p.stack) (t := p'.stack) h.desk.inputs h.desk.locations asked file
      reader?
  refine ⟨hdone, h.withStack hinputs hlocations ?_ ?_ (InputStack.bind_tree _ _ _ _)
    (InputStack.bind_tree _ _ _ _)⟩
  · exact (InputStack.bind_includePath _ _ _ _).trans
      (h.desk.includePath.trans (InputStack.bind_includePath _ _ _ _).symm)
  · match hb : p.stack.bind asked file reader? with
    | (.ok _, s) =>
      refine (hclear (hdone ▸ congrArg Prod.fst hb)).of_inputs fun input hi => ?_
      rw [← hinputs, hb]
      exact hi
    | (.error fault, s) => exact h.desk.clear.bind_error hb

/-- Files are found and opened alike. -/
theorem found (h : b.Passes p p') (file : String) :
    p.stack.tree.search file p.stack.includePath =
        p'.stack.tree.search file p'.stack.includePath ∧
      ∀ path, p.stack.tree.reader? path = p'.stack.tree.reader? path := by
  have hagrees := h.desk.kept.agrees h.desk.kept'
  have hpath : p.stack.includePath = p'.stack.includePath := h.desk.includePath
  exact ⟨hpath ▸ hagrees.search file _, hagrees.reader?⟩

/-- A file is put on the stack by both or by neither. -/
theorem load (h : b.Passes p p') (file : String)
    (hclear : (p'.load file).2.stack.Clear b.outlets.Written) :
    (p.load file).1 = (p'.load file).1 ∧ b.Passes (p.load file).2 (p'.load file).2 := by
  obtain ⟨hpath, hreader⟩ := h.found file
  have hbind := h.push.bind file (p'.stack.tree.search file p'.stack.includePath)
    (p'.stack.tree.reader? (p'.stack.tree.search file p'.stack.includePath))
  unfold Pass.load Pass.enter at hclear ⊢
  dsimp only at hclear ⊢
  rw [hpath, hreader]
  dsimp only [Pass.stack, Pass.withStack] at hbind hclear ⊢
  generalize p'.desk.stack.tree.search file p'.desk.stack.includePath = path at *
  generalize p'.desk.stack.tree.reader? path = reader? at *
  match hb : p.desk.stack.push.bind file path reader?,
    hb' : p'.desk.stack.push.bind file path reader? with
  | (done, s), (done', s') =>
    rw [hb'] at hclear
    rw [hb, hb'] at hbind
    cases done' with
    | ok _ =>
      obtain ⟨hdone, hnow⟩ := hbind fun _ => hclear
      obtain rfl : done = .ok () := hdone
      exact ⟨rfl, hnow⟩
    | error fault =>
      obtain ⟨hdone, hnow⟩ := hbind fun hok => absurd hok (by simp)
      obtain rfl : done = .error fault := hdone
      exact ⟨rfl, (hnow.report fault).leave⟩

/-- A top-level file is opened by both or by neither. -/
theorem opened (h : b.Passes p p') (file : String)
    (hclear : (p'.opened (p'.stack.openFile file)).1 = true →
      (p'.opened (p'.stack.openFile file)).2.stack.Clear b.outlets.Written) :
    (p.opened (p.stack.openFile file)).1 = (p'.opened (p'.stack.openFile file)).1 ∧
      b.Passes (p.opened (p.stack.openFile file)).2 (p'.opened (p'.stack.openFile file)).2 := by
  obtain ⟨hpath, hreader⟩ := h.found file
  have hbind := h.bind file (p'.stack.tree.search file p'.stack.includePath)
    (p'.stack.tree.reader? (p'.stack.tree.search file p'.stack.includePath))
  unfold InputStack.openFile at hclear ⊢
  dsimp only at hclear ⊢
  rw [hpath, hreader]
  generalize p'.stack.tree.search file p'.stack.includePath = path at *
  generalize p'.stack.tree.reader? path = reader? at *
  match hb : p.stack.bind file path reader?, hb' : p'.stack.bind file path reader? with
  | (done, s), (done', s') =>
    rw [hb'] at hclear
    rw [hb, hb'] at hbind
    cases done' with
    | ok _ =>
      obtain ⟨hdone, hnow⟩ := hbind fun _ => hclear rfl
      obtain rfl : done = .ok () := hdone
      exact ⟨rfl, hnow⟩
    | error fault =>
      obtain ⟨hdone, hnow⟩ := hbind fun hok => absurd hok (by simp)
      obtain rfl : done = .error fault := hdone
      exact ⟨rfl, hnow.report fault⟩

end Passes

/-! ### Whole runs -/

/-- **A run goes the same way after either past**, when it reads nothing that it writes. -/
theorem Passes.follow {b : Pasts} {p p' : Pass} (h : b.Passes p p')
    (hclear : ∀ r, p'.Meets r → r.stack.Clear b.outlets.Written) : b.Passes p.follow p'.follow := by
  induction p' using Pass.follow_induction generalizing p with
  | exhausted p' q' hs' =>
    obtain ⟨hanswer, hnow⟩ := h.step
    rw [hs'] at hanswer hnow
    have hs : p.step = (.exhausted, p.step.2) := Prod.ext hanswer rfl
    rw [Pass.follow_exhausted hs]
    exact hnow
  | done p' q' hs' ih =>
    obtain ⟨hanswer, hnow⟩ := h.step
    rw [hs'] at hanswer hnow
    have hs : p.step = (.done, p.step.2) := Prod.ext hanswer rfl
    rw [Pass.follow_done hs]
    exact ih hnow fun r hr => hclear r (.done hs' hr)
  | refused p' q' file entered' hs' hload' ih =>
    obtain ⟨hanswer, hnow⟩ := h.step
    rw [hs'] at hanswer hnow
    have hcl := hclear _ (.loading hs' (.self _))
    obtain ⟨hsame, hentered⟩ := hnow.load file hcl
    rw [hload'] at hsame hentered
    have hs : p.step = (.asked file, p.step.2) := Prod.ext hanswer rfl
    have hload : p.step.2.load file = (false, (p.step.2.load file).2) := Prod.ext hsame rfl
    rw [Pass.follow_refused hs hload]
    exact ih hentered fun r hr => hclear r (.loading hs' (by rw [hload']; exact hr))
  | loaded p' q' file entered' hs' hload' ihi ihr =>
    obtain ⟨hanswer, hnow⟩ := h.step
    rw [hs'] at hanswer hnow
    have hcl := hclear _ (.loading hs' (.self _))
    obtain ⟨hsame, hentered⟩ := hnow.load file hcl
    rw [hload'] at hsame hentered
    have hs : p.step = (.asked file, p.step.2) := Prod.ext hanswer rfl
    have hload : p.step.2.load file = (true, (p.step.2.load file).2) := Prod.ext hsame rfl
    rw [Pass.follow_loaded hs hload]
    have hinner := ihi hentered fun r hr => hclear r (.loading hs' (by rw [hload']; exact hr))
    exact ihr hinner.leave fun r hr => hclear r (.leaving hs' hload' hr)

end Pasts

end AsmPrep.Run
