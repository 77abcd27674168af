/-
A complete run, taken apart.

A run makes the files that it writes, goes through its inputs and ends.  Each input is a pass
that begins with the predefined macros, over what the input before has left.  What one pass
keeps up is therefore kept up by all inputs, and an input can be looked at on its own.
-/
import AsmPrep.Proofs.Preprocessor.Lockstep
import AsmPrep.Proofs.Run.Outlets
import AsmPrep.Run.Complete

namespace AsmPrep.Run

open Files
open Preprocessor (Paired)

/-! ### The start of an input -/

section Start

variable {Near : Locations → Locations → Prop} {old old' : List Diagnostic} {pp pp' : Preprocessor}

theorem predefine_paired (h : Paired Near old old' pp pp') (hnear : Near {} {})
    (defines : List (String × String)) :
    Paired Near old old' (predefine pp defines) (predefine pp' defines) := by
  unfold predefine
  induction defines generalizing pp pp' with
  | nil => exact h
  | cons define defines ih =>
    rw [List.foldl_cons, List.foldl_cons]
    refine ih ?_
    obtain ⟨hdone, hnow⟩ := h.define define.1 define.2
    match hd : pp.define define.1 define.2, hd' : pp'.define define.1 define.2 with
    | (done, pp), (done', pp') =>
      rw [hd, hd'] at hdone hnow
      obtain rfl : done = done' := hdone
      cases done with
      | ok _ => exact hnow
      | error fault => exact hnow.reportAt fault hnear

end Start

/-- Predefined macros make no statement. -/
theorem predefine_queue (pp : Preprocessor) (defines : List (String × String)) :
    (predefine pp defines).queue = pp.queue := by
  unfold predefine
  induction defines generalizing pp with
  | nil => rfl
  | cons define defines ih =>
    rw [List.foldl_cons, ih]
    unfold Preprocessor.define
    dsimp only
    cases pp.table.define? define.1 with
    | none => rfl
    | some table => rfl

/-! ### Inputs, one after the other -/

/-- The pass over a top-level file once it was opened, and whether it could be. -/
def begin (settings : Settings) (sofar : Tally) (path : String) : Bool × Pass :=
  let p := start settings sofar
  p.opened (p.stack.openFile path)

/-- Runs files in order. -/
def runFiles (settings : Settings) (sofar : Tally) (paths : List String) : Tally :=
  paths.foldl (fun sofar path => runInput settings [] sofar (.file path)) sofar

theorem runFiles_nil (settings : Settings) (sofar : Tally) :
    runFiles settings sofar [] = sofar := rfl

theorem runFiles_cons (settings : Settings) (sofar : Tally) (path : String) (paths : List String) :
    runFiles settings sofar (path :: paths) =
      runFiles settings (runInput settings [] sofar (.file path)) paths := List.foldl_cons ..

theorem openInput_file (p : Pass) (stdin : Text) (path : String) :
    (p.openInput .known stdin (.file path)).run = p.opened (p.stack.openFile path) := by
  unfold Pass.openInput
  dsimp only
  rw [Id.run_bind, Id.run_bind, Id.run_pure]
  exact congrArg p.opened rfl

theorem openInput_standardInput (p : Pass) (stdin : Text) :
    (p.openInput .known stdin .standardInput).run =
      p.opened (p.stack.openText standardInputName stdin) := by
  unfold Pass.openInput
  exact Id.run_pure _

theorem runInput_file (settings : Settings) (stdin : Text) (sofar : Tally) (path : String) :
    runInput settings stdin sofar (.file path) =
      sofar.add (if (begin settings sofar path).1 then (begin settings sofar path).2.follow
        else (begin settings sofar path).2) := by
  show (runInputOn .known settings stdin sofar (.file path)).run = _
  unfold runInputOn begin
  rw [Id.run_bind, openInput_file]
  dsimp only
  match (start settings sofar).opened ((start settings sofar).stack.openFile path) with
  | (true, pass) => rfl
  | (false, pass) => rfl

theorem runInput_standardInput (settings : Settings) (stdin : Text) (sofar : Tally) :
    runInput settings stdin sofar .standardInput =
      let p := start settings sofar
      let opened := p.opened (p.stack.openText standardInputName stdin)
      sofar.add (if opened.1 then opened.2.follow else opened.2) := by
  show (runInputOn .known settings stdin sofar .standardInput).run = _
  unfold runInputOn
  rw [Id.run_bind, openInput_standardInput]
  dsimp only
  match (start settings sofar).opened
      ((start settings sofar).stack.openText standardInputName stdin) with
  | (true, pass) => rfl
  | (false, pass) => rfl

section Inputs

variable (settings : Settings) (sofar : Tally) (inputs : List Origin)

theorem runInputs_nil (stdin : Except String Text) :
    runInputs settings stdin [] sofar = (none, sofar) := by
  cases stdin <;> rfl

theorem runInputs_file (stdin : Except String Text) (path : String) :
    runInputs settings stdin (.file path :: inputs) sofar =
      runInputs settings stdin inputs (runInput settings [] sofar (.file path)) := by
  cases stdin <;> rfl

theorem runInputs_unreadable (message : String) :
    runInputs settings (.error message) (.standardInput :: inputs) sofar =
      (some (.io standardInputName message), sofar) := rfl

theorem runInputs_standardInput (text : Text) :
    runInputs settings (.ok text) (.standardInput :: inputs) sofar =
      runInputs settings (.ok []) inputs (runInput settings text sofar .standardInput) := rfl

end Inputs

theorem runInputs_files (settings : Settings) (stdin : Except String Text) (paths : List String)
    (sofar : Tally) :
    runInputs settings stdin (paths.map .file) sofar = (none, runFiles settings sofar paths) := by
  induction paths generalizing sofar with
  | nil =>
    cases stdin <;> rfl
  | cons path paths ih =>
    rw [List.map_cons, runInputs_file, runFiles_cons]
    exact ih _

/-- Inputs that are run without a failure, and then files. -/
theorem runInputs_append {settings : Settings} {stdin : Except String Text} {inputs : List Origin}
    {sofar : Tally} (paths : List String) :
    runInputs settings stdin (inputs ++ paths.map .file) sofar =
      match runInputs settings stdin inputs sofar with
      | (none, done) => (none, runFiles settings done paths)
      | (some failure, done) => (some failure, done) := by
  induction inputs generalizing stdin sofar with
  | nil =>
    rw [List.nil_append, runInputs_files, runInputs_nil]
  | cons input inputs ih =>
    match stdin, input with
    | stdin, .file path =>
      rw [List.cons_append, runInputs_file, runInputs_file]
      exact ih
    | .error message, .standardInput =>
      rw [List.cons_append, runInputs_unreadable, runInputs_unreadable]
    | .ok text, .standardInput =>
      rw [List.cons_append, runInputs_standardInput, runInputs_standardInput]
      exact ih

section Steps

variable {settings : Settings} {sofar : Tally} {path : String} {n : Nat}

theorem runInput_of_unopened (hopened : (begin settings sofar path).1 = false) :
    runInput settings [] sofar (.file path) = sofar.add (begin settings sofar path).2 := by
  rw [runInput_file, if_neg (by rw [hopened]; exact Bool.false_ne_true)]

/-- A file that includes nothing is run step by step. -/
theorem runInput_of_steps (hopened : (begin settings sofar path).1 = true)
    (hdone : ∀ i < n, (Pass.advance^[i] (begin settings sofar path).2).step.1 = .done)
    (hend : (Pass.advance^[n] (begin settings sofar path).2).step.1 = .exhausted) :
    runInput settings [] sofar (.file path) =
      sofar.add (Pass.advance^[n + 1] (begin settings sofar path).2) := by
  rw [runInput_file, if_pos hopened, Pass.follow_of_steps hdone hend]

/-- A file that only includes such a file. -/
theorem runInput_of_include (file : String)
    (hopened : (begin settings sofar path).1 = true)
    (hasked : (begin settings sofar path).2.step.1 = .asked file) :
    let entered := (begin settings sofar path).2.advance.load file
    entered.1 = true → (∀ i < n, (Pass.advance^[i] entered.2).step.1 = .done) →
    (Pass.advance^[n] entered.2).step.1 = .exhausted →
    (Pass.advance^[n + 1] entered.2).leave.step.1 = .exhausted →
    runInput settings [] sofar (.file path) =
      sofar.add (Pass.advance^[n + 1] entered.2).leave.advance := by
  intro entered hload hdone hend hlast
  have hstep : (begin settings sofar path).2.step = (.asked file, _) := Prod.ext hasked rfl
  have hentered : (begin settings sofar path).2.step.2.load file = (true, entered.2) :=
    Prod.ext hload rfl
  have hlast' : (Pass.advance^[n + 1] entered.2).leave.step = (.exhausted, _) := Prod.ext hlast rfl
  rw [runInput_file, if_pos hopened, Pass.follow_loaded hstep hentered,
    Pass.follow_of_steps hdone hend, Pass.follow_exhausted hlast']
  rfl

end Steps

/-! ### What any inputs leave -/

section Left

variable {k : Upkeep}

theorem start_kept {t : Tally} (h : k.Holds t.tree t.output t.listing) (settings : Settings) :
    (start settings t).Kept k := k.flushListing h

theorem opened_kept {p : Pass} (h : p.Kept k) (asked file : String) (reader? : Option Reader) :
    (p.opened (p.stack.bind asked file reader?)).2.Kept k := by
  have htree := p.stack.bind_tree asked file reader?
  unfold Pass.opened
  match hb : p.stack.bind asked file reader? with
  | (.ok _, s) =>
    rw [hb] at htree
    show k.Holds s.tree p.output p.desk.listing
    exact htree ▸ h
  | (.error fault, s) =>
    rw [hb] at htree
    show k.Holds s.tree p.output p.desk.listing
    exact htree ▸ h

theorem add_kept {p : Bool × Pass} (h : p.2.Kept k) (t : Tally) :
    let after := t.add (if p.1 then p.2.follow else p.2)
    k.Holds after.tree after.output after.listing ∧ after.pp.log.entries = [] := by
  intro after
  refine ⟨?_, rfl⟩
  have hpass : (if p.1 then p.2.follow else p.2).Kept k := by
    split
    · exact Pass.follow_kept h
    · exact h
  exact hpass

/-- An input leaves the outlets in order, and no report behind. -/
theorem runInput_kept {t : Tally} (h : k.Holds t.tree t.output t.listing) (settings : Settings)
    (stdin : Text) (input : Origin) :
    let after := runInput settings stdin t input
    k.Holds after.tree after.output after.listing ∧ after.pp.log.entries = [] := by
  cases input with
  | file path =>
    rw [runInput_file]
    exact add_kept (opened_kept (start_kept h settings) _ _ _) t
  | standardInput =>
    rw [runInput_standardInput]
    exact add_kept (opened_kept (start_kept h settings) _ _ _) t

theorem runInputs_kept (settings : Settings) (stdin : Except String Text) (inputs : List Origin)
    {t : Tally} (h : k.Holds t.tree t.output t.listing) (hlog : t.pp.log.entries = []) :
    (k.Holds (runInputs settings stdin inputs t).2.tree
      (runInputs settings stdin inputs t).2.output (runInputs settings stdin inputs t).2.listing) ∧
      (runInputs settings stdin inputs t).2.pp.log.entries = [] := by
  induction inputs generalizing stdin t with
  | nil =>
    rw [runInputs_nil]
    exact ⟨h, hlog⟩
  | cons input inputs ih =>
    match stdin, input with
    | stdin, .file path =>
      rw [runInputs_file]
      obtain ⟨hnow, hempty⟩ := runInput_kept h settings [] (.file path)
      exact ih stdin hnow hempty
    | .error message, .standardInput => exact ⟨h, hlog⟩
    | .ok text, .standardInput =>
      rw [runInputs_standardInput]
      obtain ⟨hnow, hempty⟩ := runInput_kept h settings text .standardInput
      exact ih (.ok []) hnow hempty

end Left

/-! ### The files of a run -/

/-- A run before its first input, when its files could be made. -/
def prepare (settings : Settings) (tree : Tree) : Except Failure Tally :=
  match createFile tree settings.outfile with
  | .error failure => .error failure
  | .ok (output, tree) =>
    match createFile tree settings.listing with
    | .error failure => .error failure
    | .ok (listing, tree) => .ok { tree, output, listing }

/-- The run brings the file in that place up to date. -/
def Tally.Writes (t : Tally) (p : Place) : Prop :=
  (∃ w ∈ t.output, w.place = p) ∨ ∃ w ∈ t.listing, w.place = p

/-- The tally with the files of listing and output up to date. -/
def Tally.finish (t : Tally) : Tally := t.flushListing.flushOutput

theorem createFile_some (tree : Tree) (path : String) :
    createFile tree (some path) =
      ((tree.create path).map fun made => (some { place := made.1 }, made.2)).mapError
        fun refusal => .io path refusal.message := by
  show (((tree.create path).mapError Refusal.message).map fun made =>
    (some ({ place := made.1 } : Writer), made.2)).mapError (Failure.io path) = _
  match tree.create path with
  | .ok made => rfl
  | .error refusal => rfl

theorem addErrors_some (tree : Tree) (diagnostics : List Diagnostic) (path : String) :
    addErrors tree diagnostics (some path) =
      (tree.append path (errorLines diagnostics)).mapError fun refusal =>
        .io path refusal.message := by
  show ((tree.append path (errorLines diagnostics)).mapError Refusal.message).mapError
    (Failure.io path) = _
  match tree.append path (errorLines diagnostics) with
  | .ok made => rfl
  | .error refusal => rfl

theorem createFile_holds {tree tree' : Tree} {path? : Option String} {w : Option Writer}
    (h : createFile tree path? = .ok (w, tree')) :
    (∀ x ∈ w, x.Holds tree' []) ∧ ∀ p, (∀ x ∈ w, x.place ≠ p) → tree'.at? p = tree.at? p := by
  cases path? with
  | none =>
    obtain ⟨rfl, rfl⟩ := Prod.mk.inj (Except.ok.inj h)
    exact ⟨fun x hx => absurd hx (Option.not_mem_none x), fun _ _ => rfl⟩
  | some path =>
    rw [createFile_some] at h
    cases hcreate : tree.create path with
    | ok made =>
      rw [hcreate] at h
      obtain ⟨rfl, rfl⟩ := Prod.mk.inj (Except.ok.inj h)
      obtain ⟨hempty, hothers⟩ := Tree.create_ok hcreate
      refine ⟨?_, fun p hp => hothers p (hp _ rfl).symm⟩
      rintro x hx
      obtain rfl := Option.some.inj hx
      exact Writer.holds_nil hempty
    | error refusal =>
      rw [hcreate] at h
      exact absurd h (by simp [Except.map, Except.mapError])

/-- The files are empty then, unless they are one file. -/
theorem prepare_holds {settings : Settings} {tree : Tree} {begun : Tally}
    (h : prepare settings tree = .ok begun)
    (hapart : ∀ w ∈ begun.output, ∀ l ∈ begun.listing, w.place ≠ l.place) :
    (∀ w ∈ begun.output, w.Holds begun.tree []) ∧ (∀ l ∈ begun.listing, l.Holds begun.tree []) ∧
      begun.pp.log.entries = [] ∧ begun.report = {} ∧ begun.pieces = [] := by
  unfold prepare at h
  split at h
  · exact absurd h (by simp)
  · rename_i output tree' hout
    split at h
    · exact absurd h (by simp)
    · rename_i listing tree'' hlist
      obtain rfl := Except.ok.inj h
      obtain ⟨hempty, -⟩ := createFile_holds hout
      obtain ⟨hempty', hothers⟩ := createFile_holds hlist
      refine ⟨fun w hw => ?_, hempty', rfl, rfl, rfl⟩
      have hsame := hothers w.place fun l hl => (hapart w hw l hl).symm
      unfold Writer.Holds
      rw [hsame]
      exact hempty w hw

/-- They are there, in any case. -/
theorem prepare_files {settings : Settings} {tree : Tree} {begun : Tally}
    (h : prepare settings tree = .ok begun) {p : Place} (hp : begun.Writes p) :
    ∃ content, begun.tree.at? p = some (.file content) := by
  unfold prepare at h
  split at h
  · exact absurd h (by simp)
  · rename_i output tree' hout
    split at h
    · exact absurd h (by simp)
    · rename_i listing tree'' hlist
      obtain rfl := Except.ok.inj h
      obtain ⟨hempty, -⟩ := createFile_holds hout
      obtain ⟨hempty', hothers⟩ := createFile_holds hlist
      by_cases hlisted : ∃ l ∈ listing, l.place = p
      · obtain ⟨l, hl, rfl⟩ := hlisted
        obtain ⟨content, hfile, -⟩ := hempty' l hl
        exact ⟨content, hfile⟩
      · obtain ⟨w, hw, rfl⟩ := hp.resolve_right hlisted
        obtain ⟨content, hfile, -⟩ := hempty w hw
        refine ⟨content, (hothers w.place fun l hl heq => hlisted ⟨l, hl, heq⟩).trans hfile⟩

theorem prepare_log {settings : Settings} {tree : Tree} {begun : Tally}
    (h : prepare settings tree = .ok begun) : begun.pp.log.entries = [] := by
  unfold prepare at h
  split at h
  · exact absurd h (by simp)
  · split at h
    · exact absurd h (by simp)
    · obtain rfl := Except.ok.inj h
      rfl

/-! ### The end of a run -/

section Finish

variable {o : Outlets} {t₀ : Tree} {t : Tally} {w : Writer} {text : Text}

theorem finish_output (h : o.Kept t₀ t.tree t.output t.listing) (hw : w ∈ t.output)
    (htext : w.Holds t.tree text) : t.finish.tree.at? w.place = some (.file text) := by
  have hsame : (flushTo t.listing t.tree).2.at? w.place = t.tree.at? w.place :=
    h.listing.at?_flushTo (o.apart _ (h.output.mem hw))
  have hnow : w.Holds (flushTo t.listing t.tree).2 text := by
    unfold Writer.Holds
    rw [hsame]
    exact htext
  show (flushTo t.output (flushTo t.listing t.tree).2).2.at? w.place = _
  rw [show t.output = some w from hw]
  exact Writer.at?_flush_self hnow

theorem finish_listing (h : o.Kept t₀ t.tree t.output t.listing) (hw : w ∈ t.listing)
    (htext : w.Holds t.tree text) : t.finish.tree.at? w.place = some (.file text) := by
  have hother : w.place ∉ o.output := fun hmem => o.apart _ hmem (h.listing.mem hw)
  show (flushTo t.output (flushTo t.listing t.tree).2).2.at? w.place = _
  rw [h.flushListing.output.at?_flushTo hother, show t.listing = some w from hw]
  exact Writer.at?_flush_self htext

theorem finish_kept (h : o.Kept t₀ t.tree t.output t.listing) :
    o.Kept t₀ t.finish.tree t.finish.output t.finish.listing := h.flushListing.flushOutput

end Finish

theorem stdout_finish {o : Outlets} {t₀ : Tree} {t : Tally}
    (h : o.Kept t₀ t.tree t.output t.listing) :
    t.finish.stdout = if o.output.isNone then t.text else [] := by
  have hplace := (finish_kept h).output.1
  unfold Tally.stdout
  rw [← hplace, Option.isNone_map]
  rfl

/-- The error file is the only one that the reports change. -/
theorem addErrors_ok {tree tree' : Tree} {diagnostics : List Diagnostic} {path? : Option String}
    (h : addErrors tree diagnostics path? = .ok tree') {p : Place}
    (hp : ∀ path ∈ path?, tree.target path ≠ .ok p) : tree'.at? p = tree.at? p := by
  cases path? with
  | none => exact Except.ok.inj h ▸ rfl
  | some path =>
    rw [addErrors_some] at h
    match happend : tree.append path (errorLines diagnostics) with
    | .error refusal =>
      rw [happend] at h
      exact absurd h (by simp [Except.mapError])
    | .ok made =>
      rw [happend] at h
      obtain rfl := Except.ok.inj h
      obtain ⟨place, htarget, hothers⟩ := Tree.append_ok happend
      exact hothers p fun heq => hp path rfl (heq ▸ htarget)

/-- Whether they can be added is a matter of where the error file is. -/
theorem addErrors_of_agrees {written : Place → Prop} {tree other tree' : Tree}
    {diagnostics : List Diagnostic} {path? : Option String}
    (hagrees : Tree.Agrees written tree other)
    (h : addErrors tree diagnostics path? = .ok tree') (others : List Diagnostic) :
    ∃ other', addErrors other others path? = .ok other' := by
  cases path? with
  | none => exact ⟨other, rfl⟩
  | some path =>
    rw [addErrors_some] at h ⊢
    match happend : tree.append path (errorLines diagnostics) with
    | .error refusal =>
      rw [happend] at h
      exact absurd h (by simp [Except.mapError])
    | .ok made =>
      obtain ⟨place, htarget, -⟩ := Tree.append_ok happend
      rw [hagrees.target] at htarget
      obtain ⟨other', hother⟩ := Tree.append_of_target (errorLines others) htarget
      rw [hother]
      exact ⟨other', rfl⟩

/-- How a run ends, after its inputs. -/
def Tally.close (t : Tally) (errorFile : Option String) : Option Failure → Outcome
  | some failure => { result := .error failure, stdout := t.finish.stdout, tree := t.finish.tree }
  | none =>
    match addErrors t.finish.tree t.finish.report.diagnostics errorFile with
    | .error failure =>
      { result := .error failure, stdout := t.finish.stdout, tree := t.finish.tree }
    | .ok tree => { result := .ok t.finish.report, stdout := t.finish.stdout, tree }

theorem run_eq (settings : Settings) {tree : Tree} {begun : Tally}
    (h : prepare settings tree = .ok begun) (stdin : Except String Text) :
    run settings tree stdin =
      let (failure?, done) := runInputs settings stdin settings.inputs begun
      done.close settings.errorFile failure? := by
  unfold prepare at h
  show (runOn .known settings tree stdin).run = _
  unfold runOn
  match hout : createFile tree settings.outfile with
  | .error failure =>
    rw [hout] at h
    exact absurd h (by simp)
  | .ok (output, tree') =>
    rw [hout] at h
    dsimp only at h
    match hlist : createFile tree' settings.listing with
    | .error failure =>
      rw [hlist] at h
      exact absurd h (by simp)
    | .ok (listing, tree'') =>
      rw [hlist] at h
      obtain rfl := Except.ok.inj h
      have hout' : (createFileOn .known tree settings.outfile).run = .ok (output, tree') := hout
      have hlist' : (createFileOn .known tree' settings.listing).run = .ok (listing, tree'') :=
        hlist
      rw [Id.run_bind, hout']
      dsimp only
      rw [Id.run_bind, hlist']
      rfl

theorem runInput_settings (settings : Settings) (others : List Origin) (stdin : Text)
    (sofar : Tally) (input : Origin) :
    runInput { settings with inputs := others } stdin sofar input =
      runInput settings stdin sofar input := by
  cases input with
  | file path =>
    rw [runInput_file, runInput_file]
    rfl
  | standardInput =>
    rw [runInput_standardInput, runInput_standardInput]
    rfl

/-- What a run is asked to read makes no difference to how an input is read. -/
theorem runInputs_settings (settings : Settings) (others : List Origin) (stdin : Except String Text)
    (inputs : List Origin) (sofar : Tally) :
    runInputs { settings with inputs := others } stdin inputs sofar =
      runInputs settings stdin inputs sofar := by
  induction inputs generalizing stdin sofar with
  | nil => rw [runInputs_nil, runInputs_nil]
  | cons input inputs ih =>
    match stdin, input with
    | stdin, .file path =>
      rw [runInputs_file, runInputs_file, runInput_settings]
      exact ih stdin _
    | .error message, .standardInput => rw [runInputs_unreadable, runInputs_unreadable]
    | .ok text, .standardInput =>
      rw [runInputs_standardInput, runInputs_standardInput, runInput_settings]
      exact ih (.ok []) _

/-- A run that can add its reports to the error file ends well. -/
theorem run_ok {settings : Settings} {tree tree' : Tree} {stdin : Except String Text}
    {begun done : Tally} {inputs : List Origin} (h : prepare settings tree = .ok begun)
    (hdone : runInputs settings stdin inputs begun = (none, done))
    (herrors : addErrors done.finish.tree done.finish.report.diagnostics settings.errorFile =
      .ok tree') :
    run { settings with inputs } tree stdin =
      { result := .ok done.finish.report, stdout := done.finish.stdout, tree := tree' } := by
  rw [run_eq { settings with inputs } h, runInputs_settings, hdone]
  dsimp only [Tally.close]
  rw [herrors]

/-- A run that ends well has read all its inputs and added its reports to the error file. -/
theorem run_ok_inv {settings : Settings} {tree : Tree} {stdin : Except String Text}
    {begun : Tally} {inputs : List Origin} {report : Report}
    (h : prepare settings tree = .ok begun)
    (hok : (run { settings with inputs } tree stdin).result = .ok report) :
    ∃ done tree', runInputs settings stdin inputs begun = (none, done) ∧
      addErrors done.finish.tree done.finish.report.diagnostics settings.errorFile = .ok tree' ∧
      report = done.finish.report := by
  rw [run_eq { settings with inputs } h, runInputs_settings] at hok
  match hdone : runInputs settings stdin inputs begun with
  | (some failure, done) =>
    rw [hdone] at hok
    exact absurd hok (by simp [Tally.close])
  | (none, done) =>
    rw [hdone] at hok
    dsimp only [Tally.close] at hok
    match hadd : addErrors done.finish.tree done.finish.report.diagnostics settings.errorFile with
    | .error failure =>
      rw [hadd] at hok
      exact absurd hok (by simp)
    | .ok tree' =>
      rw [hadd] at hok
      exact ⟨done, tree', rfl, hadd, (Except.ok.inj hok).symm⟩

theorem run_files {settings : Settings} {tree : Tree} {begun : Tally}
    (h : prepare settings tree = .ok begun) (stdin : Except String Text) (paths : List String) :
    run { settings with inputs := paths.map .file } tree stdin =
      (runFiles settings begun paths).close settings.errorFile none := by
  rw [run_eq { settings with inputs := paths.map .file } h, runInputs_settings,
    runInputs_files]

end AsmPrep.Run
