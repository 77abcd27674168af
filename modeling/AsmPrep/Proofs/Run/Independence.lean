/-
The inputs of a run are independent of one another.

Every input starts with the predefined macros and nothing else, and no state of the one
before is left but what was written.  So a run over some inputs and then some files comes
to what the two runs come to that read the inputs and the files, one after the other.

That holds as long as none of those files, and none that they include, is one that the run
writes: a listing, say, holds the entries of the inputs before.
-/
import AsmPrep.Proofs.Run.Beside
import AsmPrep.Proofs.Run.Complete

namespace AsmPrep.Run

open Files
open Preprocessor (Paired)

/-! ### The same tally after two pasts -/

/-- With the same locations too, the same was reported. -/
theorem log_eq_of_paired {pp pp' : Preprocessor} (h : Paired Eq [] [] pp pp') :
    pp.log.entries = pp'.log.entries := by
  obtain ⟨new, hnew, hnew'⟩ := h.log.same
  rw [hnew, hnew']

namespace Pasts

variable (b : Pasts)

/-- After two pasts the inputs came to the same.  `earlier` is what the first one had come to
before. -/
structure Tallies (earlier t t' : Tally) : Prop where
  log : t.pp.log.entries = [] ∧ t'.pp.log.entries = []
  kept : b.outlets.Kept b.tree t.tree t.output t.listing
  kept' : b.outlets.Kept b.tree t'.tree t'.output t'.listing
  output : Ahead b.output t.tree t'.tree t.output t'.output
  listing : Ahead b.listing t.tree t'.tree t.listing t'.listing
  diagnostics : t.report.diagnostics = earlier.report.diagnostics ++ t'.report.diagnostics
  statements : t.report.statements = earlier.report.statements + t'.report.statements
  pieces : t.pieces = t'.pieces ++ earlier.pieces

namespace Tallies

variable {b} {earlier t t' : Tally}

theorem flushListing (h : b.Tallies earlier t t') :
    b.Tallies earlier t.flushListing t'.flushListing :=
  { h with
    kept := h.kept.flushListing
    kept' := h.kept'.flushListing
    output := h.output.of_at?
      (fun _ hx => h.kept.listing.at?_flushTo (b.outlets.apart _ (h.kept.output.mem hx)))
      (fun _ hx => h.kept'.listing.at?_flushTo (b.outlets.apart _ (h.kept'.output.mem hx)))
    listing := h.listing.flush }

theorem flushOutput (h : b.Tallies earlier t t') :
    b.Tallies earlier t.flushOutput t'.flushOutput :=
  { h with
    kept := h.kept.flushOutput
    kept' := h.kept'.flushOutput
    output := h.output.flush
    listing := h.listing.of_at?
      (fun _ hx => h.kept.output.at?_flushTo fun hm => b.outlets.apart _ hm (h.kept.listing.mem hx))
      (fun _ hx => h.kept'.output.at?_flushTo fun hm =>
        b.outlets.apart _ hm (h.kept'.listing.mem hx)) }

/-- Passes begin alike. -/
theorem start (h : b.Tallies earlier t t') (settings : Settings) :
    b.Passes (start settings t) (start settings t') where
  pp := by
    have hreset : Paired Eq t.pp.log.entries t'.pp.log.entries t.pp.reset t'.pp.reset :=
      .reset rfl (.start _ _)
    rw [h.log.1, h.log.2] at hreset
    exact predefine_paired hreset rfl _
  written := rfl
  desk :=
    { inputs := rfl
      locations := rfl
      includePath := rfl
      clear := by
        intro input hi place hp
        obtain rfl := List.mem_singleton.1 hi
        exact absurd hp (Option.not_mem_none _)
      kept := h.flushListing.kept
      kept' := h.flushListing.kept'
      output := h.flushListing.output
      listing := h.flushListing.listing }

theorem add (h : b.Tallies earlier t t') {p p' : Pass} (hp : b.Passes p p') :
    b.Tallies earlier (t.add p) (t'.add p') where
  log := ⟨rfl, rfl⟩
  kept := hp.desk.kept
  kept' := hp.desk.kept'
  output := hp.desk.output
  listing := hp.desk.listing
  diagnostics := by
    show t.report.diagnostics ++ p.pp.log.entries =
      _ ++ (t'.report.diagnostics ++ p'.pp.log.entries)
    rw [h.diagnostics, log_eq_of_paired hp.pp, List.append_assoc]
  statements := by
    show t.report.statements + p.written.length = _ + (t'.report.statements + p'.written.length)
    rw [h.statements, hp.written, Nat.add_assoc]
  pieces := by
    show p.text :: t.pieces = p'.text :: t'.pieces ++ _
    rw [h.pieces, Pass.text, hp.written]
    rfl

theorem text (h : b.Tallies earlier t t') : t.text = earlier.text ++ t'.text := by
  unfold Tally.text
  rw [h.pieces, List.reverse_append, List.flatten_append]

end Tallies

end Pasts

/-! ### Files that are never written -/

/-- None of these files, run in order, and none of what they include is read from such a place. -/
def NeverRead (places : Place → Prop) (settings : Settings) : List String → Tally → Prop
  | [], _ => True
  | path :: paths, sofar =>
    ((begin settings sofar path).1 = true →
      ∀ p, (begin settings sofar path).2.Meets p → p.stack.Clear places) ∧
    NeverRead places settings paths (runInput settings [] sofar (.file path))

/-- **Files come to the same after two pasts.** -/
theorem Pasts.Tallies.runFiles {b : Pasts} {earlier t t' : Tally} (h : b.Tallies earlier t t')
    (settings : Settings) (paths : List String)
    (hread : NeverRead b.outlets.Written settings paths t') :
    b.Tallies earlier (runFiles settings t paths) (runFiles settings t' paths) := by
  induction paths generalizing t t' with
  | nil => exact h
  | cons path paths ih =>
    obtain ⟨hclear, hothers⟩ := hread
    rw [runFiles_cons, runFiles_cons]
    refine ih ?_ hothers
    obtain ⟨hopened, hpasses⟩ := (h.start settings).opened path fun hok => hclear hok _ (.self _)
    rw [runInput_file, runInput_file]
    refine h.add ?_
    change (begin settings t path).1 = (begin settings t' path).1 at hopened
    rw [hopened]
    split
    · rename_i hok
      exact hpasses.follow (hclear hok)
    · exact hpasses

/-! ### What inputs leave is a past -/

/-- Where the files of a run are, when they are two. -/
def Tally.outlets (t : Tally) (hapart : ∀ w ∈ t.output, ∀ l ∈ t.listing, w.place ≠ l.place) :
    Outlets where
  output := t.output.map (·.place)
  listing := t.listing.map (·.place)
  apart p hp hp' := by
    obtain ⟨w, hw, rfl⟩ := Option.map_eq_some_iff.1 hp
    obtain ⟨l, hl, hplace⟩ := Option.map_eq_some_iff.1 hp'
    exact hapart w hw l hl hplace.symm

/-- One of the files after both pasts, and what the earlier one had come to.  A tally has its
writer, which brings it up to date in the end. -/
theorem Pasts.Tallies.files {b : Pasts} {earlier t t' : Tally} (h : b.Tallies earlier t t')
    (hkept : b.outlets.Kept b.tree earlier.tree earlier.output earlier.listing)
    (writer : Tally → Option Writer) {place : Option Place} {before : Text}
    (hserves : ∀ s : Tally, b.outlets.Kept b.tree s.tree s.output s.listing →
      Outlets.Serves place s.tree (writer s))
    (hfinish : ∀ s : Tally, b.outlets.Kept b.tree s.tree s.output s.listing →
      ∀ w ∈ writer s, ∀ text, w.Holds s.tree text →
        s.finish.tree.at? w.place = some (.file text))
    (hahead : Ahead before t.tree t'.tree (writer t) (writer t'))
    (hbefore : ∀ x ∈ writer earlier, x.Holds earlier.tree before) {p : Place} (hp : p ∈ place) :
    ∃ text₁ text₂, earlier.finish.tree.at? p = some (.file text₁) ∧
      t'.finish.tree.at? p = some (.file text₂) ∧
      t.finish.tree.at? p = some (.file (text₁ ++ text₂)) := by
  obtain ⟨w, hw, rfl⟩ := (hserves t h.kept).writer hp
  obtain ⟨v, hv, hplace⟩ := (hserves t' h.kept').writer hp
  obtain ⟨x, hx, hplace'⟩ := (hserves earlier hkept).writer hp
  obtain ⟨text, hholds, hholds'⟩ := hahead.holds hw hv
  refine ⟨before, text, ?_, ?_, hfinish t h.kept w hw _ hholds⟩
  · exact hplace' ▸ hfinish earlier hkept x hx _ (hbefore x hx)
  · exact hplace ▸ hfinish t' h.kept' v hv _ hholds'

theorem written_outlets {t : Tally} (hapart : ∀ w ∈ t.output, ∀ l ∈ t.listing, w.place ≠ l.place) :
    (t.outlets hapart).Written = t.Writes := by
  funext p
  refine propext (or_congr ?_ ?_)
  · exact Option.map_eq_some_iff
  · exact Option.map_eq_some_iff

/-- What some inputs have written is a past of the files that are run after them. -/
theorem exists_past {settings : Settings} {tree : Tree} {stdin : Except String Text}
    {inputs : List Origin} {begun done : Tally} (hprepare : prepare settings tree = .ok begun)
    (hapart : ∀ w ∈ begun.output, ∀ l ∈ begun.listing, w.place ≠ l.place)
    (hdone : runInputs settings stdin inputs begun = (none, done)) :
    ∃ b : Pasts, b.outlets = begun.outlets hapart ∧ b.tree = begun.tree ∧
      b.Tallies done done begun ∧ (∀ x ∈ done.output, x.Holds done.tree b.output) ∧
      ∀ x ∈ done.listing, x.Holds done.tree b.listing := by
  obtain ⟨houtput, hlisting, hlog, hreport, hpieces⟩ := prepare_holds hprepare hapart
  have hbegun : (begun.outlets hapart).Kept begun.tree begun.tree begun.output begun.listing :=
    ⟨rfl, fun _ _ => rfl, ⟨rfl, fun w hw => ⟨[], houtput w hw⟩⟩, rfl,
      fun w hw => ⟨[], hlisting w hw⟩⟩
  have hkept := runInputs_kept (k := (begun.outlets hapart).upkeep begun.tree) settings stdin inputs
    hbegun hlog
  rw [hdone] at hkept
  obtain ⟨output, houtputs, haheadOutput⟩ := hkept.1.output.ahead hbegun.output houtput
  obtain ⟨listing, hlistings, haheadListing⟩ := hkept.1.listing.ahead hbegun.listing hlisting
  refine ⟨{ outlets := begun.outlets hapart, tree := begun.tree, output, listing }, rfl, rfl, ?_,
    houtputs, hlistings⟩
  exact
    { log := ⟨hkept.2, hlog⟩
      kept := hkept.1
      kept' := hbegun
      output := haheadOutput
      listing := haheadListing
      diagnostics := by rw [hreport]; exact (List.append_nil _).symm
      statements := by rw [hreport]; rfl
      pieces := by rw [hpieces]; rfl }

/-- **A run over inputs and then files comes to a run over the inputs and one over the files**, when
the run writes to different files and reads none of them for the latter: its reports are those of
the one and then those of the other, and so are the bytes of what it writes. -/
theorem run_append {settings : Settings} {tree : Tree} {stdin : Except String Text}
    {inputs : List Origin} {paths : List String} {begun : Tally} {report : Report}
    (hprepare : prepare settings tree = .ok begun)
    (hapart : ∀ w ∈ begun.output, ∀ l ∈ begun.listing, w.place ≠ l.place)
    (herrors : ∀ path ∈ settings.errorFile, ∀ p, begun.Writes p → begun.tree.target path ≠ .ok p)
    (hread : NeverRead begun.Writes settings paths begun)
    (hok : (run { settings with inputs := inputs ++ paths.map .file } tree stdin).result =
      .ok report) :
    let both := run { settings with inputs := inputs ++ paths.map .file } tree stdin
    let first := run { settings with inputs } tree stdin
    let second := run { settings with inputs := paths.map .file } tree stdin
    (∃ r₁ r₂, first.result = .ok r₁ ∧ second.result = .ok r₂ ∧
      report.diagnostics = r₁.diagnostics ++ r₂.diagnostics ∧
      report.statements = r₁.statements + r₂.statements) ∧
    both.stdout = first.stdout ++ second.stdout ∧
    ∀ p, begun.Writes p → ∃ text₁ text₂, first.tree.at? p = some (.file text₁) ∧
      second.tree.at? p = some (.file text₂) ∧ both.tree.at? p = some (.file (text₁ ++ text₂)) := by
  intro both first second
  obtain ⟨z, tree₃, hz, hadd₃, rfl⟩ := run_ok_inv hprepare hok
  rw [runInputs_append] at hz
  match hx : runInputs settings stdin inputs begun with
  | (some failure, x) =>
    rw [hx] at hz
    exact absurd hz (by simp)
  | (none, x) =>
    rw [hx] at hz
    obtain rfl : runFiles settings x paths = z := congrArg Prod.snd hz
    obtain ⟨b, houtlets, htree, hx₀, houtputs, hlistings⟩ := exists_past hprepare hapart hx
    have hwritten : b.outlets.Written = begun.Writes := houtlets ▸ written_outlets hapart
    have h := hx₀.runFiles settings paths (hwritten.symm ▸ hread)
    -- The reports can be added to the error file after all of the runs.
    have hfinished := finish_kept h.kept
    obtain ⟨tree₁, hadd₁⟩ := addErrors_of_agrees (hfinished.agrees (finish_kept hx₀.kept)) hadd₃
      x.finish.report.diagnostics
    obtain ⟨tree₂, hadd₂⟩ := addErrors_of_agrees (hfinished.agrees (finish_kept h.kept')) hadd₃
      (runFiles settings begun paths).finish.report.diagnostics
    have hfirst : first = _ := run_ok hprepare hx hadd₁
    have hsecond : second = _ := run_ok hprepare (runInputs_files settings stdin paths begun) hadd₂
    have hboth : both = _ := run_ok hprepare (by rw [runInputs_append, hx]) hadd₃
    rw [hfirst, hsecond, hboth]
    refine ⟨⟨_, _, rfl, rfl, h.diagnostics, h.statements⟩, ?_, ?_⟩
    · show (runFiles settings x paths).finish.stdout = x.finish.stdout ++ _
      rw [stdout_finish h.kept, stdout_finish hx₀.kept, stdout_finish h.kept']
      split
      · exact h.text
      · rfl
    · intro p hp
      -- Adding to the error file leaves what was written as it is.
      have hadded : ∀ {t : Tally} {tree' : Tree},
          b.outlets.Kept b.tree t.tree t.output t.listing →
          addErrors t.finish.tree t.finish.report.diagnostics settings.errorFile = .ok tree' →
          tree'.at? p = t.finish.tree.at? p := by
        intro t tree' hkept hadd
        refine addErrors_ok hadd fun path hpath => ?_
        rw [((finish_kept hkept).agrees hx₀.kept').target]
        exact herrors path hpath p hp
      obtain ⟨text₁, text₂, hfile₁, hfile₂, hfile₃⟩ :
          ∃ text₁ text₂, x.finish.tree.at? p = some (.file text₁) ∧
            (runFiles settings begun paths).finish.tree.at? p = some (.file text₂) ∧
            (runFiles settings x paths).finish.tree.at? p = some (.file (text₁ ++ text₂)) := by
        rw [← hwritten] at hp
        rcases hp with hp | hp
        · exact h.files hx₀.kept Tally.output (fun _ hkept => hkept.output)
            (fun _ hkept _ hw _ htext => finish_output hkept hw htext) h.output houtputs hp
        · exact h.files hx₀.kept Tally.listing (fun _ hkept => hkept.listing)
            (fun _ hkept _ hw _ htext => finish_listing hkept hw htext) h.listing hlistings hp
      exact ⟨text₁, text₂, (hadded hx₀.kept hadd₁).trans hfile₁,
        (hadded h.kept' hadd₂).trans hfile₂, (hadded h.kept hadd₃).trans hfile₃⟩

/-! ### Files that are read and written -/

/-- A file with one statement, and one that includes what may be the listing. -/
def sampleTree : Tree :=
  (({} : Tree).makeFile "x" (Text.ofString "nop\n")).makeFile "y" (Text.ofString "include \"l\"\n")

/-- A run among these files, before its first input. -/
def sampleTally (settings : Settings) : Tally :=
  match prepare settings sampleTree with
  | .ok begun => begun
  | .error _ => {}

/-- The file that reads the listing may come first. -/
theorem run_append_of_two :
    let settings : Settings := { outfile := some "o", listing := some "l" }
    let both := run { settings with inputs := [.file "y"] ++ ["x"].map .file } sampleTree (.ok [])
    let first := run { settings with inputs := [.file "y"] } sampleTree (.ok [])
    let second := run { settings with inputs := ["x"].map .file } sampleTree (.ok [])
    ∃ report r₁ r₂, both.result = .ok report ∧ first.result = .ok r₁ ∧ second.result = .ok r₂ ∧
      report.statements = r₁.statements + r₂.statements := by
  intro settings both first second
  have hprepare : prepare settings sampleTree = .ok (sampleTally settings) := rfl
  have houtput : ∀ w ∈ (sampleTally settings).output, w.place = ⟨["o"]⟩ := by
    rintro w hw
    obtain rfl := Option.some.inj hw
    rfl
  have hlisting : ∀ l ∈ (sampleTally settings).listing, l.place = ⟨["l"]⟩ := by
    rintro l hl
    obtain rfl := Option.some.inj hl
    rfl
  have hapart : ∀ w ∈ (sampleTally settings).output, ∀ l ∈ (sampleTally settings).listing,
      w.place ≠ l.place := by
    intro w hw l hl
    rw [houtput w hw, hlisting l hl]
    decide
  have hread : NeverRead (sampleTally settings).Writes settings ["x"] (sampleTally settings) := by
    refine ⟨fun _ r hr input hi place hplace hw => ?_, trivial⟩
    obtain ⟨i, hle, rfl⟩ := hr.of_steps (n := 1) (by decide +kernel) (by decide +kernel)
    have hplaces : ∀ i < 2, ∀ input ∈
        (Pass.advance^[i] (begin settings (sampleTally settings) "x").2).stack.inputs,
        input.place?.getD ⟨["x"]⟩ = ⟨["x"]⟩ := by decide +kernel
    have hx := hplaces i (Nat.lt_succ_of_le hle) input hi
    rw [hplace] at hx
    obtain rfl : place = ⟨["x"]⟩ := hx
    rcases hw with ⟨w, hw, heq⟩ | ⟨l, hl, heq⟩
    · exact absurd ((houtput w hw).symm.trans heq) (by decide)
    · exact absurd ((hlisting l hl).symm.trans heq) (by decide)
  have hok : both.result =
      .ok (runFiles settings (sampleTally settings) ["y", "x"]).finish.report := by
    show (run { settings with inputs := ["y", "x"].map .file } _ _).result = _
    rw [run_ok hprepare (runInputs_files settings (.ok []) ["y", "x"] _) rfl]
  obtain ⟨⟨r₁, r₂, hfirst, hsecond, -, hcount⟩, -⟩ :=
    run_append hprepare hapart (fun _ h => absurd h (Option.not_mem_none _)) hread hok
  exact ⟨_, r₁, r₂, hok, hfirst, hsecond, hcount⟩

/-- A listing that is included shows what came before. -/
theorem included_listing_shows :
    let settings : Settings := { listing := some "l" }
    let result (paths : List String) :=
      (run { settings with inputs := paths.map .file } sampleTree (.ok [])).result
    result ["x", "y"] = .ok { statements := 5 } ∧ result ["x"] = .ok { statements := 1 } ∧
      result ["y"] = .ok { statements := 0 } := by
  intro settings result
  let begun := sampleTally settings
  have hprepare : prepare settings sampleTree = .ok begun := rfl
  have hx : runInput settings [] begun (.file "x") = _ :=
    runInput_of_steps (n := 1) (by decide +kernel) (by decide +kernel) (by decide +kernel)
  have hy : runInput settings [] begun (.file "y") = _ :=
    runInput_of_include "l" (n := 0) (by decide +kernel) (by decide +kernel)
      (by decide +kernel) (by decide +kernel) (by decide +kernel) (by decide +kernel)
  have hxy : runInput settings [] (begun.add (Pass.advance^[2] (begin settings begun "x").2))
      (.file "y") = _ :=
    runInput_of_include "l" (n := 4) (by decide +kernel) (by decide +kernel)
      (by decide +kernel) (by decide +kernel) (by decide +kernel) (by decide +kernel)
  dsimp only [result]
  rw [run_files hprepare, run_files hprepare, run_files hprepare]
  simp only [runFiles_cons, runFiles_nil]
  rw [hx, hy, hxy]
  exact ⟨congrArg Except.ok (by decide +kernel), congrArg Except.ok (by decide +kernel),
    congrArg Except.ok (by decide +kernel)⟩

/-- Reports that are added to the output come after all of it. -/
theorem error_file_on_output_shows :
    let settings : Settings := { outfile := some "o", errorFile := some "o" }
    let after (paths : List String) :=
      (run { settings with inputs := paths.map .file } sampleTree (.ok [])).tree.content? "o"
    after ["z", "x"] = some (Text.ofString "nop\nError: cannot open 'z'\n") ∧
      after ["z"] = some (Text.ofString "Error: cannot open 'z'\n") ∧
      after ["x"] = some (Text.ofString "nop\n") := by
  intro settings after
  let begun := sampleTally settings
  have hprepare : prepare settings sampleTree = .ok begun := rfl
  have hx : runInput settings [] begun (.file "x") = _ :=
    runInput_of_steps (n := 1) (by decide +kernel) (by decide +kernel) (by decide +kernel)
  have hz : runInput settings [] begun (.file "z") = _ := runInput_of_unopened (by decide +kernel)
  have hzx : runInput settings [] (begun.add (begin settings begun "z").2) (.file "x") = _ :=
    runInput_of_steps (n := 1) (by decide +kernel) (by decide +kernel) (by decide +kernel)
  dsimp only [after]
  rw [run_files hprepare, run_files hprepare, run_files hprepare]
  simp only [runFiles_cons, runFiles_nil]
  rw [hx, hz, hzx]
  decide +kernel

/-- An output and a listing that are one file write over each other. -/
theorem listing_on_output_shows :
    let settings : Settings := { outfile := some "o", listing := some "o" }
    let after (paths : List String) :=
      (run { settings with inputs := paths.map .file } sampleTree (.ok [])).tree.content? "o"
    (after ["x"]).isSome = true ∧
      after ["x", "x"] ≠ (after ["x"]).map fun text => text ++ text := by
  intro settings after
  let begun := sampleTally settings
  have hprepare : prepare settings sampleTree = .ok begun := rfl
  have hx : runInput settings [] begun (.file "x") = _ :=
    runInput_of_steps (n := 1) (by decide +kernel) (by decide +kernel) (by decide +kernel)
  have hxx : runInput settings [] (begun.add (Pass.advance^[2] (begin settings begun "x").2))
      (.file "x") = _ :=
    runInput_of_steps (n := 1) (by decide +kernel) (by decide +kernel) (by decide +kernel)
  dsimp only [after]
  rw [run_files hprepare, run_files hprepare]
  simp only [runFiles_cons, runFiles_nil]
  rw [hx, hxx]
  decide +kernel

/-- **What a run reads of what it writes, and what it writes twice, ties its inputs together.** -/
theorem shared_files_show :
    (let settings : Settings := { listing := some "l" }
     let result (paths : List String) :=
       (run { settings with inputs := paths.map .file } sampleTree (.ok [])).result
     result ["x", "y"] = .ok { statements := 5 } ∧ result ["x"] = .ok { statements := 1 } ∧
       result ["y"] = .ok { statements := 0 }) ∧
    (let settings : Settings := { outfile := some "o", errorFile := some "o" }
     let after (paths : List String) :=
       (run { settings with inputs := paths.map .file } sampleTree (.ok [])).tree.content? "o"
     after ["z", "x"] = some (Text.ofString "nop\nError: cannot open 'z'\n") ∧
       after ["z"] = some (Text.ofString "Error: cannot open 'z'\n") ∧
       after ["x"] = some (Text.ofString "nop\n")) ∧
    (let settings : Settings := { outfile := some "o", listing := some "o" }
     let after (paths : List String) :=
       (run { settings with inputs := paths.map .file } sampleTree (.ok [])).tree.content? "o"
     (after ["x"]).isSome = true ∧
       after ["x", "x"] ≠ (after ["x"]).map fun text => text ++ text) :=
  ⟨included_listing_shows, error_file_on_output_shows, listing_on_output_shows⟩

end AsmPrep.Run
