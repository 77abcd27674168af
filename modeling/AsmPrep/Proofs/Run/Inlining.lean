/-
Including is inlining.

A text can be put together from a file by putting the lines of each included file in the place
of the line that includes it.  A run over that one text writes the same statements and makes
the same reports as a run over the files.

Whether a line includes a file depends on the macros there are, and so on all that comes
before it, included files too; a line that belongs to the text of a macro includes nothing.
So the text is put together in the order of reading, and what the lines have left is kept
beside it.
-/
import AsmPrep.Proofs.Run.Complete
import AsmPrep.Proofs.Run.IncludeLine

namespace AsmPrep.Run

open Files
open Preprocessor (Paired)

/-! ### One text from many files -/

/-- The lines of a file that can be read. -/
def fileLines? (t : Tree) (path : String) : Option (List Text) :=
  (t.reader? path).bind fun reader =>
    if reader = .unreadable then none else some (Reader.lines (reader.rest t))

/-- The family without one of its files. -/
def without (family : List String) (path : String) : List String := family.filter (· != path)

theorem mem_without {family : List String} {path other : String} :
    other ∈ without family path ↔ other ∈ family ∧ other ≠ path := by
  rw [without, List.mem_filter, bne_iff_ne]

theorem length_without {family : List String} {path : String} (h : path ∈ family) :
    (without family path).length < family.length :=
  List.length_filter_lt_length_iff_exists.2 ⟨path, h, by simp⟩

/-- The lines with each line that includes a file replaced by what `enter` makes of the file, and
what they leave.  There is no such text when a line that includes a file does more than that, and
when the lines end before a definition does. -/
def inlineLines (enter : String → Standing → Option (List Text × Standing)) (st : Standing) :
    List Text → Option (List Text × Standing)
  | [] => some ([], st)
  | line :: own =>
    match st.includes? line with
    | some file =>
      match enter file st with
      | none => none
      | some (shown, st) =>
        (inlineLines enter st own).map fun rest => (shown ++ rest.1, rest.2)
    | none =>
      let made := st.processLine line own
      if made.2.ended || made.1.queue.any Pass.isInclude then none
      else
        let taken := own.length - made.2.answers.length
        (inlineLines enter (standing made.1) (own.drop taken)).map fun rest =>
          (line :: own.take taken ++ rest.1, rest.2)
termination_by own => own.length
decreasing_by
  · exact Nat.lt_succ_self _
  · rw [List.length_drop, List.length_cons]
    omega

/-- In the one text such a line is replaced by what is made of the file. -/
theorem IncludeLine.inlineLines_text (l : IncludeLine)
    (enter : String → Standing → Option (List Text × Standing)) {st : Standing}
    (h : st.table.contains (Text.toName l.word) = false) (own : List Text) :
    inlineLines enter st (l.text :: own) =
      (enter (Text.readUtf8 l.name) st).bind fun made =>
        (inlineLines enter made.2 own).map fun rest => (made.1 ++ rest.1, rest.2) := by
  rw [inlineLines, l.includes?_text h]
  dsimp only
  cases enter (Text.readUtf8 l.name) st with
  | none => rfl
  | some made => rfl

/-- The one text for a file, and what it leaves.  There is none when a file cannot be read or is
not one of the family.  A file of the family is not included again from within itself. -/
def inlineFile (t : Tree) (includePath : List String) (family : List String) (file : String)
    (st : Standing) : Option (List Text × Standing) :=
  let path := t.search file includePath
  if _ : path ∈ family then
    match fileLines? t path with
    | none => none
    | some own => inlineLines (inlineFile t includePath (without family path)) st own
  else none
termination_by family.length
decreasing_by exact length_without (by assumption)

theorem fileLines?_some {t : Tree} {path : String} {own : List Text}
    (h : fileLines? t path = some own) :
    ∃ reader, t.reader? path = some reader ∧ reader ≠ .unreadable ∧
      Reader.lines (reader.rest t) = own := by
  obtain ⟨reader, hreader, hlines⟩ := Option.bind_eq_some_iff.1 h
  split at hlines
  · exact absurd hlines (by simp)
  · rename_i hreadable
    exact ⟨reader, hreader, hreadable, Option.some.inj hlines⟩

theorem inlineFile_some {t : Tree} {includePath family : List String} {file : String}
    {st : Standing} {made : List Text × Standing}
    (h : inlineFile t includePath family file st = some made) :
    t.search file includePath ∈ family ∧
      ∃ own, fileLines? t (t.search file includePath) = some own ∧
        inlineLines (inlineFile t includePath (without family (t.search file includePath))) st own =
          some made := by
  rw [inlineFile] at h
  split at h
  · rename_i hfamily
    split at h
    · exact absurd h (by simp)
    · rename_i own hown
      exact ⟨hfamily, own, hown, h⟩
  · exact absurd h (by simp)

variable {b : Sources} {family : List String} {st st' : Standing} {own flat : List Text}
  {enter : String → Standing → Option (List Text × Standing)}

theorem feed_suffix {f g : Feed} {n : Nat} (h : LineSource.Served f n g) :
    g.answers <:+ f.answers := by
  induction h with
  | start => exact List.suffix_refl _
  | @request n g _ ih =>
    refine List.IsSuffix.trans ?_ ih
    show g.next.2.answers <:+ g.answers
    unfold Feed.next
    split
    · exact List.suffix_refl _
    · rename_i answer answers hg
      rw [hg]
      exact List.suffix_cons _ _
  | entry _ _ ih => exact ih

/-- What a line leaves unread is the end of the text. -/
theorem answers_processLine (st : Standing) (line : Text) (own : List Text) :
    (st.processLine line own).2.answers =
      (own.drop (own.length - (st.processLine line own).2.answers.length)).map
        fun line => .ok (some line) := by
  obtain ⟨n, hserved⟩ := Preprocessor.processLine_served st.pp line (feed own)
  have hsuffix : (st.processLine line own).2.answers <:+ (feed own).answers := feed_suffix hserved
  have hdrop := List.suffix_iff_eq_drop.1 hsuffix
  rw [show (feed own).answers = own.map fun line => .ok (some line) from rfl, List.length_map,
    ← List.map_drop] at hdrop
  exact hdrop

/-! ### Passes over the files and over the one text -/

/-- No file of the family is open, and the run writes to none of them. -/
structure Untouched (b : Sources) (family : List String) (path : String) (others : List Input) :
    Prop where
  unopened : ∀ found ∈ family, path ≠ found ∧ ∀ input ∈ others, input.location.file ≠ some found
  unwritten : ∀ found ∈ family, ∀ reader ∈ b.tree.reader? found, ∀ place ∈ reader.place?,
    ¬ b.Written place

/-- A file that is included is open, and the others of the family are not. -/
theorem Untouched.include {path found : String} {others inputs : List Input}
    (h : Untouched b family path others) (hinputs : ∃ input, inputs = input :: others ∧
      input.location.file = some path) :
    Untouched b (without family found) found inputs where
  unopened other hother := by
    obtain ⟨input, rfl, hfile⟩ := hinputs
    obtain ⟨hmem, hne⟩ := mem_without.1 hother
    obtain ⟨hpath, hothers⟩ := h.unopened other hmem
    refine ⟨hne.symm, fun entry hentry => ?_⟩
    rcases List.mem_cons.1 hentry with rfl | hentry
    · rw [hfile]
      exact fun heq => hpath (Option.some.inj heq)
    · exact hothers entry hentry
  unwritten other hother := h.unwritten other (mem_without.1 hother).1

/-- Two passes at the beginning of a line, the one over the files and the other one over the one
text, which came to the same so far. -/
structure Twins (b : Sources) (name : String) (below : List Input) (st : Standing) (path : String)
    (others : List Input) (own flat : List Text) (p f : Pass) : Prop where
  own : p.At b st path others own
  flat : f.At b st name below flat
  written : p.written = f.written
  faults : p.faults = f.faults

/-- The two passes come to where these lines are left. -/
def Arrive (b : Sources) (name : String) (below : List Input) (st : Standing) (path : String)
    (others : List Input) (own flat : List Text) (p f : Pass) : Prop :=
  ∃ p' f' : Pass, p.follow = p'.follow ∧ f.follow = f'.follow ∧
    Twins b name below st path others own flat p' f'

/-- What `enter` makes of a file can be read in the place of the line that includes it. -/
def Enters (b : Sources) (name : String) (below : List Input) (path : String)
    (others : List Input) (enter : String → Standing → Option (List Text × Standing)) : Prop :=
  ∀ {file : String} {line : Text} {st st' : Standing} {shown rest later : List Text} {p f : Pass},
    enter file st = some (shown, st') → st.includes? line = some file →
    Twins b name below st path others (line :: rest) (shown ++ later) p f →
    Arrive b name below st' path others rest later p f

section Twins

variable {name path : String} {below others : List Input} {p f : Pass}

theorem Arrive.trans {later rest after : List Text}
    (h : Arrive b name below st path others rest later p f)
    (hnext : ∀ {p' f' : Pass}, Twins b name below st path others rest later p' f' →
      Arrive b name below st' path others [] after p' f') :
    Arrive b name below st' path others [] after p f := by
  obtain ⟨p₁, f₁, hp₁, hf₁, htwins⟩ := h
  obtain ⟨p₂, f₂, hp₂, hf₂, hdone⟩ := hnext htwins
  exact ⟨p₂, f₂, hp₁.trans hp₂, hf₁.trans hf₂, hdone⟩

/-- A line that is in both texts. -/
theorem Twins.line {line : Text} {more rest later : List Text}
    (h : Twins b name below st path others (line :: (more ++ rest)) (line :: (more ++ later)) p f)
    (hended : (st.processLine line (more ++ rest)).2.ended = false)
    (hrest : (st.processLine line (more ++ rest)).2.answers = rest.map fun line => .ok (some line))
    (hplain : ∀ statement ∈ (st.processLine line (more ++ rest)).1.queue,
      Pass.isInclude statement = false) :
    Arrive b name below (standing (st.processLine line (more ++ rest)).1) path others rest later
      p f := by
  obtain ⟨q, hp, hpqueue, hpat, hpwritten, hpfaults⟩ := h.own.processLine hended hrest
  obtain ⟨g, hf, hfqueue, hfat, hfwritten, hffaults⟩ := h.flat.processLine hended hrest
  obtain ⟨p', hp', hown, hpall, hpreports⟩ := hpat.drain (by rwa [hpqueue])
  obtain ⟨f', hf', hflat, hfall, hfreports⟩ := hfat.drain (by rwa [hfqueue])
  refine ⟨p', f', hp.trans hp', hf.trans hf', hown, hflat, ?_, ?_⟩
  · rw [hpall, hfall, hpqueue, hfqueue, hpwritten, hfwritten, h.written]
  · rw [hpreports, hfreports, hpqueue, hfqueue, hpfaults, hffaults, h.faults]

/-- A line that includes a file, when the lines of the file are in its place. -/
theorem Twins.include {line : Text} {rest inner flat later : List Text} {file found : String}
    {st' : Standing} (h : Twins b name below st path others (line :: rest) flat p f)
    (huntouched : Untouched b family path others) (hfile : st.includes? line = some file)
    (hfound : b.tree.search file b.includePath = found) (hfamily : found ∈ family)
    (hlines : fileLines? b.tree found = some inner)
    (hinner : ∀ {q : Pass} {inputs : List Input}, Untouched b (without family found) found inputs →
      Twins b name below st found inputs inner flat q f →
      Arrive b name below st' found inputs [] later q f) :
    Arrive b name below st' path others rest later p f := by
  obtain ⟨q, hasked, hat, hqwritten, hqfaults⟩ := h.own.includes hfile
  obtain ⟨input, hinputs, hname, -⟩ := hat.unread.top
  obtain ⟨reader, hreader, hreadable, rfl⟩ := fileLines?_some hlines
  -- The file is put on the inputs and read.
  obtain ⟨entered, hload, hentered, hewritten, hefaults⟩ := hat.load hfound hreader hreadable
    (huntouched.unwritten found hfamily reader hreader) (by
      intro entry hentry
      rw [show q.stack.inputs = _ from hinputs] at hentry
      obtain ⟨hpath, hothers⟩ := huntouched.unopened found hfamily
      rcases List.mem_cons.1 hentry with rfl | hentry
      · rw [hname]
        exact fun heq => hpath (Option.some.inj heq)
      · exact hothers entry hentry)
  obtain ⟨e, f', hrun, hflat, hdone⟩ := hinner (huntouched.include ⟨input, hinputs, hname⟩)
    ⟨hentered, h.flat, (hewritten.trans hqwritten).trans h.written,
      (hefaults.trans hqfaults).trans h.faults⟩
  -- At its end it is dropped, and the pass goes on below it.
  obtain ⟨r, hend, hexhausted, hrwritten, hrfaults⟩ := hdone.own.end
  refine ⟨r.leave, f', ?_, hflat, hat.leave hexhausted, hdone.flat,
    hrwritten.trans hdone.written, hrfaults.trans hdone.faults⟩
  rw [Pass.follow_loaded hasked hload, hrun, Pass.follow_exhausted hend]

/-- The lines of a file and those made of them. -/
theorem Twins.lines {later : List Text} (henter : Enters b name below path others enter)
    (h : inlineLines enter st own = some (flat, st'))
    (htwins : Twins b name below st path others own (flat ++ later) p f) :
    Arrive b name below st' path others [] later p f := by
  fun_induction inlineLines enter st own generalizing p f flat st' later with
  | case1 st =>
    obtain ⟨rfl, rfl⟩ := Prod.mk.inj (Option.some.inj h)
    exact ⟨p, f, rfl, rfl, htwins⟩
  | case2 => exact absurd h (by simp)
  | case3 st line own file hfile shown st₁ hshown ih =>
    obtain ⟨⟨rest, st₂⟩, hrest, heq⟩ := Option.map_eq_some_iff.1 h
    obtain ⟨rfl, rfl⟩ := Prod.mk.inj heq
    rw [List.append_assoc] at htwins
    exact (henter hshown hfile htwins).trans fun hnext => ih hrest hnext
  | case4 => exact absurd h (by simp)
  | case5 st line own hfile made hmade =>
    rename_i taken ih
    obtain ⟨hended, hplain⟩ : made.2.ended = false ∧ made.1.queue.any Pass.isInclude = false := by
      simpa using hmade
    obtain ⟨⟨rest, st₁⟩, hrest, heq⟩ := Option.map_eq_some_iff.1 h
    obtain ⟨rfl, rfl⟩ := Prod.mk.inj heq
    have hsplit : own.take taken ++ own.drop taken = own := List.take_append_drop taken own
    have htwins' : Twins b name below st path others (line :: (own.take taken ++ own.drop taken))
        (line :: (own.take taken ++ (rest ++ later))) p f := by
      rw [hsplit, ← List.append_assoc]
      exact htwins
    have hnext := htwins'.line (by rwa [hsplit])
      (by rw [hsplit]; exact answers_processLine st line own)
      (by rw [hsplit]; exact fun s hs => by simpa using List.any_eq_false.1 hplain s hs)
    rw [hsplit] at hnext
    exact hnext.trans fun hnext => ih hrest hnext

/-- **Files can be read in the place of the lines that include them.** -/
theorem enters_inlineFile (family : List String) {path : String} {others : List Input}
    (h : Untouched b family path others) :
    Enters b name below path others (inlineFile b.tree b.includePath family) := by
  intro file line st st' shown rest later p f hmade hfile htwins
  obtain ⟨hfamily, own, hown, hlines⟩ := inlineFile_some hmade
  refine htwins.include h hfile rfl hfamily hown ?_
  intro q inputs hinner hq
  exact hq.lines (enters_inlineFile _ hinner) hlines
termination_by family.length
decreasing_by exact length_without hfamily

end Twins

/-! ### The one text as an input -/

/-- The one text consists of lines. -/
theorem isLine_of_inlineLines
    (henter : ∀ {file st made}, enter file st = some made → ∀ line ∈ made.1, Reader.IsLine line)
    (hown : ∀ line ∈ own, Reader.IsLine line) {made : List Text × Standing}
    (h : inlineLines enter st own = some made) : ∀ line ∈ made.1, Reader.IsLine line := by
  fun_induction inlineLines enter st own generalizing made with
  | case1 =>
    obtain rfl := Option.some.inj h
    exact hown
  | case2 => exact absurd h (by simp)
  | case3 st line own file hfile shown st₁ hshown ih =>
    obtain ⟨rest, hrest, rfl⟩ := Option.map_eq_some_iff.1 h
    intro l hl
    rcases List.mem_append.1 hl with hl | hl
    · exact henter hshown l hl
    · exact ih (fun l hl => hown l (List.mem_cons_of_mem _ hl)) hrest l hl
  | case4 => exact absurd h (by simp)
  | case5 st line own hfile made hmade =>
    rename_i taken ih
    obtain ⟨rest, hrest, rfl⟩ := Option.map_eq_some_iff.1 h
    intro l hl
    rcases List.mem_append.1 hl with hl | hl
    · rcases List.mem_cons.1 hl with rfl | hl
      · exact hown l List.mem_cons_self
      · exact hown l (List.mem_cons_of_mem _ (List.mem_of_mem_take hl))
    · exact ih (fun l hl => hown l (List.mem_cons_of_mem _ (List.mem_of_mem_drop hl))) hrest l hl

theorem isLine_of_inlineFile {t : Tree} {includePath : List String} (family : List String)
    {file : String} {st : Standing} {made : List Text × Standing}
    (h : inlineFile t includePath family file st = some made) :
    ∀ line ∈ made.1, Reader.IsLine line := by
  obtain ⟨hfamily, own, hown, hlines⟩ := inlineFile_some h
  obtain ⟨reader, -, -, rfl⟩ := fileLines?_some hown
  exact isLine_of_inlineLines (fun hmade => isLine_of_inlineFile _ hmade)
    (fun line hline => Reader.isLine_of_mem_lines hline) hlines
termination_by family.length
decreasing_by exact length_without hfamily

/-- An input begins with the predefined macros and nothing else. -/
def begins (settings : Settings) : Standing := standing (predefine {} settings.defines)

theorem standing_start (settings : Settings) (sofar : Tally) :
    standing (start settings sofar).pp = begins settings := by
  have hreset : Paired (fun _ _ => True) _ _ sofar.pp.reset (Preprocessor.reset {}) :=
    .reset trivial (.start _ _)
  have hpaired := predefine_paired hreset trivial settings.defines
  unfold standing begins
  show Standing.mk (predefine sofar.pp.reset settings.defines).table
    (predefine sofar.pp.reset settings.defines).inGroup = _
  rw [hpaired.table, hpaired.inGroup]
  rfl

/-- What is opened for an input is read from its first line on. -/
theorem start_at {settings : Settings} {sofar : Tally} (asked file : String) {reader : Reader}
    (hpath : b.includePath = settings.includePath)
    (hkept : b.upkeep.Holds sofar.tree sofar.output sofar.listing)
    (hreadable : reader ≠ .unreadable)
    (hclear : ∀ place ∈ reader.place?, ¬ b.Written place) :
    let p := start settings sofar
    ∃ q, p.opened (p.stack.bind asked file (some reader)) = (true, q) ∧
      q.At b (begins settings) file [] (Reader.lines (reader.rest b.tree)) ∧
      q.written = [] ∧ q.faults = p.faults := by
  intro p
  have hnew : ∀ input ∈ p.stack.inputs, input.location.file ≠ some file := by
    intro input hi
    obtain rfl := List.mem_singleton.1 hi
    simp
  obtain ⟨s, hbind, hinputs, htree, hincludes⟩ :=
    InputStack.bind_ok (s := p.stack) rfl hnew asked reader
  refine ⟨p.withStack s, ?_, ⟨predefine_queue _ _, standing_start settings sofar, ?_⟩, rfl, rfl⟩
  · rw [hbind]
    rfl
  · refine ⟨⟨_, hinputs, rfl, reader, rfl, hreadable, rfl⟩, hincludes.trans hpath.symm, ?_, ?_⟩
    · intro input hi place hp
      rw [show (p.withStack s).desk.stack.inputs = _ from hinputs] at hi
      obtain rfl := List.mem_singleton.1 hi
      exact hclear place hp
    · show b.upkeep.Holds s.tree sofar.flushListing.output sofar.flushListing.listing
      rw [htree]
      exact b.upkeep.flushListing hkept

section Input

variable {settings : Settings} {sofar : Tally}

/-- A file as an input. -/
theorem runInput_file_at {main found : String} (hpath : b.includePath = settings.includePath)
    (hkept : b.upkeep.Holds sofar.tree sofar.output sofar.listing)
    (hfound : b.tree.search main settings.includePath = found)
    (hlines : fileLines? b.tree found = some own)
    (hclear : ∀ reader ∈ b.tree.reader? found, ∀ place ∈ reader.place?, ¬ b.Written place) :
    ∃ p : Pass, runInput settings [] sofar (.file main) = sofar.add p.follow ∧
      p.At b (begins settings) found [] own ∧ p.written = [] ∧
      p.faults = (start settings sofar).faults := by
  obtain ⟨reader, hreader, hreadable, rfl⟩ := fileLines?_some hlines
  have hagrees := (b.upkeep.flushListing hkept).1
  have hopen : (start settings sofar).stack.openFile main =
      (start settings sofar).stack.bind main found (some reader) := by
    have hsearch := (hagrees.search main settings.includePath).trans hfound
    have hsame := (hagrees.reader? found).trans hreader
    unfold InputStack.openFile
    dsimp only
    rw [← hsame, ← hsearch]
    rfl
  obtain ⟨p, hp, hat, hwritten, hfaults⟩ :=
    start_at main found hpath hkept hreadable (hclear reader hreader)
  have hbegin : begin settings sofar main = (true, p) := by
    unfold begin
    dsimp only
    rw [hopen]
    exact hp
  refine ⟨p, ?_, hat, hwritten, hfaults⟩
  rw [runInput_file, hbegin, if_pos rfl]

/-- A text on standard input. -/
theorem runInput_text_at (text : Text) (hpath : b.includePath = settings.includePath)
    (hkept : b.upkeep.Holds sofar.tree sofar.output sofar.listing) :
    ∃ p : Pass, runInput settings text sofar .standardInput = sofar.add p.follow ∧
      p.At b (begins settings) standardInputName [] (Reader.lines text) ∧ p.written = [] ∧
      p.faults = (start settings sofar).faults := by
  have hreadable : Reader.text text ≠ .unreadable := by simp
  obtain ⟨p, hp, hat, hwritten, hfaults⟩ := start_at standardInputName standardInputName hpath
    hkept hreadable fun _ h => absurd h (Option.not_mem_none _)
  refine ⟨p, ?_, hat, hwritten, hfaults⟩
  rw [runInput_standardInput]
  unfold InputStack.openText
  dsimp only
  rw [hp, if_pos rfl]

/-- What a pass that reads its input to the end adds. -/
theorem add_ended (sofar : Tally) {p p₀ : Pass} {others : List Input} {path : String}
    (hp : p₀.follow = p.follow) (hat : p.At b st path others []) :
    (sofar.add p₀.follow).pieces = p.text :: sofar.pieces ∧
      (sofar.add p₀.follow).report.statements = sofar.report.statements + p.written.length ∧
      (sofar.add p₀.follow).report.diagnostics.map (·.fault) =
        sofar.report.diagnostics.map (·.fault) ++ p.faults := by
  obtain ⟨r, hend, -, hwritten, hfaults⟩ := hat.end
  rw [hp, Pass.follow_exhausted hend]
  refine ⟨?_, ?_, ?_⟩
  · show r.text :: sofar.pieces = _
    unfold Pass.text
    rw [hwritten]
  · show sofar.report.statements + r.written.length = _
    rw [hwritten]
  · show (sofar.report.diagnostics ++ r.pp.log.entries).map _ = _
    rw [List.map_append]
    exact congrArg _ hfaults

end Input

/-- The files as a run finds them that has made those which it writes. -/
def sources {settings : Settings} {tree : Tree} {begun : Tally}
    (h : prepare settings tree = .ok begun) : Sources where
  tree := begun.tree
  includePath := settings.includePath
  Written := begun.Writes
  files _ hp := prepare_files h hp

theorem sources_holds {settings : Settings} {tree : Tree} {begun : Tally}
    (h : prepare settings tree = .ok begun) :
    (sources h).upkeep.Holds begun.tree begun.output begun.listing :=
  ⟨⟨rfl, fun _ _ => rfl, fun _ hp => ⟨(sources h).files _ hp, (sources h).files _ hp⟩⟩,
    fun w hw => .inl ⟨w, hw, rfl⟩, fun w hw => .inr ⟨w, hw, rfl⟩⟩

/-- **Including is inlining.**  After any inputs of a run, a file comes to the same statements and
the same reports as the one text in its place, locations apart.  There is that text when a line
that includes a file does no more than that, the files can be read and do not include themselves,
and none of them ends before a definition does.  None may be a file that the run writes to, which
changes while it is read. -/
theorem include_is_inlining {settings : Settings} {tree : Tree} {stdin : Except String Text}
    {inputs : List Origin} {begun sofar : Tally} {main : String} {family : List String}
    {flat : List Text} {left : Standing} (hprepare : prepare settings tree = .ok begun)
    (hsofar : runInputs settings stdin inputs begun = (none, sofar))
    (hwritten : ∀ path ∈ family, ∀ reader ∈ begun.tree.reader? path, ∀ place ∈ reader.place?,
      ¬ begun.Writes place)
    (hflat : inlineFile begun.tree settings.includePath family main (begins settings) =
      some (flat, left)) :
    let nested := runInput settings [] sofar (.file main)
    let single := runInput settings flat.flatten sofar .standardInput
    nested.pieces = single.pieces ∧ nested.report.statements = single.report.statements ∧
      nested.report.diagnostics.map (·.fault) = single.report.diagnostics.map (·.fault) := by
  intro nested single
  have hkept := (runInputs_kept settings stdin inputs (sources_holds hprepare)
    (prepare_log hprepare)).1
  rw [hsofar] at hkept
  obtain ⟨hfamily, own, hown, hlines⟩ := inlineFile_some hflat
  -- Both inputs are opened.
  obtain ⟨p, hnested, hpat, hpwritten, hpfaults⟩ :=
    runInput_file_at (b := sources hprepare) rfl hkept rfl hown (hwritten _ hfamily)
  obtain ⟨f, hsingle, hfat, hfwritten, hffaults⟩ :=
    runInput_text_at (b := sources hprepare) flat.flatten rfl hkept
  rw [Reader.lines_flatten (isLine_of_inlineFile family hflat)] at hfat
  -- They come to their ends alike.
  have huntouched : Untouched (sources hprepare) _
      (begun.tree.search main settings.includePath) [] :=
    ⟨fun other hother => ⟨(mem_without.1 hother).2.symm, fun _ h => absurd h List.not_mem_nil⟩,
      fun other hother => hwritten other (mem_without.1 hother).1⟩
  have htwins : Twins (sources hprepare) standardInputName [] (begins settings)
      (begun.tree.search main settings.includePath) [] own (flat ++ []) p f :=
    ⟨hpat, (List.append_nil flat).symm ▸ hfat, hpwritten.trans hfwritten.symm,
      hpfaults.trans hffaults.symm⟩
  obtain ⟨p', f', hp', hf', hdone⟩ := htwins.lines (enters_inlineFile _ huntouched) hlines
  obtain ⟨hppieces, hpcount, hpreports⟩ := add_ended sofar hp' hdone.own
  obtain ⟨hfpieces, hfcount, hfreports⟩ := add_ended sofar hf' hdone.flat
  rw [show nested = _ from hnested, show single = _ from hsingle]
  refine ⟨?_, ?_, ?_⟩
  · rw [hppieces, hfpieces, Pass.text, Pass.text, hdone.written]
  · rw [hpcount, hfcount, hdone.written]
  · rw [hpreports, hfreports, hdone.faults]

/-- The first line of a file that includes two others. -/
def firstInclude : IncludeLine where
  indent := []
  word := Text.ofString "include"
  gap := [Byte.space]
  quote := Byte.doubleQuote
  name := Text.ofString "f"
  trail := [Byte.space]
  comment := some (Text.ofString " once\n")
  indent_blank := List.forall_mem_nil _
  word_include := by decide
  gap_blank := List.forall_mem_singleton.2 rfl
  quote_isQuote := rfl
  name_plain := by decide +kernel
  trail_blank := List.forall_mem_singleton.2 rfl

/-- A file that includes two others, the one of which includes the other as well.  The last line
of the text of `B` is no line that includes a file. -/
def nestedTree : Tree :=
  let t := ({} : Tree).makeFile "m" (firstInclude.text ++ Text.ofString "B\ninclude 'g'")
  let t := t.makeFile "f"
    (Text.ofString "#define A x\ninclude \"g\"\n#define B A \\\ninclude \"f\"\n")
  t.makeFile "g" (Text.ofString "A = 1\n")

/-- A run among these files, before its first input. -/
def nestedTally : Tally :=
  { tree := nestedTree.put ⟨["o"]⟩ (.file []), output := some { place := ⟨["o"]⟩ } }

/-- A file may be included twice, and macros and the text of one go from file to file. -/
theorem include_is_inlining_of_nested :
    let settings : Settings := { outfile := some "o" }
    let flat := ["#define A x\n", "A = 1\n", "#define B A \\\n", "include \"f\"\n", "B\n",
      "A = 1\n"].map Text.ofString
    let nested := runInput settings [] nestedTally (.file "m")
    let single := runInput settings flat.flatten nestedTally .standardInput
    prepare settings nestedTree = .ok nestedTally ∧
      (inlineFile nestedTally.tree [] ["m", "f", "g"] "m" (begins settings)).map (·.1) =
        some flat ∧
      nested.pieces = single.pieces := by
  intro settings flat nested single
  have hprepare : prepare settings nestedTree = .ok nestedTally := rfl
  have hlines : fileLines? nestedTally.tree "m" =
      some [firstInclude.text, Text.ofString "B\n", Text.ofString "include 'g'\n"] := by
    decide +kernel
  have hinline : (inlineFile nestedTally.tree [] ["m", "f", "g"] "m" (begins settings)).map (·.1) =
      some flat := by
    have hsearch : nestedTally.tree.search "m" [] = "m" := by decide +kernel
    rw [inlineFile, hsearch, dif_pos (by decide), hlines]
    dsimp only
    rw [firstInclude.inlineLines_text _ (by decide +kernel)]
    decide +kernel
  have hwritten : ∀ path ∈ ["m", "f", "g"], ∀ reader ∈ nestedTally.tree.reader? path,
      ∀ place ∈ reader.place?, ¬ nestedTally.Writes place := by
    have hplaces : ∀ path ∈ ["m", "f", "g"],
        (nestedTally.tree.reader? path).bind Reader.place? ≠ some ⟨["o"]⟩ := by decide +kernel
    rintro path hpath reader hreader place hplace (⟨w, hw, rfl⟩ | ⟨w, hw, -⟩)
    · obtain rfl := Option.some.inj hw
      exact hplaces path hpath (Option.bind_eq_some_iff.2 ⟨reader, hreader, hplace⟩)
    · exact absurd hw (Option.not_mem_none w)
  have hsofar : runInputs settings (.ok []) [] nestedTally = (none, nestedTally) := rfl
  obtain ⟨⟨made, left⟩, hmade, rfl⟩ := Option.map_eq_some_iff.1 hinline
  exact ⟨hprepare, hinline, (include_is_inlining hprepare hsofar hwritten hmade).1⟩

end AsmPrep.Run
