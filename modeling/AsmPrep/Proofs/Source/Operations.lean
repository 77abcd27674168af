/-
Any sequence of operations on the input stack.

An operation does one of three things to the inputs: it puts an empty one on top, it drops
the top one, or it changes the top one and nothing below.  So inputs that never come to be
on top stay as they are, and so do the locations that go with them, once what was put on
top of them is gone.

A name is given to an input only when no other one has it.  Nothing else gives names, as
long as nobody sets the location in the assembly space, and so no name is there twice.
-/
import AsmPrep.Proofs.Source.Stack

namespace AsmPrep

/-- What an input has still to give, if anything is open. -/
def Input.unread (t : Files.Tree) (input : Input) : Option Text := input.reader.map (·.rest t)

namespace InputStack

/-- What can be asked of an input stack. -/
inductive Operation where
  | push
  | pop
  | openFile (name : String)
  | openText (name : String) (text : Text)
  | readLine
  | setLocation (space : Space) (l : Location)

namespace Operation

/-- The stack after an operation, whether it succeeds or fails. -/
def apply : Operation → InputStack → InputStack
  | push, s => s.push
  | pop, s => s.pop
  | openFile name, s => (s.openFile name).2
  | openText name text, s => (s.openText name text).2
  | readLine, s => s.readLine.2
  | setLocation space l, s => s.setLocation space l

/-- The location that an operation sets in the space of the generating program. -/
def cLocation? : Operation → Option Location
  | setLocation .c l => some l
  | _ => none

end Operation

/-- The stack after some operations, one after the other. -/
def after (s : InputStack) (ops : List Operation) : InputStack :=
  ops.foldl (fun s op => op.apply s) s

theorem after_cons (s : InputStack) (op : Operation) (ops : List Operation) :
    s.after (op :: ops) = (op.apply s).after ops := rfl

theorem after_append (s : InputStack) (ops more : List Operation) :
    s.after (ops ++ more) = (s.after ops).after more := List.foldl_append

/-! ### What one operation does -/

variable {s t : InputStack} {top : Input} {others : List Input}

theorem bind_inputs (h : s.inputs = top :: others) (asked file : String)
    (reader? : Option Reader) : ∃ top', (s.bind asked file reader?).2.inputs = top' :: others := by
  unfold bind
  rw [h]
  dsimp only
  split
  · exact ⟨_, rfl⟩
  · split
    · exact ⟨_, rfl⟩
    · exact ⟨_, rfl⟩

theorem readLine_inputs (h : s.inputs = top :: others) :
    ∃ top', s.readLine.2.inputs = top' :: others := by
  unfold readLine
  rw [h]
  dsimp only
  split
  · exact ⟨top, h⟩
  · exact ⟨_, rfl⟩

theorem setLocation_inputs (h : s.inputs = top :: others) (space : Space) (l : Location) :
    ∃ top', (s.setLocation space l).inputs = top' :: others := by
  unfold setLocation
  rw [h]
  cases space with
  | c => exact ⟨top, rfl⟩
  | asm => exact ⟨_, rfl⟩

theorem pop_of_inputs {next : Input} (h : s.inputs = top :: next :: others) :
    s.pop = { s with
      inputs := next :: others, locations := s.locations.set .asm next.location } := by
  unfold pop
  rw [h]
  rfl

/-- Below the top an operation changes nothing: the inputs there stay the same, and at most one
input is put on top of them or dropped. -/
theorem inputs_apply (h : s.inputs = top :: others) (op : Operation) :
    (op.apply s).inputs = {} :: top :: others ∨ (op.apply s).inputs = others ∨
      ∃ top', (op.apply s).inputs = top' :: others := by
  cases op with
  | push =>
    left
    show {} :: s.inputs = _
    rw [h]
  | pop =>
    refine .inr (.inl ?_)
    show s.pop.inputs = others
    cases others with
    | nil =>
      unfold pop
      rw [h]
      rfl
    | cons next others => rw [pop_of_inputs h]
  | openFile name => exact .inr (.inr (bind_inputs h _ _ _))
  | openText name text => exact .inr (.inr (bind_inputs h _ _ _))
  | readLine => exact .inr (.inr (readLine_inputs h))
  | setLocation space l => exact .inr (.inr (setLocation_inputs h space l))

theorem tree_apply (s : InputStack) (op : Operation) : (op.apply s).tree = s.tree := by
  cases op with
  | push => rfl
  | pop => exact s.pop_tree
  | openFile name => exact bind_tree ..
  | openText name text => exact bind_tree ..
  | readLine => exact s.readLine_tree
  | setLocation space l => rfl

theorem bind_c (s : InputStack) (asked file : String) (reader? : Option Reader) :
    (s.bind asked file reader?).2.locations.c = s.locations.c := by
  unfold bind
  split
  · rfl
  · dsimp only
    split
    · rfl
    · split
      · rfl
      · rfl

/-- As long as there is an input left, the location in the space of the generating program is
changed by setting it and by nothing else. -/
theorem c_apply {op : Operation} (h : (op.apply s).inputs ≠ []) :
    (op.apply s).locations.c = op.cLocation?.getD s.locations.c := by
  cases op with
  | push => rfl
  | pop =>
    show s.pop.locations.c = s.locations.c
    replace h : s.pop.inputs ≠ [] := h
    unfold pop at h ⊢
    split
    · rename_i hlast
      exact absurd (by rw [hlast]) h
    · rfl
  | openFile name => exact bind_c ..
  | openText name text => exact bind_c ..
  | readLine =>
    show s.readLine.2.locations.c = s.locations.c
    unfold InputStack.readLine
    split
    · rfl
    · split
      · rfl
      · rfl
  | setLocation space l =>
    cases space with
    | c => rfl
    | asm => rfl

/-! ### Inputs on top of others -/

/-- The inputs of `s` are there as they were, under at least one more, and the files are the
same. -/
structure Above (s t : InputStack) : Prop where
  inputs : ∃ top upper, t.inputs = top :: (upper ++ s.inputs)
  tree : t.tree = s.tree

theorem above_push (s : InputStack) : Above s s.push := ⟨⟨{}, [], rfl⟩, rfl⟩

theorem Above.apply (h : Above s t) {op : Operation} (hdepth : s.depth < (op.apply t).depth) :
    Above s (op.apply t) := by
  obtain ⟨top, upper, hinputs⟩ := h.inputs
  refine ⟨?_, (tree_apply t op).trans h.tree⟩
  rcases inputs_apply hinputs op with hpush | hpop | ⟨top', hkeep⟩
  · exact ⟨{}, top :: upper, hpush⟩
  · -- The depth says that the input dropped was not the last one above.
    cases upper with
    | nil =>
      unfold depth at hdepth
      rw [hpop, List.nil_append] at hdepth
      exact absurd hdepth (Nat.lt_irrefl _)
    | cons next upper => exact ⟨next, upper, hpop⟩
  · exact ⟨top', upper, hkeep⟩

theorem Above.after (h : Above s t) {ops : List Operation}
    (hdepth : ∀ k, s.depth < (t.after (ops.take k)).depth) :
    Above s (t.after ops) ∧
      (t.after ops).locations.c = (ops.filterMap (·.cLocation?)).getLast?.getD t.locations.c := by
  induction ops generalizing t with
  | nil => exact ⟨h, rfl⟩
  | cons op ops ih =>
    have hfirst : s.depth < (op.apply t).depth := hdepth 1
    have hleft : (op.apply t).inputs ≠ [] := by
      intro hnone
      unfold depth at hfirst
      rw [hnone] at hfirst
      exact absurd hfirst (Nat.not_lt_zero _)
    obtain ⟨habove, hc⟩ := ih (h.apply hfirst) fun k => hdepth (k + 1)
    refine ⟨habove, ?_⟩
    rw [after_cons, hc, c_apply hleft]
    cases hset : op.cLocation? with
    | none => rw [List.filterMap_cons_none hset, Option.getD_none]
    | some l => rw [List.filterMap_cons_some hset, List.getLast?_cons, Option.getD_some,
        Option.getD_some]

/-- **What is put on the stack does not disturb what is below.**  Whatever is done between putting
an input on top and dropping it again, as long as it is the inputs above that it is done to:
in the end the inputs are those of before, with the same bytes to be read, and so is the location
in the assembly space, when it was that of the top input.  The other location is the one that was
set last, if any was. -/
theorem nested_inputs_leave_outer (hs : s.inputs = top :: others)
    (hasm : s.locations.asm = top.location) {inner : List Operation}
    (hinner : ∀ k, s.depth < (s.after (.push :: inner.take k)).depth)
    (hend : (s.after (.push :: inner ++ [.pop])).depth = s.depth) :
    let t := s.after (.push :: inner ++ [.pop])
    t.inputs = s.inputs ∧ t.inputs.map (·.unread t.tree) = s.inputs.map (·.unread s.tree) ∧
      t.locations.asm = s.locations.asm ∧
      t.locations.c = (inner.filterMap (·.cLocation?)).getLast?.getD s.locations.c := by
  intro t
  obtain ⟨habove, hc⟩ := (above_push s).after hinner
  obtain ⟨last, upper, hinputs⟩ := habove.inputs
  have ht : t = (s.push.after inner).pop := after_append s (.push :: inner) [.pop]
  -- One input is dropped at the end, so one is above.
  have hupper : upper = [] := by
    have hdepth : t.depth = (s.push.after inner).depth - 1 := by
      rw [ht]
      unfold depth
      rcases hmore : upper ++ s.inputs with _ | ⟨next, more⟩
      · unfold pop
        rw [hinputs, hmore]
        rfl
      · rw [hmore] at hinputs
        rw [pop_of_inputs hinputs, hinputs]
        rfl
    rw [hend] at hdepth
    unfold depth at hdepth
    rw [hinputs, List.length_cons, List.length_append] at hdepth
    exact List.eq_nil_of_length_eq_zero (by omega)
  rw [hupper, List.nil_append, hs] at hinputs
  have hpop := pop_of_inputs hinputs
  have htree : t.tree = s.tree := by
    rw [ht, hpop]
    exact habove.tree
  have hsame : t.inputs = s.inputs := by
    rw [ht, hpop, hs]
  refine ⟨hsame, ?_, ?_, ?_⟩
  · rw [hsame, htree]
  · rw [ht, hpop, hasm]
    rfl
  · rw [ht, hpop]
    exact hc

/-- A stack with one text, of which a line was read. -/
def outerText : InputStack :=
  (({} : InputStack).after
    [.push, .openText "outer.asm" (Text.ofString "nop\nret\n"), .readLine])

/-- Operations on an input above it: its own name is refused, the place in its text is set, a
second one is put on top and dropped, and its text is read past the end. -/
def innerWork : List Operation :=
  [.openText "outer.asm" [], .openText "inner.asm" (Text.ofString "nop\n"),
    .setLocation .asm ⟨some "other.asm", 9⟩, .setLocation .c ⟨some "a.c", 1⟩, .push,
    .openFile "missing.asm", .pop, .readLine, .setLocation .c ⟨some "b.c", 7⟩, .readLine, .readLine]

/-- The text goes on with its second line. -/
theorem nested_inputs_leave_outer_of_text :
    let t := outerText.after (.push :: innerWork ++ [.pop])
    (∀ k, outerText.depth < (outerText.after (.push :: innerWork.take k)).depth) ∧
      t.depth = outerText.depth ∧
      t.inputs.map (·.unread t.tree) = [some (Text.ofString "ret\n")] ∧
      t.locations = { asm := ⟨some "outer.asm", 1⟩, c := ⟨some "b.c", 7⟩ } := by
  intro t
  have hinner : ∀ k, outerText.depth < (outerText.after (.push :: innerWork.take k)).depth := by
    have hmost : ∀ k < 12,
        outerText.depth < (outerText.after (.push :: innerWork.take k)).depth := by decide +kernel
    intro k
    rcases Nat.lt_or_ge k 12 with hlt | hge
    · exact hmost k hlt
    · rw [List.take_of_length_le (Nat.le_of_succ_le hge)]
      exact hmost 11 (by decide)
  have hend : (outerText.after (.push :: innerWork ++ [.pop])).depth = outerText.depth := by
    decide +kernel
  obtain ⟨-, hunread, hasm, hc⟩ := nested_inputs_leave_outer (s := outerText) rfl
    (by decide +kernel) hinner hend
  refine ⟨hinner, hend, hunread.trans (by decide +kernel), ?_⟩
  show Locations.mk t.locations.c t.locations.asm = _
  rw [hasm, hc]
  decide +kernel

/-! ### Names of inputs -/

/-- The file names that inputs have, top first. -/
def files (s : InputStack) : List String := s.inputs.filterMap (·.location.file)

theorem mem_files {file : String} :
    file ∈ s.files ↔ ∃ input ∈ s.inputs, input.location.file = some file := List.mem_filterMap

theorem holds_iff {file : String} : s.holds file = true ↔ file ∈ s.files := by
  rw [mem_files]
  simp [holds]

theorem files_cons (h : s.inputs = top :: others) :
    s.files = top.location.file.toList ++ others.filterMap (·.location.file) := by
  unfold files
  rw [h, List.filterMap_cons]
  cases top.location.file <;> rfl

/-- The files are named by the locations of the inputs. -/
theorem files_congr (h : s.inputs.map (·.location.file) = t.inputs.map (·.location.file)) :
    s.files = t.files := by
  have hall := congrArg (List.filterMap id) h
  rwa [List.filterMap_map, List.filterMap_map] at hall

/-- A name that an input has is refused.  The top input is closed then, and that is all. -/
theorem bind_of_mem {file : String} (h : s.inputs = top :: others) (hfile : file ∈ s.files)
    (asked : String) (reader? : Option Reader) :
    s.bind asked file reader? = (.error (.includeRecursion asked),
      { s with
        inputs := { top with reader := none } :: others
        names := s.names.insert file }) := by
  have hheld : holds { s with
      inputs := { top with reader := none } :: others
      names := s.names.insert file } file = true := by
    rw [holds_iff, files_cons rfl]
    rwa [files_cons h] at hfile
  unfold bind
  rw [h]
  dsimp only
  rw [if_pos hheld]

theorem bind_files_nodup (h : s.files.Nodup) (asked file : String) (reader? : Option Reader) :
    (s.bind asked file reader?).2.files.Nodup := by
  cases hs : s.inputs with
  | nil =>
    unfold bind
    rw [hs]
    exact h
  | cons top others =>
    let closed : InputStack := { s with
      inputs := { top with reader := none } :: others, names := s.names.insert file }
    have hclosed : closed.files = s.files := by rw [files_cons rfl, files_cons hs]
    unfold bind
    rw [hs]
    dsimp only
    split
    · exact hclosed ▸ h
    · rename_i hnew
      split
      · exact hclosed ▸ h
      · -- Of the other inputs none has the name that is given to the top one.
        rw [holds_iff] at hnew
        have hall : closed.files = _ := files_cons rfl
        rw [hall, List.mem_append, not_or] at hnew
        rw [files_cons hs, List.nodup_append] at h
        rw [files_cons rfl]
        exact List.nodup_cons.2 ⟨hnew.2, h.2.1⟩

theorem readLine_files (s : InputStack) : s.readLine.2.files = s.files := by
  refine files_congr ?_
  unfold readLine
  split
  · rfl
  · rename_i top others hs
    split
    · rfl
    · rw [hs, List.map_cons, List.map_cons, Input.file_read]

/-- No operation gives a name that is there already, unless it sets the location in the assembly
space. -/
theorem files_nodup_apply (h : s.files.Nodup) {op : Operation}
    (hop : ∀ l, op ≠ .setLocation .asm l) : (op.apply s).files.Nodup := by
  cases op with
  | push => exact h
  | pop =>
    show s.pop.files.Nodup
    have hsub : s.pop.inputs.Sublist s.inputs := by
      unfold pop
      split
      · exact List.nil_sublist _
      · rename_i hs
        exact hs ▸ List.tail_sublist _
    exact (hsub.filterMap _).nodup h
  | openFile name => exact bind_files_nodup h _ _ _
  | openText name text => exact bind_files_nodup h _ _ _
  | readLine => exact s.readLine_files ▸ h
  | setLocation space l =>
    cases space with
    | c => exact h
    | asm => exact absurd rfl (hop l)

theorem files_nodup_after (h : s.files.Nodup) {ops : List Operation}
    (hops : ∀ l, .setLocation .asm l ∉ ops) : (s.after ops).files.Nodup := by
  induction ops generalizing s with
  | nil => exact h
  | cons op ops ih =>
    refine ih (files_nodup_apply h ?_) fun l hl => hops l (List.mem_cons_of_mem _ hl)
    rintro l rfl
    exact hops l List.mem_cons_self

/-- **No file is open twice.**  However a stack has come about, as long as no location was set in
the assembly space, its inputs have different names.  Opening what an input has the name of, the
top one or any below, is refused under the name that was asked for; it closes the top input and
changes nothing else, but that the name has been seen. -/
theorem no_file_open_twice (includePath : List String) (tree : Files.Tree) (names : Names.Pool)
    {ops : List Operation} (hops : ∀ l, .setLocation .asm l ∉ ops) :
    let s := InputStack.after { includePath, tree, names } ops
    s.files.Nodup ∧ ∀ top others, s.inputs = top :: others →
      let refused (file : String) : InputStack := { s with
        inputs := { top with reader := none } :: others, names := s.names.insert file }
      (∀ name, s.tree.search name s.includePath ∈ s.files →
        s.openFile name = (.error (.includeRecursion name),
          refused (s.tree.search name s.includePath))) ∧
      ∀ name text, name ∈ s.files →
        s.openText name text = (.error (.includeRecursion name), refused name) := by
  intro s
  have hnew : files { includePath, tree, names } = [] := rfl
  refine ⟨files_nodup_after (hnew ▸ List.nodup_nil) hops, ?_⟩
  intro top others hs refused
  constructor
  · intro name hname
    exact bind_of_mem hs hname name _
  · intro name text hname
    exact bind_of_mem hs hname name _

/-- A text, a second one on top of it, and an input that nothing could be opened in. -/
def textsOpen : List Operation :=
  [.push, .openText "a.asm" (Text.ofString "nop\n"), .push, .openText "b.asm" [], .readLine, .push,
    .openFile "missing.asm", .setLocation .c ⟨some "a.asm", 1⟩]

/-- The text below is refused. -/
theorem no_file_open_twice_of_texts :
    (∀ l, .setLocation .asm l ∉ textsOpen) ∧
      (InputStack.after {} textsOpen).files = ["b.asm", "a.asm"] ∧
      ((InputStack.after {} textsOpen).openText "a.asm" []).1 =
        .error (.includeRecursion "a.asm") := by
  have hops : ∀ l, .setLocation .asm l ∉ textsOpen := by
    intro l hl
    simp [textsOpen] at hl
  have hfiles : (InputStack.after {} textsOpen).files = ["b.asm", "a.asm"] := by decide +kernel
  obtain ⟨-, hrefused⟩ := no_file_open_twice [] {} {} hops
  obtain ⟨top, others, hs⟩ : ∃ top others, (InputStack.after {} textsOpen).inputs = top :: others :=
    ⟨_, _, rfl⟩
  refine ⟨hops, hfiles, ?_⟩
  rw [(hrefused top others hs).2 "a.asm" [] (by rw [hfiles]; decide)]

end InputStack

end AsmPrep
