/-
What the operations of the input stack leave alone.

None of them changes a file.  Reading keeps an input with its file, and looks at that file
only: two stacks with the same inputs read the same line when the trees agree there.
-/
import AsmPrep.Proofs.Files.Tree
import AsmPrep.Proofs.Source.Reader

namespace AsmPrep.InputStack

/-! ### The files -/

theorem readLine_tree (s : InputStack) : s.readLine.2.tree = s.tree := by
  unfold readLine
  split
  · rfl
  · split
    · rfl
    · rfl

theorem readLine_includePath (s : InputStack) : s.readLine.2.includePath = s.includePath := by
  unfold readLine
  split
  · rfl
  · split
    · rfl
    · rfl

theorem pop_tree (s : InputStack) : s.pop.tree = s.tree := by
  unfold pop
  split
  · rfl
  · rfl

theorem bind_tree (s : InputStack) (asked file : String) (reader? : Option Reader) :
    (s.bind asked file reader?).2.tree = s.tree := by
  unfold bind
  split
  · rfl
  · dsimp only
    split
    · rfl
    · split
      · rfl
      · rfl

theorem bind_includePath (s : InputStack) (asked file : String) (reader? : Option Reader) :
    (s.bind asked file reader?).2.includePath = s.includePath := by
  unfold bind
  split
  · rfl
  · dsimp only
    split
    · rfl
    · split
      · rfl
      · rfl

theorem pop_includePath (s : InputStack) : s.pop.includePath = s.includePath := by
  unfold pop
  split
  · rfl
  · rfl

/-! ### The inputs -/

/-- No input reads a file in one of these places. -/
def Clear (places : Files.Place → Prop) (s : InputStack) : Prop :=
  ∀ input ∈ s.inputs, ∀ place ∈ input.place?, ¬ places place

theorem Clear.of_inputs {places : Files.Place → Prop} {s t : InputStack} (h : s.Clear places)
    (hsub : ∀ input ∈ t.inputs, input ∈ s.inputs) : t.Clear places :=
  fun input hi => h input (hsub input hi)

theorem Clear.readLine {places : Files.Place → Prop} {s : InputStack} (h : s.Clear places) :
    s.readLine.2.Clear places := by
  unfold InputStack.readLine
  split
  · exact h
  · rename_i top others hs
    split
    · exact h
    · rename_i reader hr
      intro input hi place hp
      rcases List.mem_cons.1 hi with rfl | hi
      · refine h top (by rw [hs]; exact List.mem_cons_self) place ?_
        unfold Input.place?
        rw [hr]
        exact Input.place?_read _ _ _ place hp
      · exact h input (by rw [hs]; exact List.mem_cons_of_mem _ hi) place hp

/-- Trees that agree on the files being read make no difference to reading. -/
theorem readLine_congr {places : Files.Place → Prop} {s t : InputStack}
    (hinputs : s.inputs = t.inputs) (hlocations : s.locations = t.locations)
    (htree : Files.Tree.Agrees places s.tree t.tree) (hclear : s.Clear places) :
    s.readLine.1 = t.readLine.1 ∧ s.readLine.2.inputs = t.readLine.2.inputs ∧
      s.readLine.2.locations = t.readLine.2.locations := by
  unfold readLine
  rw [← hinputs, ← hlocations]
  split
  · exact ⟨rfl, hinputs, hlocations⟩
  · rename_i top others hs
    split
    · exact ⟨rfl, hinputs, hlocations⟩
    · rename_i reader hr
      have hread : Input.read t.tree top reader = Input.read s.tree top reader := by
        refine (Input.read_congr fun place hp => htree.contentAt ?_).symm
        refine hclear top (by rw [hs]; exact List.mem_cons_self) place ?_
        unfold Input.place?
        rw [hr]
        exact hp
      rw [hread]
      exact ⟨rfl, rfl, rfl⟩

/-- The top input gives its lines, one after the other. -/
theorem readLine_reads {s : InputStack} {top : Input} {others : List Input} {lines : List Text}
    (hinputs : s.inputs = top :: others) (hreads : top.Reads s.tree lines) :
    match lines with
    | [] => s.readLine.1 = .ok none ∧ s.readLine.2.inputs.tail = others
    | line :: rest => s.readLine.1 = .ok (some line) ∧ ∃ after,
        s.readLine.2.inputs = after :: others ∧ after.location.file = top.location.file ∧
          after.Reads s.tree rest := by
  obtain ⟨reader, hreader, hreadable, hlines⟩ := hreads
  have hread := Input.read_reads (t := s.tree) top hreadable
  rw [hlines] at hread
  unfold readLine
  simp only [hinputs, hreader]
  cases lines with
  | nil => exact ⟨hread, rfl⟩
  | cons line rest => exact ⟨hread.1, _, rfl, Input.file_read _ _ _, hread.2⟩

/-- Opening goes by the inputs and the locations. -/
theorem bind_congr {s t : InputStack} (hinputs : s.inputs = t.inputs)
    (hlocations : s.locations = t.locations) (asked file : String) (reader? : Option Reader) :
    (s.bind asked file reader?).1 = (t.bind asked file reader?).1 ∧
      (s.bind asked file reader?).2.inputs = (t.bind asked file reader?).2.inputs ∧
      (s.bind asked file reader?).2.locations = (t.bind asked file reader?).2.locations := by
  unfold bind
  rw [← hinputs]
  split
  · exact ⟨rfl, hinputs, hlocations⟩
  · rename_i top others _
    by_cases hheld : ({ top with reader := none } :: others).any
        fun input => input.location.file == some file
    · simp only [holds, hheld, if_true]
      exact ⟨trivial, trivial, hlocations⟩
    · simp only [holds, hheld, Bool.false_eq_true, if_false]
      cases reader? with
      | none => exact ⟨rfl, rfl, hlocations⟩
      | some reader =>
        dsimp only
        rw [hlocations]
        exact ⟨rfl, rfl, rfl⟩

/-- What can be opened is, under a name that no input has. -/
theorem bind_ok {s : InputStack} {top : Input} {others : List Input} {file : String}
    (hinputs : s.inputs = top :: others)
    (hnew : ∀ input ∈ s.inputs, input.location.file ≠ some file) (asked : String) (reader : Reader) :
    ∃ t, s.bind asked file (some reader) = (.ok (), t) ∧
      t.inputs = { reader := some reader, location := { file := some file } } :: others ∧
      t.tree = s.tree ∧ t.includePath = s.includePath := by
  have hheld : ({ top with reader := none } :: others).any
      (fun input => input.location.file == some file) = false := by
    rw [List.any_eq_false]
    intro input hi
    rw [hinputs] at hnew
    rcases List.mem_cons.1 hi with rfl | hi
    · simpa using hnew top List.mem_cons_self
    · simpa using hnew input (List.mem_cons_of_mem _ hi)
  refine ⟨{ s with
    inputs := { reader := some reader, location := { file := some file } } :: others
    locations := s.locations.set .asm { file := some file }
    names := s.names.insert file }, ?_, rfl, rfl, rfl⟩
  unfold bind holds
  rw [hinputs]
  simp only [hheld, Bool.false_eq_true, if_false]

/-- An input that could not be opened reads nothing. -/
theorem Clear.bind_error {places : Files.Place → Prop} {s t : InputStack} {asked file : String}
    {reader? : Option Reader} {fault : Fault} (h : s.Clear places)
    (hb : s.bind asked file reader? = (.error fault, t)) : t.Clear places := by
  have hclosed : ∀ top others, s.inputs = top :: others → ∀ names,
      Clear places { s with inputs := { top with reader := none } :: others, names } := by
    intro top others hs names input hi place hp
    rcases List.mem_cons.1 hi with rfl | hi
    · exact absurd hp (Option.not_mem_none _)
    · exact h input (by rw [hs]; exact List.mem_cons_of_mem _ hi) place hp
  unfold bind at hb
  split at hb
  · obtain ⟨-, rfl⟩ := Prod.mk.inj hb
    exact h
  · rename_i top others hs
    dsimp only at hb
    split at hb
    · obtain ⟨-, rfl⟩ := Prod.mk.inj hb
      exact hclosed top others hs _
    · split at hb
      · obtain ⟨-, rfl⟩ := Prod.mk.inj hb
        exact hclosed top others hs _
      · exact absurd hb (by simp)

theorem pop_congr {s t : InputStack} (hinputs : s.inputs = t.inputs)
    (hlocations : s.locations = t.locations) :
    s.pop.inputs = t.pop.inputs ∧ s.pop.locations = t.pop.locations := by
  unfold pop
  rw [← hinputs]
  split
  · exact ⟨rfl, rfl⟩
  · rw [hlocations]
    exact ⟨rfl, rfl⟩

end AsmPrep.InputStack
