/-
Reading an input line by line.

A text in memory is all there from the start.  A file is read in blocks, each when the
bytes read before do not settle where the next line ends, and what is written to the
file in the meantime is seen by the blocks read later.

Every way to end a line comes back as one newline.  A carriage return at the very end of
what is read takes a look at what follows; when that finds the end of the file, nothing
is read any more.
-/
import AsmPrep.Files.Tree

namespace AsmPrep

/-- What is still to be read of an input. -/
inductive Reader where
  | text (rest : Text)
  /-- The file at a place: where the next block is read, and what was read and not yet taken. -/
  | file (place : Files.Place) (offset : Nat) (ready : Text)
  /-- Opened like a file, but not to be read, as a directory is. -/
  | unreadable
  deriving DecidableEq, Repr

namespace Reader

open Byte

/-! ### Lines of a text -/

/-- The rest of a line with one newline at its end, and what follows it.  A carriage return
ends a line, together with a newline directly after it; so does the end of the text. -/
def takeLine : Text → Text × Text
  | [] => ([newline], [])
  | c :: s =>
    if c = newline then ([newline], s)
    else if c = carriageReturn then ([newline], if s.head? = some newline then s.tail else s)
    else (takeLine s).map (c :: ·) id

/-- Whether a text settles where its first line ends, whatever may follow it. -/
def settlesLine : Text → Bool
  | [] => false
  | c :: s =>
    if c = newline then true
    else if c = carriageReturn then !s.isEmpty
    else settlesLine s

theorem takeLine_le (s : Text) : (takeLine s).2.length ≤ s.length := by
  fun_induction takeLine s with
  | case1 => exact Nat.le_refl _
  | case2 => exact Nat.le_succ _
  | case3 c s =>
    dsimp only
    split
    · rw [List.length_tail]
      exact Nat.le_succ_of_le (Nat.sub_le _ _)
    · exact Nat.le_succ _
  | case4 _ _ _ _ ih => exact Nat.le_succ_of_le ih

theorem takeLine_lt {s : Text} (h : s ≠ []) : (takeLine s).2.length < s.length := by
  match s with
  | [] => exact absurd rfl h
  | c :: s =>
    rw [takeLine]
    split
    · exact Nat.lt_succ_self _
    · split
      · dsimp only
        split
        · rw [List.length_tail]
          exact Nat.lt_succ_of_le (Nat.sub_le _ _)
        · exact Nat.lt_succ_self _
      · exact Nat.lt_succ_of_le (takeLine_le s)

/-! ### Blocks of a file -/

/-- Adds blocks from `beyond` until the text settles its first line, or nothing is left to add. -/
def gather (ready beyond : Text) : Text :=
  if settlesLine ready then ready
  else match beyond with
    | [] => ready
    | c :: s =>
      gather (ready ++ (c :: s).take Files.blockSize) ((c :: s).drop Files.blockSize)
termination_by beyond.length
decreasing_by
  rw [List.length_drop, List.length_cons]
  exact Nat.sub_lt (Nat.succ_pos _) (by decide)

theorem length_gather_ge (ready beyond : Text) :
    ready.length ≤ (gather ready beyond).length := by
  fun_induction gather ready beyond with
  | case1 | case2 => exact Nat.le_refl _
  | case3 ready c s _ ih =>
    refine Nat.le_trans ?_ ih
    rw [List.length_append]
    exact Nat.le_add_right _ _

theorem length_gather_le (ready beyond : Text) :
    (gather ready beyond).length ≤ ready.length + beyond.length := by
  fun_induction gather ready beyond with
  | case1 | case2 => exact Nat.le_add_right _ _
  | case3 ready c s _ ih =>
    rw [List.length_append, Nat.add_assoc, ← List.length_append, List.take_append_drop] at ih
    exact ih

/-- What a file holds from an offset on. -/
def beyond (tree : Files.Tree) (place : Files.Place) (offset : Nat) : Text :=
  ((tree.contentAt place).drop offset).take (Files.fileLimit - offset)

/-- Reads on until the next line is settled, or the end of the file is found. -/
def fill (tree : Files.Tree) : Reader → Reader
  | file place offset ready =>
    let got := gather ready (beyond tree place offset)
    if !settlesLine got && got.getLast? == some carriageReturn then text got
    else file place (offset + (got.length - ready.length)) got
  | reader => reader

/-- The next line and the reader after it, or nothing at the end. -/
def line? (tree : Files.Tree) (reader : Reader) : Option (Text × Reader) :=
  match reader.fill tree with
  | text (c :: s) => some ((takeLine (c :: s)).map id text)
  | file place offset (c :: s) => some ((takeLine (c :: s)).map id (file place offset))
  | _ => none

/-! ### Reading makes progress -/

/-- A bound on the bytes still to be read, however a file may grow. -/
def size : Reader → Nat
  | text rest => rest.length
  | file _ offset ready => ready.length + (Files.fileLimit - offset)
  | unreadable => 0

theorem size_fill_le (tree : Files.Tree) (reader : Reader) :
    (reader.fill tree).size ≤ reader.size := by
  match reader with
  | text _ | unreadable => exact Nat.le_refl _
  | file place offset ready =>
    have hge := length_gather_ge ready (beyond tree place offset)
    have hle := length_gather_le ready (beyond tree place offset)
    have hb : (beyond tree place offset).length ≤ Files.fileLimit - offset := by
      rw [beyond, List.length_take]
      exact Nat.min_le_left _ _
    unfold fill
    dsimp only
    split <;> dsimp only [size] <;> omega

theorem size_line?_lt {tree : Files.Tree} {reader after : Reader} {line : Text}
    (h : reader.line? tree = some (line, after)) : after.size < reader.size := by
  refine Nat.lt_of_lt_of_le ?_ (size_fill_le tree reader)
  unfold line? at h
  split at h
  · rename_i c s hf
    obtain ⟨-, rfl⟩ := Prod.mk.inj (Option.some.inj h)
    rw [hf]
    exact takeLine_lt (List.cons_ne_nil c s)
  · rename_i place offset c s hf
    obtain ⟨-, rfl⟩ := Prod.mk.inj (Option.some.inj h)
    rw [hf]
    exact Nat.add_lt_add_right (takeLine_lt (List.cons_ne_nil c s)) _
  · exact absurd h (by simp)

end Reader

namespace Files

/-- Opens what a path leads to. -/
def Tree.reader? (t : Tree) (path : String) : Option Reader :=
  (t.follow path).toOption.bind fun place =>
    (t.at? place).map fun
      | .file _ => .file place 0 []
      | .directory => .unreadable

/-- What can be opened has a path short enough. -/
theorem Tree.length_of_reader? (t : Tree) (path : String) (h : (t.reader? path).isSome) :
    path.utf8ByteSize < pathLimit := by
  refine length_of_find? (t := t) ?_
  unfold reader? at h
  unfold find?
  cases hp : (t.follow path).toOption with
  | none => simp [hp] at h
  | some place => simpa [hp] using h

end Files

end AsmPrep
