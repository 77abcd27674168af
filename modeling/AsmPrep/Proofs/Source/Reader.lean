/-
What a reader depends on.

A reader of a file sees what the file holds, and nothing else of the files there are.  It
stays with that file until it has found the end of it.
-/
import AsmPrep.Source.Stack
import AsmPrep.Proofs.Text.Line

namespace AsmPrep

namespace Reader

variable {t u : Files.Tree} {reader after : Reader} {line : Text}

/-- The file that is read. -/
def place? : Reader → Option Files.Place
  | file place _ _ => some place
  | _ => none

/-- All that a reader has still to give, when its file stays as it is. -/
def rest (t : Files.Tree) : Reader → Text
  | text rest => rest
  | file place offset ready => ready ++ beyond t place offset
  | unreadable => []

theorem line?_congr (h : ∀ place ∈ reader.place?, t.contentAt place = u.contentAt place) :
    reader.line? t = reader.line? u := by
  have hfill : reader.fill t = reader.fill u := by
    match reader with
    | text _ => rfl
    | unreadable => rfl
    | file place offset ready =>
      unfold fill beyond
      dsimp only
      rw [h place rfl]
  unfold line?
  rw [hfill]

theorem rest_congr (h : ∀ place ∈ reader.place?, t.contentAt place = u.contentAt place) :
    reader.rest t = reader.rest u := by
  match reader with
  | text _ => rfl
  | unreadable => rfl
  | file place offset ready =>
    unfold rest beyond
    dsimp only
    rw [h place rfl]

theorem place?_fill (t : Files.Tree) (reader : Reader) :
    ∀ place ∈ (reader.fill t).place?, place ∈ reader.place? := by
  match reader with
  | text _ => exact fun _ h => h
  | unreadable => exact fun _ h => h
  | file place offset ready =>
    unfold fill
    dsimp only
    split
    · exact fun _ h => absurd h (Option.not_mem_none _)
    · exact fun _ h => h

/-- Reading goes on in the same file. -/
theorem place?_line? (h : reader.line? t = some (line, after)) :
    ∀ place ∈ after.place?, place ∈ reader.place? := by
  have hfill := place?_fill t reader
  unfold line? at h
  split at h
  · obtain ⟨-, rfl⟩ := Prod.mk.inj (Option.some.inj h)
    exact fun _ h => absurd h (Option.not_mem_none _)
  · rename_i place offset c s hf
    obtain ⟨-, rfl⟩ := Prod.mk.inj (Option.some.inj h)
    rw [hf] at hfill
    exact hfill
  · exact absurd h (by simp)

/-! ### What is still to be read -/

open Byte

/-- The lines of a text, as they are read. -/
def lines (s : Text) : List Text :=
  if _ : s = [] then []
  else (takeLine s).1 :: lines (takeLine s).2
termination_by s.length
decreasing_by exact takeLine_lt (by assumption)

theorem lines_nil : lines [] = [] := by
  rw [lines, dif_pos rfl]

theorem lines_of_ne_nil {s : Text} (h : s ≠ []) :
    lines s = (takeLine s).1 :: lines (takeLine s).2 := by
  rw [lines, dif_neg h]

/-- Where the line is settled, more text makes no difference to it. -/
theorem takeLine_append {s : Text} (h : settlesLine s = true) (more : Text) :
    takeLine (s ++ more) = (takeLine s).map id (· ++ more) := by
  induction s with
  | nil => exact absurd h (by simp [settlesLine])
  | cons c s ih =>
    rw [settlesLine] at h
    rw [List.cons_append, takeLine, takeLine]
    split
    · rfl
    · rename_i hc
      rw [if_neg hc] at h
      split
      · rename_i hcr
        rw [if_pos hcr] at h
        cases s with
        | nil => exact absurd h (by simp)
        | cons d s =>
          by_cases hd : d = newline
          · simp [hd]
          · simp [hd]
      · rename_i hcr
        rw [if_neg hcr] at h
        rw [ih h]
        rfl

/-- Blocks are added until the line is settled, or until there are no more. -/
theorem gather_spec (ready beyond : Text) : ∃ added more, beyond = added ++ more ∧
    gather ready beyond = ready ++ added ∧
      (settlesLine (gather ready beyond) = true ∨ more = []) := by
  fun_induction gather ready beyond with
  | case1 ready beyond h => exact ⟨[], beyond, rfl, (List.append_nil ready).symm, .inl h⟩
  | case2 ready h => exact ⟨[], [], rfl, (List.append_nil ready).symm, .inr rfl⟩
  | case3 ready _ c s ih =>
    obtain ⟨added, more, hbeyond, hgather, hend⟩ := ih
    refine ⟨(c :: s).take Files.blockSize ++ added, more, ?_, ?_, hend⟩
    · rw [List.append_assoc, ← hbeyond, List.take_append_drop]
    · rw [hgather, List.append_assoc]

theorem beyond_add (t : Files.Tree) (place : Files.Place) (offset n : Nat) :
    beyond t place (offset + n) = (beyond t place offset).drop n := by
  unfold beyond
  rw [List.drop_take, List.drop_drop, Nat.sub_sub]

/-- Reading on adds nothing to what there is, and either settles the line or finds the end. -/
theorem fill_spec (t : Files.Tree) {reader : Reader} (h : reader ≠ .unreadable) :
    (∃ s, reader.fill t = .text s ∧ reader.rest t = s) ∨
      ∃ place offset ready, reader.fill t = .file place offset ready ∧
        reader.rest t = ready ++ beyond t place offset ∧
        (settlesLine ready = true ∨ beyond t place offset = []) := by
  match reader with
  | text s => exact .inl ⟨s, rfl, rfl⟩
  | unreadable => exact absurd rfl h
  | file place offset ready =>
    obtain ⟨added, more, hbeyond, hgather, hend⟩ := gather_spec ready (beyond t place offset)
    have hmore : beyond t place (offset + ((ready ++ added).length - ready.length)) = more := by
      rw [beyond_add, hbeyond, List.length_append, Nat.add_sub_cancel_left, List.drop_left]
    unfold fill rest
    dsimp only
    rw [hgather] at hend ⊢
    split
    · rename_i hlast
      have hsettled : settlesLine (ready ++ added) = false := by
        simpa using (Bool.and_eq_true_iff.1 hlast).1
      refine .inl ⟨ready ++ added, rfl, ?_⟩
      rw [hbeyond, hend.resolve_left (by simp [hsettled]), List.append_nil]
    · refine .inr ⟨place, _, ready ++ added, rfl, ?_, ?_⟩
      · rw [hmore, hbeyond, List.append_assoc]
      · rw [hmore]
        exact hend

/-- A reader gives one line after another. -/
theorem line?_spec (t : Files.Tree) {reader : Reader} (h : reader ≠ .unreadable) :
    match lines (reader.rest t) with
    | [] => reader.line? t = none
    | line :: others => ∃ after, reader.line? t = some (line, after) ∧ after ≠ .unreadable ∧
        lines (after.rest t) = others := by
  unfold line?
  rcases fill_spec t h with ⟨s, hfill, hrest⟩ | ⟨place, offset, ready, hfill, hrest, hend⟩
  · rw [hfill, hrest]
    cases s with
    | nil =>
      rw [lines_nil]
    | cons c s =>
      rw [lines_of_ne_nil (List.cons_ne_nil c s)]
      exact ⟨_, rfl, by simp, rfl⟩
  · rw [hfill, hrest]
    cases ready with
    | nil =>
      have hnil : beyond t place offset = [] := hend.resolve_left (by simp [settlesLine])
      rw [hnil, List.append_nil, lines_nil]
    | cons c s =>
      have htake : takeLine (c :: s ++ beyond t place offset) =
          (takeLine (c :: s)).map id (· ++ beyond t place offset) := by
        rcases hend with hsettled | hnil
        · exact takeLine_append hsettled _
        · rw [hnil, List.append_nil]
          exact Prod.ext rfl (List.append_nil _).symm
      rw [lines_of_ne_nil (by simp), htake]
      exact ⟨_, rfl, by simp, rfl⟩

/-- Every line that is read is whole. -/
theorem takeLine_whole (s : Text) : Text.Whole (takeLine s).1 := by
  fun_induction takeLine s with
  | case1 => exact (Text.whole_newline []).2 rfl
  | case2 => exact (Text.whole_newline []).2 rfl
  | case3 => exact (Text.whole_newline []).2 rfl
  | case4 c s hc _ ih => exact (Text.whole_cons hc _).2 ih

/-- A line is a line wherever it stands. -/
theorem takeLine_takeLine (s more : Text) :
    takeLine ((takeLine s).1 ++ more) = ((takeLine s).1, more) := by
  fun_induction takeLine s with
  | case1 => rfl
  | case2 => rfl
  | case3 => rfl
  | case4 c s hc hcr ih =>
    show takeLine (c :: ((takeLine s).1 ++ more)) = _
    rw [takeLine, if_neg hc, if_neg hcr, ih]
    rfl

/-- The text is one line and no more. -/
def IsLine (line : Text) : Prop := ∃ s, line = (takeLine s).1

theorem isLine_of_mem_lines {s line : Text} (h : line ∈ lines s) : IsLine line := by
  induction s using lines.induct with
  | case1 =>
    rw [lines_nil] at h
    exact absurd h List.not_mem_nil
  | case2 s hne ih =>
    rw [lines_of_ne_nil hne] at h
    rcases List.mem_cons.1 h with rfl | h
    · exact ⟨s, rfl⟩
    · exact ih h

/-- Lines that are put together come apart again. -/
theorem lines_flatten {ls : List Text} (h : ∀ line ∈ ls, IsLine line) : lines ls.flatten = ls := by
  induction ls with
  | nil => exact lines_nil
  | cons line ls ih =>
    obtain ⟨s, rfl⟩ := h line List.mem_cons_self
    have htake := takeLine_takeLine s ls.flatten
    have hne : (takeLine s).1 ++ ls.flatten ≠ [] := by
      fun_cases takeLine s <;> simp
    rw [List.flatten_cons, lines_of_ne_nil hne, htake]
    exact congrArg _ (ih fun line hl => h line (List.mem_cons_of_mem _ hl))

end Reader

namespace Input

variable {t u : Files.Tree} {input : Input} {reader : Reader}

/-- The file that an input reads. -/
def place? (input : Input) : Option Files.Place := input.reader.bind Reader.place?

theorem read_congr (h : ∀ place ∈ reader.place?, t.contentAt place = u.contentAt place) :
    Input.read t input reader = Input.read u input reader := by
  unfold Input.read
  rw [Reader.line?_congr h]

theorem place?_read (t : Files.Tree) (input : Input) (reader : Reader) :
    ∀ place ∈ (Input.read t input reader).2.place?, place ∈ reader.place? := by
  unfold Input.read
  dsimp only
  split
  · exact fun _ h => absurd h (Option.not_mem_none _)
  · split
    · exact fun _ h => absurd h (Option.not_mem_none _)
    · rename_i hl
      exact Reader.place?_line? hl

theorem file_read (t : Files.Tree) (input : Input) (reader : Reader) :
    (Input.read t input reader).2.location.file = input.location.file := by
  unfold Input.read
  dsimp only
  split
  · rfl
  · split
    · rfl
    · rfl

/-- The input gives these lines and then its end, when its file stays as it is. -/
def Reads (t : Files.Tree) (lines : List Text) (input : Input) : Prop :=
  ∃ reader, input.reader = some reader ∧ reader ≠ .unreadable ∧ Reader.lines (reader.rest t) = lines

theorem Reads.congr {lines : List Text} (h : input.Reads t lines)
    (hsame : ∀ place ∈ input.place?, t.contentAt place = u.contentAt place) :
    input.Reads u lines := by
  obtain ⟨reader, hreader, hreadable, hlines⟩ := h
  refine ⟨reader, hreader, hreadable, ?_⟩
  rwa [← Reader.rest_congr (t := t) fun place hp => hsame place (by rwa [place?, hreader])]

theorem read_reads (input : Input) (h : reader ≠ .unreadable) :
    match Reader.lines (reader.rest t) with
    | [] => (Input.read t input reader).1 = .ok none
    | line :: others => (Input.read t input reader).1 = .ok (some line) ∧
        (Input.read t input reader).2.Reads t others := by
  have hline := Reader.line?_spec t h
  unfold Input.read
  simp only [if_neg h]
  match hlines : Reader.lines (reader.rest t) with
  | [] =>
    rw [hlines] at hline
    rw [show reader.line? t = none from hline]
  | line :: others =>
    rw [hlines] at hline
    obtain ⟨after, hsome, hreadable, hothers⟩ := hline
    rw [hsome]
    exact ⟨rfl, after, rfl, hreadable, hothers⟩

end Input

end AsmPrep
