/-
What a writer has written.

It is what has reached the file, with what is pending after it, as long as nobody else
writes to the file.  Flushing brings the file to that.  Two writers that are given the
same texts stay apart by what the first of them had written before.
-/
import AsmPrep.Files.Writer
import AsmPrep.Proofs.Files.Tree

namespace AsmPrep.Files

namespace Writer

variable {w : Writer} {t : Tree} {text : Text}

/-- All that the writer was given is this text: the file holds the beginning of it, and the rest
is pending and fills the block with the room that is left. -/
def Holds (w : Writer) (t : Tree) (text : Text) : Prop :=
  ∃ content, t.at? w.place = some (.file content) ∧ w.offset = content.length ∧
    content ++ w.pending.toText = text ∧ w.room + w.pending.toText.length = blockSize

/-- A writer begins with an empty file. -/
theorem holds_nil {place : Place} (h : t.at? place = some (.file [])) :
    Holds { place } t [] := ⟨[], h, rfl, rfl, rfl⟩

@[simp] theorem put_place (w : Writer) (s : Text) (t : Tree) : (w.put s t).1.place = w.place := rfl

@[simp] theorem flush_place (w : Writer) (t : Tree) : (w.flush t).1.place = w.place := rfl

/-- The writer once there is room for a text of that size in its block, or nothing is in it. -/
def ready (w : Writer) (size : Nat) (t : Tree) : Writer × Tree :=
  if w.room < size then w.flush t else (w, t)

theorem write_eq (w : Writer) (s : Text) (t : Tree) :
    w.write s t =
      let made := w.ready s.length t
      if blockSize ≤ s.length then made.1.put s made.2
      else ({ made.1 with
        pending := made.1.pending.append s
        room := made.1.room - s.length }, made.2) := rfl

@[simp] theorem ready_place (w : Writer) (size : Nat) (t : Tree) :
    (w.ready size t).1.place = w.place := by
  unfold ready
  split
  · rfl
  · rfl

@[simp] theorem write_place (w : Writer) (s : Text) (t : Tree) :
    (w.write s t).1.place = w.place := by
  rw [write_eq]
  dsimp only
  split
  · exact ready_place w _ t
  · exact ready_place w _ t

/-- Writing changes no other file. -/
theorem at?_flush_ne {p : Place} (h : p ≠ w.place) (t : Tree) :
    (w.flush t).2.at? p = t.at? p := Tree.at?_overwrite_ne t _ _ h

theorem at?_write_ne {p : Place} (h : p ≠ w.place) (s : Text) (t : Tree) :
    (w.write s t).2.at? p = t.at? p := by
  have hready : (w.ready s.length t).2.at? p = t.at? p := by
    unfold ready
    split
    · exact at?_flush_ne h t
    · rfl
  rw [write_eq]
  dsimp only
  split
  · refine (Tree.at?_overwrite_ne _ _ _ ?_).trans hready
    rwa [ready_place]
  · exact hready

/-- Flushing brings the file to all that was written. -/
theorem at?_flush_self (h : w.Holds t text) : (w.flush t).2.at? w.place = some (.file text) := by
  obtain ⟨content, hfile, hoffset, htext, -⟩ := h
  unfold flush put
  dsimp only
  rw [hoffset, Tree.at?_overwrite_end hfile, htext]

theorem flush_holds (h : w.Holds t text) : (w.flush t).1.Holds (w.flush t).2 text := by
  refine ⟨text, at?_flush_self h, ?_, List.append_nil _, rfl⟩
  obtain ⟨content, -, hoffset, htext, -⟩ := h
  show w.offset + w.pending.toText.length = text.length
  rw [hoffset, ← htext, List.length_append]

theorem ready_holds (h : w.Holds t text) (size : Nat) :
    (w.ready size t).1.Holds (w.ready size t).2 text := by
  unfold ready
  split
  · exact flush_holds h
  · exact h

/-- There is room in the block then, or the block is empty. -/
theorem room_ready (w : Writer) (t : Tree) (size : Nat) :
    size ≤ (w.ready size t).1.room ∨ (w.ready size t).1.pending.toText = [] := by
  unfold ready
  split
  · exact .inr rfl
  · rename_i hroom
    exact .inl (Nat.le_of_not_lt hroom)

/-- **A text that is written is added to what was.** -/
theorem write_holds (h : w.Holds t text) (s : Text) :
    (w.write s t).1.Holds (w.write s t).2 (text ++ s) := by
  have hroom := room_ready w t s.length
  obtain ⟨content, hfile, hoffset, htext, hblock⟩ := ready_holds h s.length
  rw [write_eq]
  dsimp only
  generalize w.ready s.length t = made at *
  split
  · -- A text as large as a block goes past it, and the block is empty.
    rename_i hlarge
    have hempty : made.1.pending.toText = [] := by
      rcases hroom with hroom | hempty
      · exact List.eq_nil_of_length_eq_zero (by omega)
      · exact hempty
    rw [hempty, List.append_nil] at htext
    refine ⟨content ++ s, ?_, ?_, ?_, hblock⟩
    · show (made.2.overwrite made.1.place made.1.offset s).at? made.1.place = _
      rw [hoffset, Tree.at?_overwrite_end hfile]
    · show made.1.offset + s.length = _
      rw [hoffset, List.length_append]
    · show content ++ s ++ made.1.pending.toText = _
      rw [hempty, List.append_nil, htext]
  · rename_i hsmall
    refine ⟨content, hfile, hoffset, ?_, ?_⟩
    · show content ++ (made.1.pending.append s).toText = _
      rw [Buffer.toText_append, ← List.append_assoc, htext]
    · show made.1.room - s.length + (made.1.pending.append s).toText.length = blockSize
      rw [Buffer.toText_append, List.length_append]
      rcases hroom with hroom | hempty
      · omega
      · rw [hempty, List.length_nil] at hblock ⊢
        omega

end Writer

/-! ### Two writers on files of the same place -/

/-- Both write to the same place, and what the first one was given is what the other was given,
after this. -/
def Ahead (before : Text) (t u : Tree) : Option Writer → Option Writer → Prop
  | some w, some v => w.place = v.place ∧ ∃ text, w.Holds t (before ++ text) ∧ v.Holds u text
  | none, none => True
  | _, _ => False

namespace Ahead

variable {before : Text} {t u t' u' : Tree} {w v : Option Writer}

theorem holds (h : Ahead before t u w v) {x y : Writer} (hx : x ∈ w) (hy : y ∈ v) :
    ∃ text, x.Holds t (before ++ text) ∧ y.Holds u text := by
  obtain rfl : w = some x := hx
  obtain rfl : v = some y := hy
  exact h.2

theorem write (h : Ahead before t u w v) (s : Text) :
    Ahead before (writeTo w s t).2 (writeTo v s u).2 (writeTo w s t).1 (writeTo v s u).1 := by
  match w, v, h with
  | none, none, _ => exact trivial
  | some w, some v, ⟨hplace, text, hw, hv⟩ =>
    refine ⟨?_, text ++ s, ?_, Writer.write_holds hv s⟩
    · show (w.write s t).1.place = (v.write s u).1.place
      rw [Writer.write_place, Writer.write_place, hplace]
    · rw [← List.append_assoc]
      exact Writer.write_holds hw s

theorem flush (h : Ahead before t u w v) :
    Ahead before (flushTo w t).2 (flushTo v u).2 (flushTo w t).1 (flushTo v u).1 := by
  match w, v, h with
  | none, none, _ => exact trivial
  | some w, some v, ⟨hplace, text, hw, hv⟩ =>
    exact ⟨hplace, text, Writer.flush_holds hw, Writer.flush_holds hv⟩

/-- What happens to other files makes no difference. -/
theorem of_at? (h : Ahead before t u w v) (ht : ∀ x ∈ w, t'.at? x.place = t.at? x.place)
    (hu : ∀ x ∈ v, u'.at? x.place = u.at? x.place) : Ahead before t' u' w v := by
  match w, v, h with
  | none, none, _ => exact trivial
  | some w, some v, ⟨hplace, text, hw, hv⟩ =>
    refine ⟨hplace, text, ?_, ?_⟩
    · unfold Writer.Holds
      rw [ht w rfl]
      exact hw
    · unfold Writer.Holds
      rw [hu v rfl]
      exact hv

end Ahead

/-! ### Files that are written, and the others -/

theorem at?_writeTo_ne {w : Option Writer} {p : Place} (h : ∀ x ∈ w, x.place ≠ p) (s : Text)
    (t : Tree) : (writeTo w s t).2.at? p = t.at? p := by
  match w with
  | none => rfl
  | some w => exact Writer.at?_write_ne (h w rfl).symm s t

theorem at?_flushTo_ne {w : Option Writer} {p : Place} (h : ∀ x ∈ w, x.place ≠ p) (t : Tree) :
    (flushTo w t).2.at? p = t.at? p := by
  match w with
  | none => rfl
  | some w => exact Writer.at?_flush_ne (h w rfl).symm t

/-- The working directory stays the same. -/
theorem home_flushTo (w : Option Writer) (t : Tree) : (flushTo w t).2.home = t.home := by
  match w with
  | none => rfl
  | some w => rfl

theorem home_writeTo (w : Option Writer) (s : Text) (t : Tree) :
    (writeTo w s t).2.home = t.home := by
  match w with
  | none => rfl
  | some w =>
    have hready : (w.ready s.length t).2.home = t.home := by
      unfold Writer.ready
      split
      · rfl
      · rfl
    show (w.write s t).2.home = t.home
    rw [Writer.write_eq]
    dsimp only
    split
    · exact hready
    · exact hready

/-- A writer stays with its file. -/
theorem place_writeTo {w : Option Writer} {s : Text} {t : Tree} {P : Place → Prop} :
    (∀ x ∈ (writeTo w s t).1, P x.place) ↔ ∀ x ∈ w, P x.place := by
  match w with
  | none => exact Iff.rfl
  | some w => simp [writeTo]

theorem place_flushTo {w : Option Writer} {t : Tree} {P : Place → Prop} :
    (∀ x ∈ (flushTo w t).1, P x.place) ↔ ∀ x ∈ w, P x.place := by
  match w with
  | none => exact Iff.rfl
  | some w => simp [flushTo]

/-! ### Files stay files -/

theorem file_overwrite {t : Tree} {q : Place} (h : ∃ content, t.at? q = some (.file content))
    (p : Place) (offset : Nat) (text : Text) :
    ∃ content, (t.overwrite p offset text).at? q = some (.file content) := by
  obtain ⟨content, hfile⟩ := h
  by_cases heq : q = p
  · subst heq
    exact ⟨_, Tree.at?_put_self t _ (Tree.names_of_file hfile)⟩
  · exact ⟨content, (Tree.at?_overwrite_ne t offset text heq).trans hfile⟩

theorem file_flush {t : Tree} {q : Place} (h : ∃ content, t.at? q = some (.file content))
    (w : Writer) : ∃ content, (w.flush t).2.at? q = some (.file content) :=
  file_overwrite h _ _ _

theorem file_write {t : Tree} {q : Place} (h : ∃ content, t.at? q = some (.file content))
    (w : Writer) (s : Text) : ∃ content, (w.write s t).2.at? q = some (.file content) := by
  have hready : ∃ content, (w.ready s.length t).2.at? q = some (.file content) := by
    unfold Writer.ready
    split
    · exact file_flush h w
    · exact h
  rw [Writer.write_eq]
  dsimp only
  split
  · exact file_overwrite hready _ _ _
  · exact hready

namespace Tree.Agrees

variable {written : Place → Prop} {t u : Tree} {w : Option Writer}

/-- Writing to a file that may differ keeps the trees so. -/
theorem writeTo (h : Agrees written t u) (hw : ∀ x ∈ w, written x.place) (s : Text) :
    Agrees written (writeTo w s t).2 u := by
  refine ⟨(home_writeTo w s t).trans h.home, fun q hq => ?_, fun q hq => ⟨?_, (h.on q hq).2⟩⟩
  · have hne : ∀ x ∈ w, x.place ≠ q := fun x hx heq => hq (heq ▸ hw x hx)
    rw [at?_writeTo_ne hne s t, h.off q hq]
  · match w with
    | none => exact (h.on q hq).1
    | some w => exact file_write (h.on q hq).1 w s

theorem flushTo (h : Agrees written t u) (hw : ∀ x ∈ w, written x.place) :
    Agrees written (flushTo w t).2 u := by
  refine ⟨(home_flushTo w t).trans h.home, fun q hq => ?_, fun q hq => ⟨?_, (h.on q hq).2⟩⟩
  · have hne : ∀ x ∈ w, x.place ≠ q := fun x hx heq => hq (heq ▸ hw x hx)
    rw [at?_flushTo_ne hne t, h.off q hq]
  · match w with
    | none => exact (h.on q hq).1
    | some w => exact file_flush (h.on q hq).1 w

end Tree.Agrees

end AsmPrep.Files
