/-
Whole lines.

A line is whole when it ends with a newline and has no other.  Cutting a text into lines
gives whole lines, but for the last one when the text does not end with a newline; what is
put in front of a line without a newline of its own makes no difference to that.
-/
import AsmPrep.Proofs.Text.Delimiter

namespace AsmPrep

open Byte

namespace Text

/-- One line with its newline. -/
def Whole (s : Text) : Prop := ∃ body, s = body ++ [newline] ∧ newline ∉ body

/-- Empty, or ended by a newline. -/
def Closed (s : Text) : Prop := s = [] ∨ s.getLast? = some newline

instance (s : Text) : Decidable (Closed s) :=
  inferInstanceAs (Decidable (s = [] ∨ s.getLast? = some newline))

/-- A run of bytes of a class that leaves the newline out is within a line. -/
theorem not_mem_takeWhile {p : Byte → Bool} (hp : p newline = false) (s : Text) :
    newline ∉ s.takeWhile p := by
  intro h
  have hall := List.all_eq_true.1 List.all_takeWhile newline h
  exact absurd (hp.symm.trans hall) (by simp)

/-! ### Whole lines -/

theorem not_whole_nil : ¬ Whole [] := by
  rintro ⟨body, heq, -⟩
  exact absurd heq (by simp)

theorem whole_newline (s : Text) : Whole (newline :: s) ↔ s = [] := by
  constructor
  · rintro ⟨body, heq, hbody⟩
    cases body with
    | nil => exact (List.cons.inj heq).2
    | cons b body =>
      obtain ⟨rfl, -⟩ := List.cons.inj heq
      exact absurd List.mem_cons_self hbody
  · rintro rfl
    exact ⟨[], rfl, List.not_mem_nil⟩

theorem whole_cons {c : Byte} (hc : c ≠ newline) (s : Text) : Whole (c :: s) ↔ Whole s := by
  constructor
  · rintro ⟨body, heq, hbody⟩
    cases body with
    | nil => exact absurd (List.cons.inj heq).1 hc
    | cons b body => exact ⟨body, (List.cons.inj heq).2, fun h => hbody (List.mem_cons_of_mem _ h)⟩
  · rintro ⟨body, rfl, hbody⟩
    refine ⟨c :: body, rfl, ?_⟩
    intro h
    rcases List.mem_cons.1 h with h | h
    · exact hc h.symm
    · exact hbody h

/-- What stands in front within the line does not matter. -/
theorem whole_append {w : Text} (hw : newline ∉ w) (s : Text) : Whole (w ++ s) ↔ Whole s := by
  induction w with
  | nil => exact Iff.rfl
  | cons c w ih =>
    have hc : c ≠ newline := fun h => hw (h ▸ List.mem_cons_self)
    rw [List.cons_append, whole_cons hc]
    exact ih fun h => hw (List.mem_cons_of_mem _ h)

theorem Whole.ne_nil {s : Text} (h : Whole s) : s ≠ [] := fun hs => not_whole_nil (hs ▸ h)

/-- A tail of a whole line is whole, unless it is empty. -/
theorem Whole.suffix {s rest : Text} (h : Whole s) (hs : rest <:+ s) (hr : rest ≠ []) :
    Whole rest := by
  obtain ⟨w, rfl⟩ := hs
  refine (whole_append ?_ rest).1 h
  intro hw
  obtain ⟨front, c, rfl⟩ := (List.eq_nil_or_concat rest).resolve_left hr
  obtain ⟨body, heq, hbody⟩ := h
  rw [List.concat_eq_append, ← List.append_assoc] at heq
  have hfront : w ++ front = body := (List.append_inj' heq rfl).1
  exact hbody (hfront ▸ List.mem_append_left front hw)

/-! ### Closed texts -/

theorem closed_append (w : Text) {s : Text} (hs : s ≠ []) : Closed (w ++ s) ↔ Closed s := by
  obtain ⟨front, c, rfl⟩ := (List.eq_nil_or_concat s).resolve_left hs
  simp [Closed]

theorem Whole.closed {s : Text} (h : Whole s) : Closed s := by
  obtain ⟨body, rfl, -⟩ := h
  exact .inr (by simp)

/-! ### Cutting into lines -/

/-- A line that is whole, or would be with a newline at its end. -/
def OneLine (s : Text) : Prop := Whole s ∨ (s ≠ [] ∧ newline ∉ s)

theorem oneLine_cons {c : Byte} (hc : c ≠ newline) {s : Text} (h : OneLine s) :
    OneLine (c :: s) := by
  rcases h with h | ⟨-, h⟩
  · exact .inl ((whole_cons hc s).2 h)
  · refine .inr ⟨List.cons_ne_nil c s, ?_⟩
    intro hmem
    rcases List.mem_cons.1 hmem with hmem | hmem
    · exact hc hmem.symm
    · exact h hmem

theorem oneLine_of_mem_lines {s line : Text} (h : line ∈ lines s) : OneLine line := by
  induction s generalizing line with
  | nil => exact absurd h List.not_mem_nil
  | cons c s ih =>
    rw [lines] at h
    split at h
    · rename_i hc
      rcases List.mem_cons.1 h with rfl | h
      · exact .inl (hc ▸ (whole_newline []).2 rfl)
      · exact ih h
    · rename_i hc
      split at h
      · obtain rfl := List.mem_singleton.1 h
        exact .inr ⟨List.cons_ne_nil c [], by simpa using Ne.symm hc⟩
      · rename_i first others hs
        rcases List.mem_cons.1 h with rfl | h
        · exact oneLine_cons hc (ih (hs ▸ List.mem_cons_self))
        · exact ih (hs ▸ List.mem_cons_of_mem _ h)

theorem lines_eq_nil {s : Text} : lines s = [] ↔ s = [] := by
  constructor
  · intro h
    cases s with
    | nil => rfl
    | cons c s =>
      rw [lines] at h
      split at h
      · exact absurd h (by simp)
      · split at h
        · exact absurd h (by simp)
        · exact absurd h (by simp)
  · rintro rfl
    rfl

/-- A whole line is the first one of a text that begins with it. -/
theorem Whole.lines_append {s : Text} (h : Whole s) (more : Text) :
    lines (s ++ more) = s :: lines more := by
  obtain ⟨body, rfl, hbody⟩ := h
  induction body with
  | nil => rfl
  | cons c body ih =>
    have hc : c ≠ newline := fun h => hbody (h ▸ List.mem_cons_self)
    rw [List.cons_append, List.cons_append, lines, if_neg hc,
      ih fun h => hbody (List.mem_cons_of_mem _ h)]

/-- A whole line is its only line. -/
theorem Whole.lines_eq {s : Text} (h : Whole s) : lines s = [s] := by
  have hlines := h.lines_append []
  rwa [List.append_nil] at hlines

theorem flatten_lines (s : Text) : (lines s).flatten = s := by
  induction s with
  | nil => rfl
  | cons c s ih =>
    rw [lines]
    split
    · rw [List.flatten_cons, ih, List.singleton_append]
    · cases hs : lines s with
      | nil =>
        rw [lines_eq_nil.1 hs]
        rfl
      | cons first others =>
        rw [hs] at ih
        dsimp only
        rw [List.flatten_cons, List.cons_append, ← List.flatten_cons, ih]

/-- The lines of a text are whole when the text ends with one. -/
theorem whole_lines_iff (s : Text) : (∀ line ∈ lines s, Whole line) ↔ Closed s := by
  induction s with
  | nil => exact ⟨fun _ => .inl rfl, fun _ _ h => absurd h List.not_mem_nil⟩
  | cons c s ih =>
    by_cases hs : s = []
    · subst hs
      by_cases hc : c = newline
      · simp [lines, hc, whole_newline, Closed]
      · simp [lines, hc, whole_cons, not_whole_nil, Closed]
    · have hrest : Closed (c :: s) ↔ Closed s := closed_append [c] hs
      rw [hrest, ← ih, lines]
      by_cases hc : c = newline
      · rw [if_pos hc, List.forall_mem_cons, hc]
        exact and_iff_right ((whole_newline []).2 rfl)
      · rw [if_neg hc]
        cases hl : lines s with
        | nil => exact absurd (lines_eq_nil.1 hl) hs
        | cons first others =>
          dsimp only
          rw [List.forall_mem_cons, List.forall_mem_cons, whole_cons hc]

/-! ### Within a line -/

/-- `rest` is what follows something within the line. -/
def WithinLine (rest s : Text) : Prop := ∃ w, w ++ rest = s ∧ newline ∉ w

namespace WithinLine

variable {s rest last : Text}

theorem refl (s : Text) : WithinLine s s := ⟨[], rfl, List.not_mem_nil⟩

theorem trans (h : WithinLine rest s) (h' : WithinLine last rest) : WithinLine last s := by
  obtain ⟨w, rfl, hw⟩ := h
  obtain ⟨w', rfl, hw'⟩ := h'
  refine ⟨w ++ w', List.append_assoc _ _ _, ?_⟩
  simp [hw, hw']

theorem cons {c : Byte} (hc : c ≠ newline) (s : Text) : WithinLine s (c :: s) :=
  ⟨[c], rfl, by simpa using Ne.symm hc⟩

theorem whole_iff (h : WithinLine rest s) : Whole s ↔ Whole rest := by
  obtain ⟨w, rfl, hw⟩ := h
  exact whole_append hw rest

theorem not_mem (h : WithinLine rest s) (hs : newline ∉ s) : newline ∉ rest := by
  obtain ⟨w, rfl, -⟩ := h
  exact fun hr => hs (List.mem_append_right w hr)

end WithinLine

theorem skipBlanks_within (s : Text) : WithinLine (skipBlanks s) s :=
  ⟨s.takeWhile isBlank, List.takeWhile_append_dropWhile, not_mem_takeWhile (by decide) s⟩

end Text

namespace Lexeme

open Text

theorem identifier?_within {s lexeme rest : Text} (h : identifier? s = some (lexeme, rest)) :
    newline ∉ lexeme :=
  fun hmem => absurd (identifier?_bytes h newline hmem) (by decide)

/-- A name has no line end in it. -/
theorem name?_within {s lexeme rest : Text} (h : name? s = some (lexeme, rest)) :
    newline ∉ lexeme := by
  cases s with
  | nil => simp [name?] at h
  | cons c s =>
    rw [name?] at h
    split at h
    · rename_i hc
      obtain ⟨⟨n, r⟩, hn, hr⟩ := Option.map_eq_some_iff.1 h
      obtain ⟨rfl, rfl⟩ := Prod.mk.inj hr
      intro hmem
      rcases List.mem_cons.1 hmem with rfl | hmem
      · exact absurd hc (by decide)
      · exact identifier?_within hn hmem
    · exact identifier?_within h

/-- A number has no line end in it. -/
theorem number?_within {s lexeme rest : Text} (h : number? s = some (lexeme, rest)) :
    newline ∉ lexeme :=
  fun hmem => absurd (number?_bytes h newline hmem) (by decide)

theorem paste?_within {s rest : Text} (h : paste? s = some rest) : WithinLine rest s := by
  unfold paste? at h
  split at h
  · split at h
    · rename_i c d s hc
      obtain rfl := Option.some.inj h
      obtain ⟨rfl, rfl⟩ : c = hash ∧ d = hash := by simpa using hc
      have hmark : WithinLine s (hash :: hash :: s) :=
        (WithinLine.cons (by decide) (hash :: s)).trans (.cons (by decide) s)
      exact hmark.trans (skipBlanks_within s)
    · exact absurd h (by simp)
  · exact absurd h (by simp)

theorem word?_within {word s rest : Text} (hword : newline ∉ word.map toLower)
    (h : word? word s = some rest) : WithinLine rest s := by
  unfold word? at h
  dsimp only at h
  split at h
  · rename_i hsame
    obtain rfl := Option.some.inj h
    refine ⟨s.take word.length, List.take_append_drop _ _, ?_⟩
    intro hmem
    have hletters : (s.take word.length).map toLower = word.map toLower := by
      rw [Bool.and_eq_true] at hsame
      exact eq_of_beq hsame.1
    have hlower : newline ∈ (s.take word.length).map toLower :=
      List.mem_map.2 ⟨newline, hmem, by decide⟩
    exact hword (hletters ▸ hlower)
  · exact absurd h (by simp)

end Lexeme

end AsmPrep
