/-
A source that plays back prepared answers.

It stands for any source at all: whatever a source is going to answer can be written
down beforehand.  Lines are handed out untouched, with or without a line end.  Past its
last answer a feed gives its end, as often as it is asked.
-/
import AsmPrep.Preprocessor

namespace AsmPrep

structure Feed where
  /-- The answers still to give: a line, an end, or a fault. -/
  answers : List (Except Fault (Option Text))
  /-- The file that the lines are said to come from. -/
  file : String
  requests : Nat := 0
  /-- Whether it was asked past its last answer. -/
  ended : Bool := false

namespace Feed

/-- A feed of these answers, none of them given yet. -/
def ofAnswers (file : String) (answers : List (Except Fault (Option Text))) : Feed :=
  { answers, file }

/-- The next prepared answer, and past the last one the end. -/
def next (f : Feed) : Except Fault (Option Text) × Feed :=
  match f.answers with
  | [] => (.ok none, { f with requests := f.requests + 1, ended := true })
  | answer :: others => (answer, { f with answers := others, requests := f.requests + 1 })

/-- The lines are counted by the requests. -/
def locations (f : Feed) : Locations :=
  if f.requests = 0 then {} else { asm := ⟨some f.file, .ofNat f.requests⟩ }

instance : LineSource Feed where
  nextLine := next
  locations := locations
  record _ f := f
  remaining f := f.answers.length
  remaining_le f := by
    unfold next
    split
    · exact Nat.le_refl _
    · rename_i answer others h
      simp [h]
  remaining_lt f line h := by
    unfold next at h ⊢
    split at h
    · simp at h
    · rename_i answer others hf
      simp [hf]
  remaining_record _ _ := Nat.le_refl _

open LineSource

/-- A request takes an answer or ends the feed. -/
theorem next_ended_or_lt (f : Feed) :
    f.next.2.ended = true ∨ f.next.2.answers.length < f.answers.length := by
  unfold next
  split
  · exact Or.inl rfl
  · rename_i answer others h
    exact Or.inr (by simp [h])

/-- So do several. -/
theorem ended_or_lt {f g : Feed} {n : Nat} (h : Served f n g) (hn : 0 < n) :
    g.ended = true ∨ g.answers.length < f.answers.length := by
  induction h with
  | start => exact absurd hn (Nat.lt_irrefl 0)
  | request h _ => exact (next_ended_or_lt _).imp_right (Nat.lt_of_lt_of_le · h.remaining_le)
  | entry _ _ ih => exact ih hn

end Feed

namespace Preprocessor

/-- What the preprocessor answers to one request after another, up to the first time that it
has nothing to answer and the feed has ended. -/
def replies (pp : Preprocessor) (feed : Feed) : List (Option Text) × Preprocessor × Feed :=
  match _ : pp.nextStatement feed with
  | (some statement, pp, feed) => (pp.replies feed).map (some statement :: ·) id
  | (none, pp, feed) =>
    if feed.ended then ([none], pp, feed) else (pp.replies feed).map (none :: ·) id
termination_by (feed.answers.length, pp.queue.length)
decreasing_by
  · exact nextStatement_less (by assumption)
  · rename_i h hended
    obtain ⟨n, hn⟩ := nextStatement_none h
    exact Prod.Lex.left _ _ ((Feed.ended_or_lt hn (Nat.succ_pos n)).resolve_left hended)

end Preprocessor

end AsmPrep
