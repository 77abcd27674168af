/-
Bringing an assignment into its one spelling keeps the line it is in.

What the spelling drops or moves stands before the line end: blanks, a name, a dot or a
colon, the sign of the assignment.  So a statement is a whole line exactly when the piece
that it stands for is one.

Which texts begin with an assignment, and which open a group, can be said of their parts alone.
The tests that a piece is put to find just those, and it stands for itself when it is neither.
-/
import AsmPrep.Statement.Assignment
import AsmPrep.Proofs.Text.LineEnd

namespace AsmPrep

open Byte

namespace Statement

open Text

theorem assigned_within {name rest : Text} :
    WithinLine (assigned name rest).2 rest := by
  unfold assigned
  split
  · split
    · exact .refl _
    · split
      · split
        · rename_i hd
          exact hd ▸ .cons (by decide) _
        · exact .refl _
      · exact .refl _
  · exact .refl _

theorem assigned_name {name : Text} (rest : Text) (h : newline ∉ name) :
    newline ∉ (assigned name rest).1 := by
  unfold assigned
  split
  · split
    · exact fun hmem => h (List.mem_cons_of_mem _ hmem)
    · split
      · split
        · exact h
        · exact h
      · exact h
  · exact List.not_mem_nil

theorem afterSign?_within {s rest : Text} (h : afterSign? s = some rest) : WithinLine rest s := by
  cases s with
  | nil => exact absurd h (by simp [afterSign?])
  | cons c s =>
    rw [afterSign?] at h
    split at h
    · rename_i hc
      obtain rfl := Option.some.inj h
      exact hc ▸ .cons (by decide) s
    · exact Lexeme.word?_within (by decide) h

/-- The value of an assignment in the one spelling is what ends the piece. -/
theorem normalize_cases (inGroup : Bool) (piece : Text) :
    (normalize inGroup piece).1 = piece ∨
      ∃ w value, (normalize inGroup piece).1 = w ++ value ∧ w ≠ [] ∧ newline ∉ w ∧
        WithinLine value piece := by
  unfold normalize
  split
  · exact .inl rfl
  · split
    · exact .inl rfl
    · rename_i name rest hname
      split
      · exact .inl rfl
      · dsimp only
        split
        · exact .inl rfl
        · rename_i value hvalue
          have hpiece : WithinLine rest piece := (skipBlanks_within piece).trans
            ⟨name, Lexeme.name?_append hname, Lexeme.name?_within hname⟩
          have hsign := hpiece.trans (assigned_within.trans
            ((skipBlanks_within _).trans
              ((afterSign?_within hvalue).trans (skipBlanks_within value))))
          have htarget := assigned_name rest (Lexeme.name?_within hname)
          refine .inr ⟨Text.ofString "defc " ++ (assigned name rest).1 ++ Text.ofString " = ",
            skipBlanks value, rfl, ?_, ?_, hsign⟩
          · have hdefc : Text.ofString "defc " = [100, 101, 102, 99, 32] := by decide
            simp [hdefc]
          · have hdefc : newline ∉ Text.ofString "defc " := by decide
            have hequals : newline ∉ Text.ofString " = " := by decide
            simp [hdefc, hequals, htarget]

/-- **The statement of a piece is a whole line exactly when the piece is.** -/
theorem whole_normalize_iff (inGroup : Bool) (piece : Text) :
    Whole (normalize inGroup piece).1 ↔ Whole piece := by
  rcases normalize_cases inGroup piece with h | ⟨w, value, h, -, hw, hvalue⟩
  · rw [h]
  · rw [h, whole_append hw, hvalue.whole_iff]

theorem oneLine_normalize (inGroup : Bool) {piece : Text} (hpiece : OneLine piece) :
    OneLine (normalize inGroup piece).1 := by
  rcases hpiece with hpiece | ⟨hne, hpiece⟩
  · exact .inl ((whole_normalize_iff inGroup piece).2 hpiece)
  · rcases normalize_cases inGroup piece with h | ⟨w, value, h, hne, hw, hvalue⟩
    · rw [h]
      exact .inr ⟨hne, hpiece⟩
    · rw [h]
      refine .inr ⟨fun hnil => hne (List.append_eq_nil_iff.1 hnil).1, ?_⟩
      intro hmem
      rcases List.mem_append.1 hmem with hmem | hmem
      · exact hw hmem
      · exact hvalue.not_mem hpiece hmem

theorem whole_normalizeAll_iff (inGroup : Bool) (pieces : List Text) :
    (∀ statement ∈ (normalizeAll inGroup pieces).1, Whole statement) ↔
      ∀ piece ∈ pieces, Whole piece := by
  induction pieces generalizing inGroup with
  | nil => exact Iff.rfl
  | cons piece others ih =>
    rw [normalizeAll]
    dsimp only
    rw [List.forall_mem_cons, List.forall_mem_cons, whole_normalize_iff, ih]

theorem oneLine_normalizeAll (inGroup : Bool) {pieces : List Text}
    (h : ∀ piece ∈ pieces, OneLine piece) :
    ∀ statement ∈ (normalizeAll inGroup pieces).1, OneLine statement := by
  induction pieces generalizing inGroup with
  | nil => exact fun _ hmem => absurd hmem List.not_mem_nil
  | cons piece others ih =>
    rw [normalizeAll]
    dsimp only
    rw [List.forall_mem_cons] at h ⊢
    exact ⟨oneLine_normalize inGroup h.1, ih _ h.2⟩

/-! ### Pieces that stand for themselves -/

theorem not_closesGroup {s : Text} (h : closeBrace ∉ s) : closesGroup s = false := by
  unfold closesGroup
  rw [List.contains_eq_mem, decide_eq_false_iff_not]
  exact fun hmem => h ((List.takeWhile_sublist _).mem hmem)

/-- Without a dot before the name and a colon after it nothing is left out. -/
theorem assigned_eq {name rest : Text} (hdot : name.head? ≠ some dot)
    (hcolon : rest.head? ≠ some colon) : assigned name rest = (name, rest) := by
  unfold assigned
  cases name with
  | nil => rfl
  | cons c bare =>
    have hc : c ≠ dot := fun hc => hdot (congrArg some hc)
    dsimp only
    rw [if_neg hc]
    cases rest with
    | nil => rfl
    | cons d r => exact if_neg fun hd => hcolon (congrArg some hd)

/-- A string is no sign of an assignment. -/
theorem afterSign?_quote {quote : Byte} (h : isQuote quote = true) (s : Text) :
    afterSign? (quote :: s) = none := by
  have hequ : Text.ofString "equ" = [101, 113, 117] := by decide
  unfold isQuote at h
  simp only [Bool.or_eq_true, beq_iff_eq] at h
  have hsign : quote ≠ equals ∧ toLower quote ≠ toLower 101 := by
    rcases h with rfl | rfl <;> decide
  rw [afterSign?, if_neg hsign.1]
  simp [Lexeme.word?, Text.sameLetters, hequ, hsign.2]

/-- Outside groups a piece that neither assigns nor opens a group is the statement that it stands
for. -/
theorem normalize_of_name {piece name rest : Text}
    (hname : Lexeme.name? (skipBlanks piece) = some (name, rest))
    (hopen : sameLetters name (ofString "defgroup") = false)
    (hsign : afterSign? (skipBlanks (assigned name rest).2) = none) :
    normalize false piece = (piece, false) := by
  unfold normalize
  rw [if_neg Bool.false_ne_true, hname]
  dsimp only
  rw [hopen, if_neg Bool.false_ne_true, hsign]

/-- If it does not close one either, it is so in a group too. -/
theorem normalize_unassigned {piece name rest : Text} (inGroup : Bool)
    (hclose : closeBrace ∉ piece)
    (hname : Lexeme.name? (skipBlanks piece) = some (name, rest))
    (hopen : sameLetters name (ofString "defgroup") = false)
    (hsign : afterSign? (skipBlanks (assigned name rest).2) = none) :
    normalize inGroup piece = (piece, inGroup) := by
  cases inGroup with
  | true =>
    unfold normalize
    rw [if_pos rfl, not_closesGroup hclose]
    rfl
  | false => exact normalize_of_name hname hopen hsign

/-! ### Texts that assign -/

/-- The text begins with a sign of an assignment, an equals sign or the word `equ`. -/
inductive Signed : Text → Prop
  | equals (rest : Text) : Signed (equals :: rest)
  | word {equ rest : Text} (hequ : sameLetters equ (ofString "equ") = true)
      (hrest : Delimited rest) : Signed (equ ++ rest)

/-- The text begins with an assignment: with a name, and behind blanks with a sign.  The name may
be marked as a label when it has no dot. -/
inductive Assigning : Text → Prop
  | bare {name gap s : Text} (hname : Lexeme.name? name = some (name, []))
      (hgap : ∀ c ∈ gap, isBlank c = true) (hsign : Signed s) (hapart : Delimited (gap ++ s)) :
      Assigning (name ++ (gap ++ s))
  | label {name gap s : Text} (hname : Lexeme.name? name = some (name, []))
      (hdot : name.head? ≠ some dot) (hgap : ∀ c ∈ gap, isBlank c = true) (hsign : Signed s) :
      Assigning (name ++ colon :: (gap ++ s))

/-- The text begins with the word that opens a group. -/
inductive Opening : Text → Prop
  | intro {word rest : Text} (hword : sameLetters word (ofString "defgroup") = true)
      (hrest : Delimited rest) : Opening (word ++ rest)

section Signed

variable {s rest : Text}

/-- A sign begins with an equals sign or a letter. -/
theorem Signed.head (h : Signed s) : ∃ c r, s = c :: r ∧ (c = Byte.equals ∨ isLetter c = true) := by
  cases h with
  | equals rest => exact ⟨_, rest, rfl, .inl rfl⟩
  | @word equ rest hequ hrest =>
    obtain ⟨c, bare, hcons, -, -⟩ :=
      Lexeme.identifier?_eq_some (Lexeme.identifier?_spelled hequ (by decide) (by decide))
    have hletter := Lexeme.isLetter_of_sameLetters hequ (by decide)
    rw [hcons] at hletter ⊢
    exact ⟨c, bare ++ rest, rfl, .inr (hletter c List.mem_cons_self)⟩

theorem Signed.head_ne (h : Signed s) {c : Byte} (hc : c ≠ Byte.equals)
    (hletter : isLetter c = false) : s.head? ≠ some c := by
  obtain ⟨d, r, rfl, rfl | hd⟩ := h.head
  · exact fun heq => hc (Option.some.inj heq).symm
  · exact fun heq => ne_of_class hd hletter (Option.some.inj heq)

theorem Signed.skipBlanks (h : Signed s) : Text.skipBlanks s = s := by
  refine skipBlanks_eq_self fun c hc => Bool.eq_false_iff.2 fun hblank => ?_
  rcases isBlank_cases hblank with rfl | rfl | rfl | rfl
  all_goals exact h.head_ne (by decide) (by decide) hc

theorem isSome_afterSign?_iff : (afterSign? s).isSome = true ↔ Signed s := by
  constructor
  · intro h
    obtain ⟨rest, hrest⟩ := Option.isSome_iff_exists.1 h
    cases s with
    | nil => exact absurd hrest (by simp [afterSign?])
    | cons c s =>
      rw [afterSign?] at hrest
      split at hrest
      · rename_i hc
        exact hc ▸ .equals s
      · obtain ⟨equ, hs, hequ, hdelimited⟩ := Lexeme.word?_eq_some hrest
        exact hs ▸ .word hequ hdelimited
  · intro h
    obtain ⟨c, r, hcons, -⟩ := h.head
    rw [hcons, afterSign?]
    split
    · rfl
    · rename_i hc
      rw [← hcons]
      cases h with
      | equals rest => exact absurd (List.cons.inj hcons).1.symm hc
      | word hequ hrest =>
        rw [Lexeme.word?_spelled hequ hrest]
        rfl

/-- A line ends with no sign. -/
theorem Signed.of_newline (h : Signed (s ++ [newline])) : Signed s := by
  generalize hline : s ++ [newline] = line at h
  cases h with
  | equals rest =>
    cases s with
    | nil => exact absurd (List.cons.inj hline).1 (by decide)
    | cons c s => exact (List.cons.inj hline).1 ▸ .equals s
  | @word equ rest hequ hrest =>
    have hletter := Lexeme.isLetter_of_sameLetters hequ (by decide)
    rcases rest.eq_nil_or_concat with rfl | ⟨r, c, hrest'⟩
    · rw [List.append_nil] at hline
      exact absurd (hletter newline (hline ▸ List.mem_append_right s List.mem_cons_self))
        (by decide)
    · rw [List.concat_eq_append] at hrest'
      subst hrest'
      rw [← List.append_assoc] at hline
      obtain ⟨rfl, -⟩ := List.append_inj' hline rfl
      refine .word hequ fun d hd => hrest d ?_
      obtain ⟨t, rfl⟩ := List.head?_eq_some_iff.1 hd
      rfl

end Signed
section Assigning

variable {text : Text}

/-- The test for an assignment. -/
abbrev assigningCheck (text : Text) : Bool :=
  (Lexeme.name? text).any fun found =>
    (afterSign? (skipBlanks (assigned found.1 found.2).2)).isSome

theorem assigned_rest {name rest : Text} (h : rest.head? ≠ some colon) :
    (assigned name rest).2 = rest := by
  by_cases hdot : name.head? = some dot
  · obtain ⟨bare, rfl⟩ := List.head?_eq_some_iff.1 hdot
    rfl
  · rw [assigned_eq hdot h]

theorem assigned_label {name : Text} (hdot : name.head? ≠ some dot) (hne : name ≠ [])
    (rest : Text) : (assigned name (colon :: rest)).2 = rest := by
  obtain ⟨c, bare, rfl⟩ := List.exists_cons_of_ne_nil hne
  rw [assigned, if_neg fun hc => hdot (congrArg some hc)]
  rfl

theorem assigned_newline (name rest : Text) :
    (assigned name (rest ++ [newline])).2 = (assigned name rest).2 ++ [newline] := by
  unfold assigned
  cases name with
  | nil => rfl
  | cons c bare =>
    dsimp only
    split
    · rfl
    · cases rest with
      | nil => rfl
      | cons d r =>
        dsimp only [List.cons_append]
        split
        · rfl
        · rfl

theorem name?_ne_nil {name : Text} (h : Lexeme.name? name = some (name, [])) : name ≠ [] := by
  rintro rfl
  exact absurd h (by simp [Lexeme.name?])

/-- **The test finds the texts that begin with an assignment.** -/
theorem assigning_iff : Assigning text ↔ assigningCheck text = true := by
  have hblanks {gap s : Text} (hgap : ∀ c ∈ gap, isBlank c = true) (hsign : Signed s) :
      (afterSign? (skipBlanks (gap ++ s))).isSome = true := by
    rw [skipBlanks_blanks hgap, hsign.skipBlanks]
    exact isSome_afterSign?_iff.2 hsign
  constructor
  · intro h
    unfold assigningCheck
    cases h with
    | @bare name gap s hname hgap hsign hapart =>
      have hcolon : (gap ++ s).head? ≠ some colon :=
        head?_blanks_ne hgap (by decide) fun _ => hsign.head_ne (by decide) (by decide)
      rw [Lexeme.name?_tail hapart (name?_ne_nil hname), hname, Option.map_some, followed,
        List.nil_append, Option.any_some, assigned_rest hcolon]
      exact hblanks hgap hsign
    | @label name gap s hname hdot hgap hsign =>
      rw [Lexeme.name?_tail (delimited_cons.2 (by decide)) (name?_ne_nil hname), hname,
        Option.map_some, followed, List.nil_append, Option.any_some,
        assigned_label hdot (name?_ne_nil hname)]
      exact hblanks hgap hsign
  · intro h
    obtain ⟨⟨name, rest⟩, hname, hsign⟩ := (Option.any_eq_true _ _).1 h
    obtain ⟨halone, hapart⟩ := Lexeme.name?_alone hname
    rw [isSome_afterSign?_iff] at hsign
    rw [← Lexeme.name?_append hname]
    have hgap (s : Text) : ∀ c ∈ s.takeWhile isBlank, isBlank c = true :=
      List.all_eq_true.1 List.all_takeWhile
    have hsplit (s : Text) : s.takeWhile isBlank ++ skipBlanks s = s :=
      List.takeWhile_append_dropWhile
    by_cases hmark : (assigned name rest).2 = rest
    · rw [hmark] at hsign
      rw [← hsplit rest] at hapart ⊢
      exact .bare halone (hgap rest) hsign hapart
    · have hdot : name.head? ≠ some dot := by
        intro hdot
        obtain ⟨bare, rfl⟩ := List.head?_eq_some_iff.1 hdot
        exact hmark rfl
      have hcolon : rest.head? = some colon := by
        by_contra hcolon
        exact hmark (assigned_rest hcolon)
      obtain ⟨r, rfl⟩ := List.head?_eq_some_iff.1 hcolon
      rw [assigned_label hdot (name?_ne_nil halone)] at hsign
      rw [← hsplit r]
      exact .label halone hdot (hgap r) hsign

instance (text : Text) : Decidable (Assigning text) := decidable_of_iff _ assigning_iff.symm

/-- The test for a text that opens a group. -/
abbrev openingCheck (text : Text) : Bool :=
  (Lexeme.name? text).any fun found => sameLetters found.1 (ofString "defgroup")

theorem opening_iff : Opening text ↔ openingCheck text = true := by
  constructor
  · rintro ⟨hword, hrest⟩
    have hname := Lexeme.name?_of_identifier?
      (Lexeme.identifier?_spelled hword (by decide) (by decide))
    unfold openingCheck
    rw [Lexeme.name?_tail hrest (name?_ne_nil hname), hname]
    exact hword
  · intro h
    obtain ⟨⟨name, rest⟩, hname, hword⟩ := (Option.any_eq_true _ _).1 h
    rw [← Lexeme.name?_append hname]
    exact .intro hword (Lexeme.name?_alone hname).2

instance (text : Text) : Decidable (Opening text) := decidable_of_iff _ opening_iff.symm

/-- A line begins with an assignment only if its text does. -/
theorem Assigning.of_newline (h : Assigning (text ++ [newline])) : Assigning text := by
  rw [assigning_iff, assigningCheck] at h ⊢
  rw [Lexeme.name?_newline] at h
  cases hname : Lexeme.name? text with
  | none =>
    rw [hname] at h
    exact absurd h (by simp)
  | some found =>
    rw [hname, Option.map_some, Option.any_some, isSome_afterSign?_iff] at h
    rw [Option.any_some, isSome_afterSign?_iff]
    refine Signed.of_newline ?_
    rw [← skipBlanks_newline, ← assigned_newline]
    exact h

theorem Opening.of_newline (h : Opening (text ++ [newline])) : Opening text := by
  rw [opening_iff, openingCheck, Lexeme.name?_newline, Option.any_map] at h
  exact opening_iff.2 h

/-- **A piece that begins with neither is the statement that it stands for**, outside groups. -/
theorem normalize_plain {piece : Text} (hassign : ¬ Assigning (skipBlanks piece))
    (hopen : ¬ Opening (skipBlanks piece)) : normalize false piece = (piece, false) := by
  rw [assigning_iff, Bool.not_eq_true, assigningCheck] at hassign
  rw [opening_iff, Bool.not_eq_true, openingCheck] at hopen
  cases hname : Lexeme.name? (skipBlanks piece) with
  | none =>
    unfold normalize
    rw [if_neg Bool.false_ne_true, hname]
  | some found =>
    rw [hname, Option.any_some] at hassign hopen
    exact normalize_of_name hname hopen
      (Option.isNone_iff_eq_none.1 (Option.isSome_eq_false_iff.1 hassign))

end Assigning

end Statement

end AsmPrep
