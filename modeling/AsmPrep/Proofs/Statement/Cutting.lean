/-
What cutting a line into statements changes.

The pieces of a line, one behind the other, are the line with a newline in place of each byte
that ends a statement, and in place of the comment.  So every byte has the place it had, and
the statement that a byte stands in is what stands between it and the last newline before.

Whether a colon stays is a matter of that statement: a colon that no question mark waits for
stays behind the only name of the statement, if it comes directly behind it.  So a label keeps
its colon.  But only names are counted, and something else may stand before the one name:
the colon of `1 x:` stays as well, though no label begins that statement.
-/
import AsmPrep.Proofs.Statement.Splitting

namespace AsmPrep

open Byte

namespace Text

theorem flatten_flatMap_lines (pieces : List Text) :
    (pieces.flatMap lines).flatten = pieces.flatten := by
  rw [← List.flatMap_id, List.flatMap_assoc, ← List.flatMap_id]
  simp [flatten_lines]

end Text

namespace Statement

open Expansion Text Quoting

variable {q : Quoting} {stmt s raw : Text} {table : MacroTable} {i : Nat} {b c : Byte}

/-! ### Bytes at their places -/

/-- No byte that ends a statement opens a string. -/
theorem Cuts.next_outside (h : Cuts stmt c) : outside.next c = outside := by
  rcases h with rfl | ⟨rfl, -⟩
  · rfl
  · rfl

/-- **Cut apart, a text has its bytes at their places**, but for those that end a statement. -/
theorem getElem?_cutFrom (hstmt : newline ∉ stmt) (hs : newline ∉ s.dropLast)
    (hi : (codeFrom q s)[i]? = some b) :
    (cutFrom q stmt s)[i]? =
      some (if q.after (s.take i) = outside ∧ Cuts (lastLine (stmt ++ (cutFrom q stmt s).take i)) b
        then newline else b) := by
  induction s generalizing q stmt i with
  | nil => exact absurd hi (by simp [codeFrom])
  | cons c s ih =>
    rw [codeFrom] at hi
    rw [cutFrom]
    split at hi
    · exact absurd hi (by simp)
    rename_i hcomment
    rw [if_neg hcomment]
    cases i with
    | zero =>
      obtain rfl : c = b := by simpa using hi
      rw [List.take_zero, List.take_zero, List.append_nil, lastLine_eq_self hstmt, after_nil]
      split
      · rfl
      · rfl
    | succ i =>
      rw [List.getElem?_cons_succ] at hi
      have hne : s ≠ [] := by
        rintro rfl
        exact absurd hi (by simp [codeFrom])
      rw [List.dropLast_cons_of_ne_nil hne, List.mem_cons, not_or] at hs
      split
      · rename_i hcut
        obtain ⟨rfl, hcut⟩ := hcut
        rw [hcut.next_outside] at hi
        rw [List.getElem?_cons_succ, List.take_succ_cons, List.take_succ_cons, lastLine_append,
          after_cons, hcut.next_outside]
        exact ih List.not_mem_nil hs.2 hi
      · have hlonger : newline ∉ stmt ++ [c] := by simp [hstmt, hs.1]
        rw [List.getElem?_cons_succ, List.take_succ_cons, List.take_succ_cons, after_cons,
          List.append_cons stmt c ((cutFrom (q.next c) (stmt ++ [c]) s).take i)]
        exact ih hlonger hs.2 hi

/-- There is a byte for each byte of the code, and a newline for the comment. -/
theorem cutFrom_eq_append (q : Quoting) (stmt s : Text) :
    ∃ kept, kept.length = (codeFrom q s).length ∧
      cutFrom q stmt s = kept ++ if codeFrom q s = s then [] else [newline] := by
  induction s generalizing q stmt with
  | nil => exact ⟨[], rfl, rfl⟩
  | cons c s ih =>
    rw [codeFrom, cutFrom]
    split
    · exact ⟨[], rfl, by simp⟩
    · split
      · rename_i hcut
        obtain ⟨rfl, hcut⟩ := hcut
        obtain ⟨kept, hlength, heq⟩ := ih outside []
        rw [hcut.next_outside]
        exact ⟨newline :: kept, by simp [hlength], by simp [heq]⟩
      · obtain ⟨kept, hlength, heq⟩ := ih (q.next c) (stmt ++ [c])
        exact ⟨c :: kept, by simp [hlength], by simp [heq]⟩

/-! ### Labels -/

/-- Blanks, and then one name, with a sigil or without. -/
def SoleLabel (stmt : Text) : Prop :=
  ∃ blanks sigil text : Text, tokens stmt = (blanks ++ sigil).map .byte ++ [.name text] ∧
    (∀ c ∈ blanks, isBlank c = true) ∧ sigil.length ≤ 1 ∧ ∀ c ∈ sigil, isSigil c = true

/-- The name of a label is the only one of its statement. -/
theorem SoleLabel.labelEnd (h : SoleLabel stmt) : LabelEnd stmt := by
  obtain ⟨blanks, sigil, text, htokens, -, -, -⟩ := h
  have hbytes : ((blanks ++ sigil).map Token.byte).countP Token.isName = 0 := by
    rw [List.countP_eq_zero]
    intro t ht
    obtain ⟨c, -, rfl⟩ := List.mem_map.1 ht
    exact Bool.false_ne_true
  refine ⟨?_, ?_⟩
  · rw [htokens, List.countP_append, hbytes]
    rfl
  · rw [htokens, List.getLast?_concat]
    rfl

/-- Behind a name that nothing but blanks stands before, a colon marks a label. -/
theorem labelEnd_name {blanks name : Text} (hblanks : ∀ c ∈ blanks, isBlank c = true)
    (hname : Lexeme.identifier? name = some (name, [])) : LabelEnd (blanks ++ name) := by
  have htokens := tokens_blanks hblanks (name ++ [])
  rw [tokens_of (tokenAt_name hname delimited_nil), tokens_nil, List.append_nil] at htokens
  exact SoleLabel.labelEnd ⟨blanks, [], name, by rw [htokens, List.append_nil], hblanks,
    Nat.zero_le 1, fun _ hc => absurd hc List.not_mem_nil⟩

/-! ### Lines -/

/-- The pieces of a line as they are handed on to be looked at for assignments. -/
def handed (raw : Text) (table : MacroTable) : List Text :=
  (split raw table).2.flatMap Text.lines

theorem flatten_handed (hhash : hash ∉ raw) (hnames : Unnamed table.contains raw) :
    (handed raw table).flatten = cutFrom outside [] raw := by
  rw [handed, flatten_flatMap_lines, split, flatten_splitFrom hhash hnames (underway_start raw)]
  rfl

/-- `text` is the raw line, apart from newlines where statements end. -/
structure CutApart (raw text : Text) : Prop where
  /-- Without a comment the lengths are the same; with one, a newline stands for it. -/
  comment : code raw = raw ∧ text.length = raw.length ∨
    raw[(code raw).length]? = some semicolon ∧ text.drop (code raw).length = [newline]
  string : ∀ i < (code raw).length, InString raw i → text[i]? = raw[i]?
  backslash : ∀ i < (code raw).length, ¬ InString raw i → raw[i]? = some Byte.backslash →
    text[i]? = some newline
  /-- A colon at which the line is cut answers no question of the statement before it. -/
  colon : ∀ i < (code raw).length, ¬ InString raw i → raw[i]? = some Byte.colon →
    text[i]? = some Byte.colon ∨
      text[i]? = some newline ∧ unanswered (lastLine (text.take i)) = 0
  other : ∀ i < (code raw).length, ¬ InString raw i → raw[i]? ≠ some Byte.backslash →
    raw[i]? ≠ some Byte.colon → text[i]? = raw[i]?

section Handed

variable (hline : newline ∉ raw.dropLast) (hhash : hash ∉ raw)
  (hnames : Unnamed table.contains raw)
include hline hhash hnames

/-- The byte at a place of the line, as it is handed on. -/
theorem getElem?_handed (hi : i < (code raw).length) (hb : raw[i]? = some b) :
    (handed raw table).flatten[i]? =
      some (if ¬ InString raw i ∧ Cuts (lastLine ((handed raw table).flatten.take i)) b
        then newline else b) := by
  have hcode : (code raw)[i]? = some b := by
    obtain ⟨rest, hrest⟩ : code raw <+: raw := codeFrom_prefix outside raw
    rwa [← List.getElem?_append_left hi, hrest]
  rw [flatten_handed hhash hnames, getElem?_cutFrom List.not_mem_nil hline hcode]
  simp only [InString, Decidable.not_not, List.nil_append]

/-- **Splitting a line loses nothing.** -/
theorem handed_cutApart : CutApart raw (handed raw table).flatten := by
  have hplace := fun i (hi : i < (code raw).length) b (hb : raw[i]? = some b) =>
    getElem?_handed hline hhash hnames hi hb
  have hprefix : code raw <+: raw := codeFrom_prefix outside raw
  have hlength := hprefix.length_le
  refine ⟨?_, ?_, ?_, ?_, ?_⟩
  · obtain ⟨kept, hkept, heq⟩ : ∃ kept, kept.length = (code raw).length ∧
        cutFrom outside [] raw = kept ++ if code raw = raw then [] else [newline] :=
      cutFrom_eq_append outside [] raw
    rw [flatten_handed hhash hnames, heq]
    rcases codeFrom_eq_or outside raw with hall | hcomment
    · refine .inl ⟨hall, ?_⟩
      change code raw = raw at hall
      rw [if_pos hall, List.append_nil, hkept, hall]
    · refine .inr ⟨hcomment, ?_⟩
      have hsome : code raw ≠ raw := by
        intro hall
        change raw[(code raw).length]? = _ at hcomment
        rw [hall, List.getElem?_eq_none (Nat.le_refl _)] at hcomment
        exact absurd hcomment (by simp)
      rw [if_neg hsome, ← hkept, List.drop_left]
  · intro i hi hstring
    have hb := List.getElem?_eq_getElem (Nat.lt_of_lt_of_le hi hlength)
    rw [hplace i hi _ hb, if_neg fun hc => hc.1 hstring, hb]
  · intro i hi hstring hb
    rw [hplace i hi _ hb, if_pos ⟨hstring, .inl rfl⟩]
  · intro i hi hstring hb
    rw [hplace i hi _ hb]
    split
    · rename_i hcut
      exact .inr ⟨rfl, (hcut.2.resolve_left (by decide)).2.1⟩
    · exact .inl rfl
  · intro i hi hstring hback hcolon
    have hb := List.getElem?_eq_getElem (Nat.lt_of_lt_of_le hi hlength)
    rw [hb] at hback hcolon
    have hkeep : ¬ Cuts (lastLine ((handed raw table).flatten.take i)) raw[i] := by
      rintro (heq | ⟨heq, -⟩)
      · exact hback (congrArg some heq)
      · exact hcolon (congrArg some heq)
    rw [hplace i hi _ hb, if_neg fun hc => hkeep hc.2, hb]

/-- **A colon that answers nothing stays exactly when the only name of its statement ends there**,
and the line is cut at it otherwise.  Behind a label it stays. -/
theorem colon_stays_iff (hi : i < (code raw).length) (hb : raw[i]? = some colon)
    (hstring : ¬ InString raw i)
    (hanswers : unanswered (lastLine ((handed raw table).flatten.take i)) = 0) :
    ((handed raw table).flatten[i]? = some colon ↔
        LabelEnd (lastLine ((handed raw table).flatten.take i))) ∧
      ((handed raw table).flatten[i]? = some newline ↔
        ¬ LabelEnd (lastLine ((handed raw table).flatten.take i))) ∧
      (SoleLabel (lastLine ((handed raw table).flatten.take i)) →
        (handed raw table).flatten[i]? = some colon) := by
  have hplace := getElem?_handed hline hhash hnames hi hb
  generalize lastLine ((handed raw table).flatten.take i) = stmt at hanswers hplace ⊢
  by_cases hlabel : LabelEnd stmt
  · have hkeep : ¬ Cuts stmt colon := fun hcut => (hcut.resolve_left (by decide)).2.2 hlabel
    rw [if_neg fun hc => hkeep hc.2] at hplace
    have hstays : colon ≠ newline := by decide
    simp [hplace, hlabel, hstays]
  · have hcut : Cuts stmt colon := .inr ⟨rfl, hanswers, hlabel⟩
    rw [if_pos ⟨hstring, hcut⟩] at hplace
    have hgoes : newline ≠ colon := by decide
    refine ⟨by simp [hplace, hlabel, hgoes], by simp [hplace, hlabel], ?_⟩
    exact fun hsole => absurd hsole.labelEnd hlabel

end Handed

/-- In a line with two labels and a conditional, behind a macro that it does not mention. -/
theorem handed_cutApart_of_labels :
    CutApart (ofString "a: ld x?1:2 \\ .b: nop : \"c:\" ; d\n")
      (handed (ofString "a: ld x?1:2 \\ .b: nop : \"c:\" ; d\n")
        (MacroTable.empty.bind "m" [])).flatten :=
  handed_cutApart (by decide +kernel) (by decide +kernel) (by decide +kernel)

/-- The colon behind `.b` in that line. -/
theorem colon_stays_iff_of_labels :
    (handed (ofString "a: nop \\ .b: nop\n") .empty).flatten[11]? = some colon :=
  (colon_stays_iff (by decide +kernel) (by decide +kernel) (by decide +kernel) (by decide +kernel)
    (by decide +kernel) (by decide +kernel) (by decide +kernel)).1.2 (by decide +kernel)

/-- A number before the one name does not keep the colon from staying. -/
theorem colon_stays_behind_number :
    let raw := ofString "1 x: nop\n"
    let text := (handed raw .empty).flatten
    hash ∉ raw ∧ Unnamed MacroTable.empty.contains raw ∧ 3 < (code raw).length ∧
      raw[3]? = some colon ∧ ¬ InString raw 3 ∧ unanswered (lastLine (text.take 3)) = 0 ∧
      text[3]? = some colon ∧ ¬ SoleLabel (lastLine (text.take 3)) := by
  refine ⟨by decide +kernel, by decide +kernel, by decide +kernel, by decide +kernel,
    by decide +kernel, by decide +kernel, by decide +kernel, ?_⟩
  rintro ⟨blanks, sigil, name, htokens, -⟩
  have hnumber : tokens (lastLine ((handed (ofString "1 x: nop\n") .empty).flatten.take 3)) =
      [.number [one], .byte space, .name [120]] := by decide +kernel
  rw [hnumber] at htokens
  cases hfront : blanks ++ sigil with
  | nil =>
    rw [hfront] at htokens
    exact absurd htokens (by simp)
  | cons c front =>
    rw [hfront] at htokens
    exact absurd (List.cons.inj htokens).1 (by simp)

end Statement

end AsmPrep
