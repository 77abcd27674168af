/-
Which bytes of a text stand in strings.

The quotes and the backslashes tell, and one look at each byte in turn is enough: outside
strings a quote opens one, in it the same quote closes it, and a backslash guards the byte
after it.  A string that is not closed goes on to the end of the text.

A string as it is scanned is one as it is told by its bytes: all of it stands in the string
that its quote opens, and the string is closed where the scan ends, unless the text ends there.
-/
import AsmPrep.Proofs.Text.Delimiter

namespace AsmPrep

open Byte

namespace Text

/-- Where a reader is who has come to some byte of a text. -/
inductive Quoting where
  | outside
  | within (quote : Byte)
  /-- In a string, behind a backslash. -/
  | guarded (quote : Byte)
  deriving DecidableEq, Repr

namespace Quoting

/-- Where the reader is one byte on. -/
def next : Quoting → Byte → Quoting
  | outside, c => if isQuote c then within c else outside
  | within quote, c =>
    if c = quote then outside else if c = backslash then guarded quote else within quote
  | guarded quote, _ => within quote

/-- Where the reader is after the text. -/
def after (q : Quoting) (s : Text) : Quoting := s.foldl next q

variable {q : Quoting} {c : Byte} {s t : Text}

@[simp] theorem after_nil (q : Quoting) : q.after [] = q := rfl

@[simp] theorem after_cons (q : Quoting) (c : Byte) (s : Text) :
    q.after (c :: s) = (q.next c).after s := rfl

@[simp] theorem after_append (q : Quoting) (s t : Text) : q.after (s ++ t) = (q.after s).after t :=
  List.foldl_append

theorem next_outside (hc : isQuote c = false) : outside.next c = outside := by simp [next, hc]

/-- A text without quotes opens no string. -/
theorem after_outside (h : ∀ c ∈ s, isQuote c = false) : outside.after s = outside := by
  induction s with
  | nil => rfl
  | cons c s ih =>
    rw [after_cons, next_outside (h c List.mem_cons_self)]
    exact ih fun d hd => h d (List.mem_cons_of_mem _ hd)

end Quoting

open Quoting

/-- The byte with that number stands in a string, behind the quote that opens it. -/
def InString (s : Text) (i : Nat) : Prop := outside.after (s.take i) ≠ outside

instance (s : Text) (i : Nat) : Decidable (InString s i) :=
  inferInstanceAs (Decidable (_ ≠ _))

/-- All bytes of the text stand in the string that its reader is in. -/
def Enclosed : Quoting → Text → Prop
  | _, [] => True
  | q, c :: s => q ≠ outside ∧ Enclosed (q.next c) s

/-! ### Comments -/

/-- The text up to its comment, for a reader who is there. -/
def codeFrom : Quoting → Text → Text
  | _, [] => []
  | q, c :: s => if q = outside ∧ c = semicolon then [] else c :: codeFrom (q.next c) s

/-- The text up to the first semicolon that stands in no string. -/
def code (s : Text) : Text := codeFrom outside s

theorem codeFrom_prefix (q : Quoting) (s : Text) : codeFrom q s <+: s := by
  induction s generalizing q with
  | nil => exact List.prefix_rfl
  | cons c s ih =>
    rw [codeFrom]
    split
    · exact List.nil_prefix
    · exact (List.prefix_cons_inj c).2 (ih _)

/-- What follows the code is nothing or a comment. -/
theorem codeFrom_eq_or (q : Quoting) (s : Text) :
    codeFrom q s = s ∨ s[(codeFrom q s).length]? = some semicolon := by
  induction s generalizing q with
  | nil => exact .inl rfl
  | cons c s ih =>
    rw [codeFrom]
    split
    · rename_i hc
      exact .inr (congrArg some hc.2)
    · exact (ih (q.next c)).imp (congrArg (c :: ·)) id

/-- A comment begins in the front of a text, or behind it. -/
theorem codeFrom_append_eq_iff {q : Quoting} {s t : Text} :
    codeFrom q (s ++ t) = s ++ t ↔ codeFrom q s = s ∧ codeFrom (q.after s) t = t := by
  induction s generalizing q with
  | nil => simp [codeFrom]
  | cons c s ih =>
    rw [List.cons_append, codeFrom, codeFrom, after_cons]
    split
    · simp
    · rw [List.cons.injEq, List.cons.injEq, ih]
      simp

/-! ### Texts within a line -/

/-- A text that stands within a line: it has no line end and no comment in it, and it leaves no
string open. -/
structure InLine (s : Text) : Prop where
  newline : newline ∉ s
  code : code s = s
  closed : outside.after s = outside

namespace InLine

variable {s t : Text}

theorem nil : InLine [] := ⟨List.not_mem_nil, rfl, rfl⟩

theorem append (hs : InLine s) (ht : InLine t) : InLine (s ++ t) where
  newline hmem := (List.mem_append.1 hmem).elim hs.newline ht.newline
  code := codeFrom_append_eq_iff.2 ⟨hs.code, by rw [hs.closed]; exact ht.code⟩
  closed := by rw [Quoting.after_append, hs.closed, ht.closed]

/-- What is left behind a front that leaves no string open. -/
theorem of_append (h : InLine (s ++ t)) (hs : outside.after s = outside) : InLine t where
  newline hmem := h.newline (List.mem_append_right s hmem)
  code := by
    have hcode := (codeFrom_append_eq_iff.1 h.code).2
    rwa [hs] at hcode
  closed := by
    have hclosed := h.closed
    rwa [Quoting.after_append, hs] at hclosed

end InLine

/-! ### Questions -/

/-- The questions that are open after the text, when `n` were before it.  A question mark opens
one, and a colon answers one if there is one. -/
def questions : Quoting → Nat → Text → Nat
  | _, n, [] => n
  | q, n, c :: s =>
    if q = outside ∧ c = question then questions q (n + 1) s
    else if q = outside ∧ c = colon then questions q (n - 1) s
    else questions (q.next c) n s

/-- The question marks that no colon of the text answers. -/
def unanswered (s : Text) : Nat := questions outside 0 s

theorem questions_append (q : Quoting) (n : Nat) (s t : Text) :
    questions q n (s ++ t) = questions (q.after s) (questions q n s) t := by
  induction s generalizing q n with
  | nil => rfl
  | cons c s ih =>
    rw [List.cons_append, questions, questions]
    split
    · rename_i hc
      rw [ih, after_cons, hc.1, hc.2]
      rfl
    · split
      · rename_i hc
        rw [ih, after_cons, hc.1, hc.2]
        rfl
      · exact ih _ _

/-- What stands in a string neither asks nor answers. -/
theorem questions_enclosed {q : Quoting} {s : Text} (n : Nat) (h : Enclosed q s) :
    questions q n s = n := by
  induction s generalizing q with
  | nil => rfl
  | cons c s ih =>
    rw [questions, if_neg fun hc => h.1 hc.1, if_neg fun hc => h.1 hc.1]
    exact ih h.2

/-- Neither does a word. -/
theorem questions_inert {s : Text} (n : Nat)
    (h : ∀ c ∈ s, isQuote c = false ∧ c ≠ question ∧ c ≠ colon) : questions outside n s = n := by
  induction s with
  | nil => rfl
  | cons c s ih =>
    obtain ⟨hquote, hquestion, hcolon⟩ := h c List.mem_cons_self
    rw [questions, if_neg fun hc => hquestion hc.2, if_neg fun hc => hcolon hc.2,
      next_outside hquote]
    exact ih fun d hd => h d (List.mem_cons_of_mem _ hd)

end Text

/-! ### Strings as they are scanned -/

namespace Lexeme

open Text Quoting

variable {quote : Byte} {s lexeme rest : Text}

theorem enclosed_closeQuote (quote : Byte) (s : Text) :
    Enclosed (within quote) (closeQuote quote s).1 := by
  fun_induction closeQuote quote s with
  | case1 => exact trivial
  | case2 c => exact ⟨by simp, trivial⟩
  | case3 d s => exact ⟨by simp, trivial⟩
  | case4 d s hquote ih =>
    refine ⟨by simp, ?_⟩
    rw [next, if_neg hquote, if_pos rfl]
    exact ⟨by simp, ih⟩
  | case5 c d s hquote hback ih =>
    refine ⟨by simp, ?_⟩
    rw [next, if_neg hquote, if_neg hback]
    exact ih

/-- A string that something follows is closed. -/
theorem after_closeQuote (h : (closeQuote quote s).2 ≠ []) :
    (within quote).after (closeQuote quote s).1 = outside := by
  fun_induction closeQuote quote s with
  | case1 => exact absurd rfl h
  | case2 c => exact absurd rfl h
  | case3 d s => simp [next]
  | case4 d s hquote ih =>
    show (((within quote).next backslash).next d).after _ = outside
    rw [next, if_neg hquote, if_pos rfl]
    exact ih h
  | case5 c d s hquote hback ih =>
    show ((within quote).next c).after _ = outside
    rw [next, if_neg hquote, if_neg hback]
    exact ih h

/-- A string that is closed ends where it would end without what follows. -/
theorem closeQuote_tail (tail : Text)
    (h : (within quote).after (closeQuote quote s).1 = outside) :
    closeQuote quote (s ++ tail) = followed tail (closeQuote quote s) := by
  fun_induction closeQuote quote s with
  | case1 => exact absurd h (by simp)
  | case2 c =>
    have hc : c = quote := by
      refine Decidable.byContradiction fun hne => ?_
      rw [after_cons, next, if_neg hne] at h
      split at h
      · exact absurd h (by simp)
      · exact absurd h (by simp)
    cases tail with
    | nil => rfl
    | cons d tail =>
      rw [List.singleton_append, closeQuote, if_pos hc]
      rfl
  | case3 d s =>
    rw [List.cons_append, List.cons_append, closeQuote, if_pos rfl]
    rfl
  | case4 d s hquote ih =>
    have hinner : (within quote).after (closeQuote quote s).1 = outside := by
      change (((within quote).next backslash).next d).after _ = outside at h
      rwa [next, if_neg hquote, if_pos rfl] at h
    rw [List.cons_append, List.cons_append, closeQuote, if_neg hquote, if_pos rfl, ih hinner]
    rfl
  | case5 c d s hquote hback ih =>
    have hinner : (within quote).after (closeQuote quote (d :: s)).1 = outside := by
      change ((within quote).next c).after _ = outside at h
      rwa [next, if_neg hquote, if_neg hback] at h
    have hrest := ih hinner
    rw [List.cons_append] at hrest
    rw [List.cons_append, List.cons_append, closeQuote, if_neg hquote, if_neg hback, hrest]
    rfl

/-- A string that is closed ends with its quote. -/
theorem getLast?_closeQuote (h : (within quote).after (closeQuote quote s).1 = outside) :
    (closeQuote quote s).1.getLast? = some quote := by
  fun_induction closeQuote quote s with
  | case1 => exact absurd h (by simp)
  | case2 c =>
    rw [after_cons, next] at h
    split at h
    · rename_i hc
      rw [hc]
      rfl
    · split at h
      · exact absurd h (by simp)
      · exact absurd h (by simp)
  | case3 d s => rfl
  | case4 d s hquote ih =>
    change (((within quote).next backslash).next d).after _ = outside at h
    rw [next, if_neg hquote, if_pos rfl] at h
    show (backslash :: d :: (closeQuote quote s).1).getLast? = some quote
    simp [List.getLast?_cons, ih h]
  | case5 c d s hquote hback ih =>
    change ((within quote).next c).after _ = outside at h
    rw [next, if_neg hquote, if_neg hback] at h
    show (c :: (closeQuote quote (d :: s)).1).getLast? = some quote
    simp [List.getLast?_cons, ih h]

/-- A string that is not closed runs on over the end of its line. -/
theorem closeQuote_open (hback : backslash ∉ s)
    (h : (within quote).after (closeQuote quote s).1 ≠ outside) :
    closeQuote quote (s ++ [newline]) = (s ++ [newline], []) := by
  fun_induction closeQuote quote s with
  | case1 => rfl
  | case2 c =>
    have hc : c ≠ quote := by
      rintro rfl
      exact h (by simp [next])
    rw [List.singleton_append, closeQuote, if_neg hc, if_neg fun hc => hback (by simp [hc])]
    rfl
  | case3 d s => exact absurd (by simp [next]) h
  | case4 d s hquote => exact absurd List.mem_cons_self hback
  | case5 c d s hquote hback' ih =>
    have hinner : (within quote).after (closeQuote quote (d :: s)).1 ≠ outside := by
      change ((within quote).next c).after _ ≠ outside at h
      rwa [next, if_neg hquote, if_neg hback'] at h
    have hrest := ih (fun hmem => hback (List.mem_cons_of_mem c hmem)) hinner
    rw [List.cons_append] at hrest
    rw [List.cons_append, List.cons_append, closeQuote, if_neg hquote, if_neg hback', hrest]
    rfl

/-- A string begins with a quote. -/
theorem quoted?_eq_some (h : quoted? s = some (lexeme, rest)) :
    ∃ quote inner, s = quote :: inner ∧ isQuote quote = true ∧
      lexeme = quote :: (closeQuote quote inner).1 ∧ rest = (closeQuote quote inner).2 := by
  cases s with
  | nil => exact absurd h (by simp [quoted?])
  | cons c s =>
    rw [quoted?] at h
    split at h
    · rename_i hc
      obtain ⟨rfl, rfl⟩ := Prod.mk.inj (Option.some.inj h)
      exact ⟨c, s, rfl, hc, rfl, rfl⟩
    · exact absurd h (by simp)

/-- Nothing else does. -/
theorem quoted?_eq_none {c : Byte} (h : quoted? (c :: s) = none) : isQuote c = false := by
  rw [quoted?] at h
  split at h
  · exact absurd h (by simp)
  · rename_i hc
    simpa using hc

theorem quoted?_after (h : quoted? s = some (lexeme, rest)) (hrest : rest ≠ []) :
    outside.after lexeme = outside := by
  obtain ⟨quote, inner, -, hquote, rfl, rfl⟩ := quoted?_eq_some h
  rw [after_cons, next, if_pos hquote]
  exact after_closeQuote hrest

theorem quoted?_tail (h : quoted? s = some (lexeme, rest))
    (hclosed : outside.after lexeme = outside) (tail : Text) :
    quoted? (s ++ tail) = some (lexeme, rest ++ tail) := by
  obtain ⟨quote, inner, rfl, hquote, rfl, rfl⟩ := quoted?_eq_some h
  rw [after_cons, next, if_pos hquote] at hclosed
  rw [List.cons_append, quoted?, if_pos hquote, closeQuote_tail tail hclosed]
  rfl

end Lexeme

end AsmPrep
