/-
Text that splitting leaves as it stands.

Blanks, a name that is no macro and a string that is closed are copied into the piece that
they stand in, and end no statement.  So a line made of nothing else comes out as one piece,
without the comment at its end.
-/
import AsmPrep.Proofs.Macro.Token
import AsmPrep.Proofs.Statement.LineEnd

namespace AsmPrep

open Byte

/-! ### Items that are copied -/

theorem Lexeme.closeQuote_append_rest {quote : Byte} {name s : Text}
    (hname : ∀ d ∈ name, d ≠ quote ∧ d ≠ backslash) (hs : s ≠ []) :
    Lexeme.closeQuote quote (name ++ quote :: s) = (name ++ [quote], s) := by
  obtain ⟨next, s, rfl⟩ := List.exists_cons_of_ne_nil hs
  induction name with
  | nil => rw [List.nil_append, Lexeme.closeQuote, if_pos rfl, List.nil_append]
  | cons d name ih =>
    obtain ⟨hquote, hback⟩ := hname d List.mem_cons_self
    have hrest := ih fun e he => hname e (List.mem_cons_of_mem _ he)
    obtain ⟨e, r, her⟩ : ∃ e r, name ++ quote :: next :: s = e :: r :=
      List.exists_cons_of_ne_nil (by simp)
    rw [her] at hrest
    rw [List.cons_append, her, Lexeme.closeQuote, if_neg hquote, if_neg hback, hrest]
    rfl

namespace Expansion

variable {c : Byte} {known : String → Bool} {s : Text}

/-- A name that is no macro is copied. -/
theorem argumentItem_name {name : Text} (hname : Lexeme.identifier? name = some (name, []))
    (hs : Text.Delimited s) (hknown : known (Text.toName name) = false) :
    argumentItem known (name ++ s) = some (.copy name, s) := by
  rw [argumentItem_token (tokenAt_name hname hs) fun _ => by simp, tokenItem,
    if_neg (by simp [hknown])]

/-- So is a string that is closed. -/
theorem argumentItem_quoted {quote : Byte} {name : Text} (hq : isQuote quote = true)
    (hname : ∀ d ∈ name, d ≠ quote ∧ d ≠ backslash) (hs : s ≠ []) :
    argumentItem known (quote :: name ++ quote :: s) =
      some (.copy (quote :: name ++ [quote]), s) := by
  obtain ⟨hdigit, hsigil, hstart⟩ := not_name_of_isQuote hq
  have hquoted : Lexeme.quoted? (quote :: (name ++ quote :: s)) =
      some (quote :: (name ++ [quote]), s) := by
    rw [Lexeme.quoted?, if_pos hq, Lexeme.closeQuote_append_rest hname hs]
    rfl
  have hat : TokenAt (quote :: (name ++ quote :: s)) (.quoted (quote :: (name ++ [quote]))) s :=
    .quoted (Lexeme.number?_none hdigit hsigil _) (Lexeme.identifier?_none hstart _) hquoted
  exact argumentItem_token hat fun _ => by simp

end Expansion

/-! ### Pieces -/

namespace Statement

open Expansion

variable {e : Expander} {s text : Text} {st : State} {out : Buffer} {n : Counts} {c : Byte}

/-- The text is copied where `s` follows it. -/
def Copied (e : Expander) (st : State) (text s : Text) : Prop :=
  ∀ out n, ∃ n', splitFrom e (text ++ s) st out n = splitFrom e s st (out.append text) n'

theorem Copied.append {first second : Text} (h : Copied e st first (second ++ s))
    (h' : Copied e st second s) : Copied e st (first ++ second) s := by
  intro out n
  obtain ⟨n₁, hfirst⟩ := h out n
  obtain ⟨n₂, hsecond⟩ := h' (out.append first) n₁
  have hout : (out.append first).append second = out.append (first ++ second) :=
    Buffer.ext_toText (by simp)
  exact ⟨n₂, by rw [List.append_assoc, hfirst, hsecond, hout]⟩

/-- An item that calls nothing is written into the piece. -/
theorem splitFrom_item (e : Expander) (st : State) (value : String → Buffer → Buffer)
    {item : Item} {rest : Text} (h : argumentItem st.table.contains s = some (item, rest))
    (hcall : item.called? = none) (out : Buffer) (n : Counts) :
    ∃ n', splitFrom e s st out n = splitFrom e rest st (item.write value out) n' := by
  have hperform := token_perform e s st out
  rw [h, Option.map_some, Item.perform_literal hcall e value] at hperform
  obtain ⟨⟨isName, p⟩, htoken, hparts⟩ := Option.map_eq_some_iff.1 hperform
  obtain ⟨hrest, hstate, hout⟩ : p.rest = rest ∧ p.state = st ∧ p.out = item.write value out := by
    simpa only [Progress.parts, Prod.mk.injEq] using hparts
  obtain ⟨c, r, rfl⟩ := List.exists_cons_of_ne_nil (token_ne_nil htoken)
  rw [splitFrom_token htoken, hrest, hstate, hout]
  exact ⟨_, rfl⟩

theorem copied_of_item (h : argumentItem st.table.contains (text ++ s) = some (.copy text, s)) :
    Copied e st text s :=
  splitFrom_item e st (fun _ out => out) h rfl

theorem token_byte (hc : beginsToken c = false) : token e (c :: s) st out = none :=
  token_none (not_taken _ hc _).2

theorem effect_blank (hc : isBlank c = true) : effect c n = .keep n.other := by
  rcases isBlank_cases hc with rfl | rfl | rfl | rfl <;> rfl

/-- Blanks are copied. -/
theorem copied_of_blank (h : ∀ c ∈ text, isBlank c = true) : Copied e st text s := by
  induction text with
  | nil => exact fun out n => ⟨n, rfl⟩
  | cons c text ih =>
    intro out n
    have hc := h c List.mem_cons_self
    obtain ⟨n', hrest⟩ := ih (fun d hd => h d (List.mem_cons_of_mem _ hd)) (out.push c) n.other
    refine ⟨n', ?_⟩
    rw [List.cons_append,
      splitFrom_keep (token_byte (not_beginsToken_of_isBlank hc)) (effect_blank hc)]
    exact hrest

end Statement

end AsmPrep
