/-
What a scanner makes of a token.

A name that means a macro is called, every other token is copied, and a byte that is no more
than itself is left to whoever scans.  This holds where no sigil stands that would change the
matter: a scanner takes a sigil together with the name behind it, and does so when either of
the two names, with the sigil or without, means a macro.
-/
import AsmPrep.Proofs.Macro.Item
import AsmPrep.Proofs.Text.Token

namespace AsmPrep

open Byte

namespace Lexeme

variable {s text rest : Text}

/-- A name without a sigil is an identifier. -/
theorem name?_bare (h : ∀ c ∈ s.head?, isSigil c = false) : name? s = identifier? s := by
  cases s with
  | nil => rfl
  | cons c s => rw [name?, if_neg (by simp [h c rfl])]

theorem identifier?_of_number? (h : number? s = some (text, rest)) : identifier? s = none := by
  cases hi : identifier? s with
  | none => rfl
  | some found =>
    rw [number?_of_identifier? hi] at h
    exact absurd h (by simp)

end Lexeme

namespace Expansion

variable {known : String → Bool} {s text rest : Text} {t : Token} {c : Byte}

theorem nameItem_identifier (h : Lexeme.identifier? s = some (text, rest)) :
    nameItem known s = some
      (if known (Text.toName text) then .call [] (Text.toName text) else .copy text, rest) := by
  obtain ⟨d, bare, rfl, hd, rfl⟩ := Lexeme.identifier?_eq_some h
  obtain ⟨-, hsigil⟩ := not_number_of_isIdentStart hd
  rw [nameItem, Lexeme.name?_bare (by simpa using hsigil), h, Option.bind_some]
  dsimp only
  split
  · rfl
  · rw [if_pos (by simp [hsigil])]

/-- A name with all that is in front of it, where it means a macro. -/
theorem nameItem_known (hname : Lexeme.name? text = some (text, [])) (hrest : Text.Delimited rest)
    (hknown : known (Text.toName text) = true) :
    nameItem known (text ++ rest) = some (.call [] (Text.toName text), rest) := by
  have hne : text ≠ [] := by
    rintro rfl
    exact absurd hname (by simp [Lexeme.name?])
  have hfound : Lexeme.name? (text ++ rest) = some (text, rest) := by
    rw [Lexeme.name?_tail hrest hne, hname]
    rfl
  rw [nameItem, hfound, Option.bind_some, if_pos hknown]

/-- In a body it is a call, whatever else it could be read as. -/
theorem bodyItems_known (hname : Lexeme.name? text = some (text, [])) (hrest : Text.Delimited rest)
    (hknown : known (Text.toName text) = true) :
    bodyItems known (text ++ rest) = .call [] (Text.toName text) :: bodyItems known rest := by
  refine bodyItems_some ?_
  rw [bodyItem, nameItem_known hname hrest hknown]
  rfl

/-- A sigil is no item of its own unless a macro's name follows. -/
theorem nameItem_none (h : Lexeme.identifier? (c :: s) = none)
    (hsigil : isSigil c = true → ∀ text rest, Lexeme.identifier? s = some (text, rest) →
      known (Text.toName (c :: text)) = false ∧ known (Text.toName text) = false) :
    nameItem known (c :: s) = none := by
  rw [nameItem, Lexeme.name?]
  split
  · rename_i hc
    cases hi : Lexeme.identifier? s with
    | none => rfl
    | some found =>
      obtain ⟨hwith, hwithout⟩ := hsigil hc found.1 found.2 hi
      simp [hwith, hwithout, hc]
  · rw [h, Option.bind_none]

theorem nameItem_quoted (h : Lexeme.identifier? s = none)
    (hquoted : Lexeme.quoted? s = some (text, rest)) : nameItem known s = none := by
  obtain ⟨quote, inner, rfl, hquote, -⟩ := Lexeme.quoted?_eq_some hquoted
  refine nameItem_none h fun hsigil => absurd hsigil ?_
  rw [(not_name_of_isQuote hquote).2.1]
  exact Bool.false_ne_true

theorem numberItem_none (h : Lexeme.number? s = none) : numberItem s = none := by
  rw [numberItem, h, Option.map_none]

theorem quotedItem_none (h : Lexeme.quoted? s = none) : quotedItem s = none := by
  rw [quotedItem, h, Option.map_none]

theorem pasteItem_none (hc : c ≠ hash) : pasteItem (c :: s) = none := by
  cases s <;> simp [pasteItem, Lexeme.paste?, hc]

theorem spellItem_none (hc : c ≠ hash) : spellItem known (c :: s) = none := by
  rw [spellItem]
  simp [hc]

/-! ### Tokens as items -/

/-- What a token is to a scanner that takes it. -/
def tokenItem (known : String → Bool) : Token → Item
  | .name text => if known (Text.toName text) then .call [] (Text.toName text) else .copy text
  | .number text | .quoted text => .copy text
  | .byte c => .copy [c]

theorem argumentItem_token (h : TokenAt s t rest) (ht : ∀ c, t ≠ .byte c) :
    argumentItem known s = some (tokenItem known t, rest) := by
  unfold argumentItem
  cases h with
  | number h =>
    rw [numberItem, h]
    rfl
  | name hnumber h =>
    rw [numberItem_none hnumber, nameItem_identifier h]
    rfl
  | quoted hnumber hname h =>
    rw [numberItem_none hnumber, nameItem_quoted hname h, quotedItem, h]
    rfl
  | byte => exact absurd rfl (ht _)

/-- In a body, where names come before numbers, this takes that the token has no sigil. -/
theorem bodyItem_token (h : TokenAt s t rest) (ht : ∀ c, t ≠ .byte c)
    (hsigil : ∀ c ∈ s.head?, isSigil c = false) :
    bodyItem known s = some (tokenItem known t, rest) := by
  have hnone (hname : Lexeme.identifier? s = none) : nameItem known s = none := by
    rw [nameItem, Lexeme.name?_bare hsigil, hname, Option.bind_none]
  unfold bodyItem
  cases h with
  | number h =>
    rw [hnone (Lexeme.identifier?_of_number? h), numberItem, h]
    rfl
  | name hnumber h =>
    rw [nameItem_identifier h]
    rfl
  | quoted hnumber hname h =>
    rw [hnone hname, numberItem_none hnumber, quotedItem, h]
    rfl
  | byte => exact absurd rfl (ht _)

section Byte

variable (h : TokenAt (c :: s) (.byte c) s) (hhash : c ≠ hash)
  (hsigil : isSigil c = true → ∀ text rest, Lexeme.identifier? s = some (text, rest) →
    known (Text.toName (c :: text)) = false ∧ known (Text.toName text) = false)
include h hhash hsigil

theorem argumentItem_byte : argumentItem known (c :: s) = none := by
  cases h with
  | byte hnumber hname hquoted =>
    rw [argumentItem, numberItem_none hnumber, nameItem_none hname hsigil,
      quotedItem_none hquoted, pasteItem_none hhash, spellItem_none hhash]
    rfl

theorem bodyItem_byte : bodyItem known (c :: s) = none := by
  cases h with
  | byte hnumber hname hquoted =>
    rw [bodyItem, numberItem_none hnumber, nameItem_none hname hsigil,
      quotedItem_none hquoted, pasteItem_none hhash, spellItem_none hhash]
    rfl

end Byte

/-- A byte that begins no token is nothing to a scanner. -/
theorem not_taken (known : String → Bool) (h : beginsToken c = false) (s : Text) :
    bodyItem known (c :: s) = none ∧ argumentItem known (c :: s) = none := by
  have hat := tokenAt_byte h s
  obtain ⟨⟨⟨-, hsigil⟩, -⟩, -⟩ :
      ((isDigit c = false ∧ isSigil c = false) ∧ isIdentStart c = false) ∧ isQuote c = false := by
    simpa [beginsToken] using h
  have hhash : c ≠ hash := by
    rintro rfl
    exact absurd hsigil (by decide)
  have hnames : isSigil c = true → ∀ text rest, Lexeme.identifier? s = some (text, rest) →
      known (Text.toName (c :: text)) = false ∧ known (Text.toName text) = false :=
    fun hc => absurd (hsigil.symm.trans hc) Bool.false_ne_true
  exact ⟨bodyItem_byte hat hhash hnames, argumentItem_byte hat hhash hnames⟩

/-! ### Items before a delimiter -/

section Tail

open Text Quoting

variable {tail : Text} {item : Item} (htail : Delimited tail)
include htail

theorem nameItem_tail (known : String → Bool) (hs : s ≠ []) :
    nameItem known (s ++ tail) = (nameItem known s).map (followed tail) := by
  unfold nameItem
  rw [Lexeme.name?_tail htail hs]
  cases Lexeme.name? s with
  | none => rfl
  | some found =>
    obtain ⟨name, rest⟩ := found
    simp only [Option.map_some, Option.bind_some, followed]
    split
    · rfl
    · split
      · rfl
      · split
        · rfl
        · split
          · rfl
          · rfl

theorem numberItem_tail (hs : s ≠ []) :
    numberItem (s ++ tail) = (numberItem s).map (followed tail) := by
  unfold numberItem
  rw [Lexeme.number?_tail htail hs, Option.map_map, Option.map_map]
  rfl

omit htail in
theorem quotedItem_tail (hclosed : outside.after s = outside) (hs : s ≠ []) (tail : Text) :
    quotedItem (s ++ tail) = (quotedItem s).map (followed tail) := by
  unfold quotedItem
  cases hquoted : Lexeme.quoted? s with
  | none =>
    obtain ⟨c, r, rfl⟩ := List.exists_cons_of_ne_nil hs
    have hnone : Lexeme.quoted? (c :: r ++ tail) = none := by
      simp [Lexeme.quoted?, Lexeme.quoted?_eq_none hquoted]
    rw [hnone]
    rfl
  | some found =>
    obtain ⟨lexeme, rest⟩ := found
    have hlexeme : outside.after lexeme = outside := by
      by_cases hrest : rest = []
      · rwa [← Lexeme.quoted?_append hquoted, hrest, List.append_nil] at hclosed
      · exact Lexeme.quoted?_after hquoted hrest
    rw [Lexeme.quoted?_tail hquoted hlexeme]
    rfl

theorem bodyItem_tail (known : String → Bool) (hhash : hash ∉ s)
    (hclosed : outside.after s = outside) (hs : s ≠ []) :
    bodyItem known (s ++ tail) = (bodyItem known s).map (followed tail) := by
  obtain ⟨c, r, rfl⟩ := List.exists_cons_of_ne_nil hs
  have hc : c ≠ hash := fun hc => hhash (hc ▸ List.mem_cons_self)
  have hrest : (pasteItem (c :: r ++ tail)).or (spellItem known (c :: r ++ tail)) = none := by
    rw [List.cons_append, pasteItem_none hc, spellItem_none hc, Option.or_none]
  unfold bodyItem
  rw [hrest, pasteItem_none hc, spellItem_none hc, nameItem_tail htail known hs,
    numberItem_tail htail hs, quotedItem_tail hclosed hs]
  simp only [Option.or_none, Option.map_or]

end Tail

section Append

open Text Quoting

variable {tail : Text} {item : Item}

/-- What is left behind an item of a text without open strings has none. -/
theorem bodyItem_closed (h : bodyItem known s = some (item, rest)) (hhash : hash ∉ s)
    (hclosed : outside.after s = outside) : outside.after rest = outside := by
  have hbehind {text : Text} (happend : text ++ rest = s) (htext : outside.after text = outside) :
      outside.after rest = outside := by
    rwa [← happend, after_append, htext] at hclosed
  have hword {text : Text} (hbytes : ∀ c ∈ text, isWordByte c = true) :
      outside.after text = outside :=
    after_outside fun c hc => (not_special_of_isWordByte (hbytes c hc)).1
  obtain ⟨c, r, rfl⟩ : ∃ c r, s = c :: r :=
    List.exists_cons_of_length_pos (Nat.zero_lt_of_lt (bodyItem_shorter h).2)
  have hc : c ≠ hash := fun hc => hhash (hc ▸ List.mem_cons_self)
  rw [bodyItem, pasteItem_none hc, spellItem_none hc, Option.or_none, Option.or_none] at h
  simp only [Option.or_eq_some_iff] at h
  rcases h with h | ⟨-, h | ⟨-, h⟩⟩
  · obtain ⟨name, hname⟩ := nameItem_name? h
    exact hbehind (Lexeme.name?_append hname) (hword (Lexeme.name?_bytes hname))
  · obtain ⟨⟨text, rest'⟩, hnumber, heq⟩ := Option.map_eq_some_iff.1 h
    obtain ⟨-, rfl⟩ := Prod.mk.inj heq
    exact hbehind (Lexeme.number?_append hnumber) (hword (Lexeme.number?_bytes hnumber))
  · obtain ⟨⟨text, rest'⟩, hquoted, heq⟩ := Option.map_eq_some_iff.1 h
    obtain ⟨-, rfl⟩ := Prod.mk.inj heq
    by_cases hrest : rest' = []
    · rw [hrest, after_nil]
    · exact hbehind (Lexeme.quoted?_append hquoted) (Lexeme.quoted?_after hquoted hrest)

/-- **The items of a text are the same where a delimiter follows it**, and those of what follows
come behind them. -/
theorem bodyItems_append (htail : Delimited tail) (hhash : hash ∉ s)
    (hclosed : outside.after s = outside) :
    bodyItems known (s ++ tail) = bodyItems known s ++ bodyItems known tail := by
  fun_induction bodyItems known s with
  | case1 => rfl
  | case2 c r item rest hitem ih =>
    have htailed := bodyItem_tail htail known hhash hclosed (List.cons_ne_nil c r)
    rw [hitem] at htailed
    have hrest : hash ∉ rest := fun hmem => hhash ((bodyItem_shorter hitem).1.subset hmem)
    rw [bodyItems_some htailed, ih hrest (bodyItem_closed hitem hhash hclosed)]
    rfl
  | case3 c r hitem ih =>
    have htailed := bodyItem_tail htail known hhash hclosed (List.cons_ne_nil c r)
    rw [hitem] at htailed
    have hquote : isQuote c = false := by
      simp only [bodyItem, Option.or_eq_none_iff] at hitem
      exact Lexeme.quoted?_eq_none (Option.map_eq_none_iff.1 hitem.2.2.1)
    rw [after_cons, next_outside hquote] at hclosed
    rw [List.cons_append] at htailed ⊢
    rw [bodyItems_none htailed,
      ih (fun hmem => hhash (List.mem_cons_of_mem c hmem)) hclosed]
    rfl

end Append

end Expansion

end AsmPrep
