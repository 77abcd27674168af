/-
Whether reading arguments gets past the line end.

Arguments stop at the end of a statement, so what is left of a line after a call still has
its newline.  There is one way around that: a string that is not closed runs to the end of
the text, and the newline is part of it.  `Held` says that a scan has left the newline where
it was or has come upon such a string; every scanner of arguments holds the line in this
sense, and so does every expansion, by induction on how deep expansions are nested.
-/
import AsmPrep.Proofs.Macro.Literal
import AsmPrep.Proofs.Text.Line

namespace AsmPrep

open Byte

namespace Expansion

variable {known : String → Bool} {s rest : Text} {item : Item}

theorem nameItem_within (h : nameItem known s = some (item, rest)) : Text.WithinLine rest s := by
  obtain ⟨name, hn⟩ := nameItem_name? h
  exact ⟨name, Lexeme.name?_append hn, Lexeme.name?_within hn⟩

theorem numberItem_within (h : numberItem s = some (item, rest)) : Text.WithinLine rest s := by
  obtain ⟨found, hf, hr⟩ := Option.map_eq_some_iff.1 h
  obtain ⟨-, rfl⟩ := Prod.mk.inj hr
  exact ⟨found.1, Lexeme.number?_append hf, Lexeme.number?_within hf⟩

theorem pasteItem_within (h : pasteItem s = some (item, rest)) : Text.WithinLine rest s := by
  obtain ⟨found, hf, hr⟩ := Option.map_eq_some_iff.1 h
  obtain ⟨-, rfl⟩ := Prod.mk.inj hr
  exact Lexeme.paste?_within hf

theorem spellItem_within (h : spellItem known s = some (item, rest)) : Text.WithinLine rest s := by
  cases s with
  | nil => exact absurd h (by simp [spellItem])
  | cons c r =>
    rw [spellItem] at h
    split at h
    · rename_i hc
      subst hc
      obtain ⟨⟨inner, rest'⟩, hf, hr⟩ := Option.map_eq_some_iff.1 h
      obtain ⟨-, rfl⟩ := Prod.mk.inj hr
      refine ((Text.WithinLine.cons (by decide) r).trans (Text.skipBlanks_within r)).trans ?_
      rcases Option.or_eq_some_iff.1 hf with hf | ⟨-, hf⟩
      · exact nameItem_within hf
      · exact numberItem_within hf
    · exact absurd h (by simp)

/-- Of the items of a line only a string can take the line end along. -/
theorem argumentItem_within (h : argumentItem known s = some (item, rest)) :
    Text.WithinLine rest s ∨
      ∃ lexeme, item = .copy lexeme ∧ Lexeme.quoted? s = some (lexeme, rest) := by
  simp only [argumentItem, Option.or_eq_some_iff] at h
  rcases h with h | ⟨-, h | ⟨-, h | ⟨-, h | ⟨-, h⟩⟩⟩⟩
  · exact .inl (numberItem_within h)
  · exact .inl (nameItem_within h)
  · obtain ⟨⟨lexeme, rest'⟩, hf, hr⟩ := Option.map_eq_some_iff.1 h
    obtain ⟨rfl, rfl⟩ := Prod.mk.inj hr
    exact .inr ⟨lexeme, rfl, hf⟩
  · exact .inl (pasteItem_within h)
  · exact .inl (spellItem_within h)

/-- An item that takes the line end along copies it. -/
theorem argumentItem_end (h : argumentItem known s = some (item, [])) (hs : Text.Whole s) :
    item = .copy s := by
  rcases argumentItem_within h with hwithin | ⟨lexeme, rfl, hq⟩
  · exact absurd rfl (hwithin.whole_iff.1 hs).ne_nil
  · have happend := Lexeme.quoted?_append hq
    rw [List.append_nil] at happend
    rw [happend]

/-! ### Holding the line -/

/-- Somewhere in the text a string begins that runs to its end. -/
def Unclosed (s : Text) : Prop := ∃ t lexeme, t <:+ s ∧ Lexeme.quoted? t = some (lexeme, [])

theorem Unclosed.of_suffix (h : Unclosed rest) (hs : rest <:+ s) : Unclosed s := by
  obtain ⟨t, lexeme, ht, hq⟩ := h
  exact ⟨t, lexeme, ht.trans hs, hq⟩

/-- A scan that has come from `s` to `rest` has left the line end where it was, or has come
upon a string that is not closed. -/
structure Held (rest s : Text) : Prop where
  suffix : rest <:+ s
  line : Text.Whole s → Text.Whole rest ∨ Unclosed s

namespace Held

variable {last : Text} {c : Byte}

theorem refl (s : Text) : Held s s := ⟨List.suffix_rfl, .inl⟩

theorem trans (h : Held rest s) (h' : Held last rest) : Held last s := by
  refine ⟨h'.suffix.trans h.suffix, ?_⟩
  intro hs
  rcases h.line hs with hrest | hun
  · exact (h'.line hrest).imp_right (·.of_suffix h.suffix)
  · exact .inr hun

theorem of_within (h : Text.WithinLine rest s) : Held rest s := by
  refine ⟨?_, fun hs => .inl (h.whole_iff.1 hs)⟩
  obtain ⟨w, hw, -⟩ := h
  exact ⟨w, hw⟩

theorem of_ne_nil (hs : rest <:+ s) (hr : rest ≠ []) : Held rest s :=
  ⟨hs, fun hwhole => .inl (hwhole.suffix hs hr)⟩

theorem cons (hc : c ≠ newline) (s : Text) : Held s (c :: s) := of_within (.cons hc s)

theorem tail (hc : c ≠ newline) (hs : s.head? = some c) : Held s.tail s := by
  obtain ⟨r, rfl⟩ := List.head?_eq_some_iff.1 hs
  exact .cons hc r

theorem skipBlanks (s : Text) : Held (Text.skipBlanks s) s := of_within (Text.skipBlanks_within s)

theorem quoted {lexeme : Text} (h : Lexeme.quoted? s = some (lexeme, rest)) : Held rest s := by
  have hs : rest <:+ s := ⟨lexeme, Lexeme.quoted?_append h⟩
  by_cases hr : rest = []
  · subst hr
    exact ⟨hs, fun _ => .inr ⟨s, lexeme, List.suffix_rfl, h⟩⟩
  · exact of_ne_nil hs hr

end Held

theorem argumentItem_held (h : argumentItem known s = some (item, rest)) : Held rest s := by
  rcases argumentItem_within h with hwithin | ⟨lexeme, -, hq⟩
  · exact .of_within hwithin
  · exact .quoted hq

theorem ne_newline_of_not_end {c : Byte} {r : Text} (h : ¬ Text.atEndOfStatement (c :: r) = true) :
    c ≠ newline := by
  rintro rfl
  exact h (by simp [Text.atEndOfStatement])

theorem angleText_ne_nil (hs : newline ∈ s) : (Lexeme.angleText s).2 ≠ [] := by
  fun_induction Lexeme.angleText s with
  | case1 => exact absurd hs List.not_mem_nil
  | case2 => exact List.cons_ne_nil _ _
  | case3 c hc =>
    obtain rfl := List.mem_singleton.1 hs
    exact absurd hc (by simp)
  | case4 => exact List.cons_ne_nil _ _
  | case5 c d s hc hd ih =>
    have hne : newline ≠ c ∧ newline ≠ d := by
      refine ⟨?_, ?_⟩ <;> rintro rfl <;> simp at hc hd
    simp only [List.mem_cons, hne, false_or] at hs
    exact ih hs
  | case6 c d s hc _ ih =>
    have hne : newline ≠ c := by
      rintro rfl
      simp at hc
    exact ih ((List.mem_cons.1 hs).resolve_left hne)

theorem angleArgument_held (s : Text) (st : State) : Held (angleArgument s st).rest s := by
  have happend := Lexeme.angleText_append s
  unfold angleArgument
  split
  · rename_i text c rest h
    rw [h] at happend
    have hrest : Held (c :: rest) s := .of_ne_nil ⟨text, happend⟩ (List.cons_ne_nil c rest)
    dsimp only
    split
    · rename_i hc
      exact hrest.trans (.cons (hc ▸ by decide) rest)
    · exact hrest
  · -- The text would have to end before its newline.
    rename_i h
    refine ⟨List.nil_suffix, ?_⟩
    rintro ⟨body, rfl, -⟩
    exact absurd (congrArg Prod.snd h) (angleText_ne_nil (by simp))

theorem skipSurplus_held (s : Text) (depth : Nat) : Held (skipSurplus s depth) s := by
  fun_induction skipSurplus s depth with
  | case1 => exact .refl _
  | case2 s depth _ lexeme rest h ih => exact (Held.quoted h).trans ih
  | case3 => exact .refl _
  | case4 depth r _ _ ih => exact (Held.cons (by decide) r).trans ih
  | case5 r => exact .cons (by decide) r
  | case6 depth r _ _ _ _ ih => exact (Held.cons (by decide) r).trans ih
  | case7 depth c r _ _ _ hend ih => exact (Held.cons (ne_newline_of_not_end hend) r).trans ih

theorem closeArguments_held (inParens : Bool) (s : Text) (st : State) :
    Held (closeArguments inParens s st).rest s := by
  unfold closeArguments
  split
  · split
    · exact .refl _
    · rename_i c r
      split
      · rename_i hc
        exact .cons (hc ▸ by decide) r
      · split
        · exact skipSurplus_held _ 0
        · exact .refl _
  · split
    · exact .refl _
    · exact .refl _

theorem openArguments_held (s : Text) : Held (openArguments s).2 s := by
  have hblanks := Held.skipBlanks s
  unfold openArguments
  split
  · rename_i h
    exact h ▸ hblanks
  · rename_i c r h
    rw [h] at hblanks
    split
    · rename_i hc
      exact (hblanks.trans (.cons (hc ▸ by decide) r)).trans (.skipBlanks r)
    · exact hblanks

theorem Gathered.widen_rest {t : Text} (g : Gathered s) (h : s.length ≤ t.length) :
    (g.widen h).rest = g.rest := rfl

section Calls

variable {expand : Expander} (he : ∀ name s st out, Held (expand name s st out).rest s)
include he

theorem Item.perform_held (item : Item) (rest : Text) (st : State) (out : Buffer) :
    Held (item.perform expand rest st out).1 rest := by
  induction item generalizing out with
  | copy | paste => exact .refl rest
  | call front name => exact he name rest st _
  | spell item ih => exact ih {}

theorem argumentToken_held {st : State} {out : Buffer} {p : Progress s}
    (h : argumentToken expand s st out = some p) : Held p.rest s := by
  obtain ⟨item, rest, hitem, hdone⟩ := argumentItem_of_some h
  have hrest : (item.perform expand rest st out).1 = p.rest := congrArg Prod.fst hdone
  exact (argumentItem_held hitem).trans (hrest ▸ item.perform_held he rest st out)

theorem scanArgument_held (s : Text) (st : State) (out : Buffer) (depth : Nat) :
    Held (scanArgument expand s st out depth).rest s := by
  fun_induction scanArgument expand s st out depth with
  | case1 => exact .refl _
  | case2 s st out depth _ p hp ih => exact (argumentToken_held he hp).trans ih
  | case3 => exact .refl _
  | case4 => exact .refl _
  | case5 st out depth c r _ hend _ ih => exact (Held.cons (ne_newline_of_not_end hend) r).trans ih

theorem collectArgument_held (s : Text) (st : State) :
    Held (collectArgument expand s st).rest s := by
  unfold collectArgument
  split
  · exact scanArgument_held he [] st {} 0
  · rename_i c r
    split
    · rename_i hc
      exact (Held.cons (hc ▸ by decide) r).trans (angleArgument_held r st)
    · exact scanArgument_held he (c :: r) st {} 0

theorem argument_held (inParens : Bool) (s : Text) (st : State) :
    Held (argument expand inParens s st).rest s := by
  unfold argument
  split
  · exact .refl s
  · exact collectArgument_held he s st

theorem bindArguments_held (inParens : Bool) (params : List String) (s : Text) (st : State) :
    Held (bindArguments expand inParens params s st).rest s := by
  induction params generalizing s st with
  | nil => exact .refl s
  | cons param others ih =>
    -- What follows an argument is looked at behind blanks, and only a comma is taken.
    have hgot := (Held.skipBlanks s).trans (argument_held he inParens (Text.skipBlanks s) st)
    have hnext := hgot.trans (.skipBlanks _)
    rw [bindArguments]
    dsimp only
    split
    · exact hgot
    · split
      · exact hnext
      · split
        · rename_i hcomma
          refine (hnext.trans (.tail (by decide) hcomma)).trans ?_
          rw [Gathered.widen_rest]
          exact ih _ _
        · exact hnext

theorem takeArguments_held (params : List String) (s : Text) (st : State) :
    Held (takeArguments expand params s st).rest s := by
  unfold takeArguments
  split
  · exact .refl s
  · have hbound := (openArguments_held s).trans
      (bindArguments_held he (openArguments s).1 params (openArguments s).2 st)
    unfold collectArguments
    dsimp only
    split
    · exact hbound
    · refine hbound.trans ?_
      rw [Gathered.widen_rest]
      exact closeArguments_held _ _ _

end Calls

/-- **An expansion holds the line.** -/
theorem expand_held (budget : Nat) (name : String) (s : Text) (st : State) (out : Buffer) :
    Held (Expansion.expand budget name s st out).rest s := by
  induction budget generalizing name s st out with
  | zero =>
    unfold Expansion.expand
    split
    · exact .refl s
    · split
      · exact .refl s
      · exact .refl s
  | succ budget ih =>
    unfold Expansion.expand
    split
    · exact .refl s
    · rename_i m _
      split
      · exact .refl s
      · dsimp only
        split
        · exact takeArguments_held ih m.params s _
        · exact takeArguments_held ih m.params s _

end Expansion

end AsmPrep
