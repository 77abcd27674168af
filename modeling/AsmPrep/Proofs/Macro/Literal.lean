/-
Texts that call nothing.

Scanning such a text writes its items and leaves the state alone.  A body whose calls do no
more than writing does no more itself: that is what calls of parameters come to as long as
the texts of the parameters call nothing.

Which names are known matters only for names that occur in the text.  A text that calls
nothing is read the same way when fewer of them are known, or none.
-/
import AsmPrep.Proofs.Macro.Item

namespace AsmPrep.Expansion

open Byte

/-! ### Texts that call nothing, and calls that only write -/

/-- None of the items is a call. -/
def Literal (items : List Item) : Prop := ∀ item ∈ items, item.called? = none

instance (items : List Item) : Decidable (Literal items) :=
  inferInstanceAs (Decidable (∀ item ∈ items, item.called? = none))

theorem Item.perform_literal {item : Item} (h : item.called? = none) (expand : Expander)
    (value : String → Buffer → Buffer) (rest : Text) (st : State) (out : Buffer) :
    item.perform expand rest st out = (rest, st, item.write value out) := by
  induction item generalizing out with
  | copy text => rfl
  | paste => rfl
  | call front name => exact absurd h (by simp [called?])
  | spell item ih =>
    rw [perform, ih h]
    rfl

/-- A scan that comes across literal items only writes them. -/
theorem scanArgument_literal {expand : Expander} (value : String → Buffer → Buffer) {s : Text}
    {st : State} {out : Buffer} {depth : Nat}
    (h : Literal (argumentItems st.table.contains s depth).items) :
    (scanArgument expand s st out depth).parts =
      ((argumentItems st.table.contains s depth).rest, st,
        Item.writeAll value (argumentItems st.table.contains s depth).items out,
        (argumentItems st.table.contains s depth).fault) := by
  fun_induction scanArgument expand s st out depth with
  | case1 s st out depth he =>
    rw [argumentItems_end he]
    rfl
  | case2 s st out depth he p hp ih =>
    obtain ⟨item, rest, hitem, hdone⟩ := argumentItem_of_some hp
    rw [argumentItems_some (by simpa using he) hitem] at h ⊢
    have hfirst : item.called? = none := h item List.mem_cons_self
    rw [Item.perform_literal hfirst expand value] at hdone
    obtain ⟨rfl, hst, hout⟩ : _ ∧ _ ∧ _ := by simpa only [Progress.parts, Prod.mk.injEq] using hdone
    rw [← hst] at ih
    show (scanArgument expand p.rest p.state p.out depth).parts = _
    rw [← hst]
    refine (ih fun other ho => h other (List.mem_cons_of_mem _ ho)).trans ?_
    rw [← hout]
    rfl
  | case3 st out depth he => exact absurd rfl he
  | case4 st out depth c r hc he hp =>
    rw [argumentItems_none (by simpa using he) (argumentItem_of_none hp), if_pos hc]
    rfl
  | case5 st out depth c r hc he hp ih =>
    rw [argumentItems_none (by simpa using he) (argumentItem_of_none hp), if_neg hc] at h ⊢
    exact ih fun other ho => h other (List.mem_cons_of_mem _ ho)

/-- Expanding the macro of that name does no more than writing, in a state with that table. -/
def Writes (expand : Expander) (t : MacroTable) (name : String) (value : Buffer → Buffer) : Prop :=
  ∀ s st out, st.table = t →
    (expand name s st out).rest = s ∧ (expand name s st out).state.table = t ∧
      (expand name s st out).state.faults = st.faults ∧ (expand name s st out).out = value out

theorem Item.perform_writes {item : Item} {expand : Expander} {t : MacroTable}
    {value : String → Buffer → Buffer}
    (h : ∀ name, item.called? = some name → Writes expand t name (value name))
    (rest : Text) (st : State) (out : Buffer) (ht : st.table = t) :
    let done := item.perform expand rest st out
    done.1 = rest ∧ done.2.1.table = t ∧ done.2.1.faults = st.faults ∧
      done.2.2 = item.write value out := by
  induction item generalizing out with
  | copy text => exact ⟨rfl, ht, rfl, rfl⟩
  | paste => exact ⟨rfl, ht, rfl, rfl⟩
  | call front name => exact h name rfl rest st (out.append front) ht
  | spell item ih =>
    obtain ⟨hrest, htable, hfaults, hout⟩ := ih h {}
    refine ⟨hrest, htable, hfaults, ?_⟩
    show out.append (spelling (item.perform expand rest st {}).2.2.toText) = _
    rw [hout]
    rfl

/-- A body whose calls only write does no more itself. -/
theorem rescan_writes (expand : Expander) (value : String → Buffer → Buffer) (s : Text) (st : State)
    (out : Buffer) {t : MacroTable} (ht : st.table = t)
    (h : ∀ item ∈ bodyItems t.contains s, ∀ name, item.called? = some name →
      Writes expand t name (value name)) :
    (rescan expand s st out).1.table = t ∧ (rescan expand s st out).1.faults = st.faults ∧
      (rescan expand s st out).2 = Item.writeAll value (bodyItems t.contains s) out := by
  fun_induction rescan expand s st out with
  | case1 => exact ⟨ht, rfl, by rw [bodyItems_nil]; rfl⟩
  | case2 st out c r p hp ih =>
    obtain ⟨item, rest, hitem, hdone⟩ := bodyItem_of_some hp
    rw [ht] at hitem
    rw [bodyItems_some hitem] at h ⊢
    have hfirst := Item.perform_writes (h item List.mem_cons_self) rest st out ht
    rw [hdone] at hfirst
    obtain ⟨hrest, htable, hfaults, hout⟩ := hfirst
    rw [← (show p.rest = rest from hrest)] at h ⊢
    obtain ⟨htable', hfaults', hout'⟩ :=
      ih htable fun other ho => h other (List.mem_cons_of_mem _ ho)
    refine ⟨htable', hfaults'.trans hfaults, ?_⟩
    rw [hout', show p.out = _ from hout]
    rfl
  | case3 st out c r hp ih =>
    have hitem := bodyItem_of_none hp
    rw [ht] at hitem
    rw [bodyItems_none hitem] at h ⊢
    exact ih ht fun other ho => h other (List.mem_cons_of_mem _ ho)

/-! ### Names that make no difference -/

/-- Of the names that occur in a text, `known'` holds none that `known` does not. -/
def KnowsLess (known' known : String → Bool) (s : Text) : Prop :=
  ∀ name, name <:+: s → known' (Text.toName name) = true → known (Text.toName name) = true

section Less

variable {known known' : String → Bool} {s rest : Text}

theorem KnowsLess.suffix (h : KnowsLess known' known s) (hs : rest <:+ s) :
    KnowsLess known' known rest :=
  fun name hn => h name (hn.trans hs.isInfix)

/-- A name that is not known stays unknown. -/
theorem KnowsLess.unknown (h : KnowsLess known' known s) {name : Text} (hs : name <:+: s)
    (hk : known (Text.toName name) = false) : known' (Text.toName name) = false := by
  refine Bool.eq_false_iff.2 ?_
  intro hk'
  rw [h name hs hk'] at hk
  exact absurd hk (by simp)

theorem nameItem_less (h : KnowsLess known' known s)
    (hlit : ∀ found, nameItem known s = some found → found.1.called? = none) :
    nameItem known' s = nameItem known s := by
  cases hs : Lexeme.name? s with
  | none => rw [nameItem, nameItem, hs, Option.bind_none, Option.bind_none]
  | some found =>
    obtain ⟨name, rest⟩ := found
    have hname : name <:+: s := Lexeme.name?_append hs ▸ (List.prefix_append name rest).isInfix
    rw [nameItem, hs, Option.bind_some] at hlit
    rw [nameItem, nameItem, hs, Option.bind_some, Option.bind_some]
    dsimp only at hlit ⊢
    cases hwhole : known (Text.toName name) with
    | true =>
      rw [if_pos hwhole] at hlit
      exact absurd (hlit _ rfl) (by simp [Item.called?])
    | false =>
      rw [if_neg (by simp [hwhole])] at hlit
      rw [if_neg (by simp [h.unknown hname hwhole]), if_neg (by simp)]
      cases name with
      | nil => rfl
      | cons c bare =>
        have hbare : bare <:+: s := (List.suffix_cons c bare).isInfix.trans hname
        dsimp only at hlit ⊢
        by_cases hc : (!isSigil c) = true
        · rw [if_pos hc, if_pos hc]
        · rw [if_neg hc] at hlit
          rw [if_neg hc, if_neg hc]
          cases hpart : known (Text.toName bare) with
          | true =>
            rw [if_pos hpart] at hlit
            exact absurd (hlit _ rfl) (by simp [Item.called?])
          | false => rw [if_neg (by simp [h.unknown hbare hpart]), if_neg (by simp)]

theorem spellItem_less (h : KnowsLess known' known s)
    (hlit : ∀ found, spellItem known s = some found → found.1.called? = none) :
    spellItem known' s = spellItem known s := by
  cases s with
  | nil => rfl
  | cons c r =>
    rw [spellItem] at hlit
    rw [spellItem, spellItem]
    dsimp only at hlit ⊢
    by_cases hc : c = hash
    · rw [if_pos hc] at hlit
      rw [if_pos hc, if_pos hc]
      have htoken : Text.skipBlanks r <:+ c :: r :=
        (Text.skipBlanks_suffix r).trans (List.suffix_cons c r)
      have hname : nameItem known' (Text.skipBlanks r) = nameItem known (Text.skipBlanks r) := by
        refine nameItem_less (h.suffix htoken) ?_
        intro found hf
        exact hlit (.spell found.1, found.2) (by rw [hf]; rfl)
      rw [hname]
    · rw [if_neg hc, if_neg hc]

theorem bodyItem_less (h : KnowsLess known' known s)
    (hlit : ∀ found, bodyItem known s = some found → found.1.called? = none) :
    bodyItem known' s = bodyItem known s := by
  have hname : nameItem known' s = nameItem known s := by
    refine nameItem_less h ?_
    intro found hf
    exact hlit found (by rw [bodyItem, hf]; rfl)
  rw [bodyItem, bodyItem, hname]
  rw [bodyItem] at hlit
  -- an item that is spelled comes last, so it is read only where there is no other
  cases hn : nameItem known s with
  | some found => rfl
  | none =>
    cases hm : numberItem s with
    | some found => rfl
    | none =>
      cases hq : quotedItem s with
      | some found => rfl
      | none =>
        cases hp : pasteItem s with
        | some found => rfl
        | none =>
          rw [hn, hm, hq, hp] at hlit
          exact spellItem_less h hlit

theorem argumentItem_less (h : KnowsLess known' known s)
    (hlit : ∀ found, argumentItem known s = some found → found.1.called? = none) :
    argumentItem known' s = argumentItem known s := by
  rw [argumentItem] at hlit
  rw [argumentItem, argumentItem]
  cases hm : numberItem s with
  | some found => rfl
  | none =>
    rw [hm] at hlit
    have hname : nameItem known' s = nameItem known s := by
      refine nameItem_less h ?_
      intro found hf
      exact hlit found (by rw [hf]; rfl)
    rw [hname]
    cases hn : nameItem known s with
    | some found => rfl
    | none =>
      cases hq : quotedItem s with
      | some found => rfl
      | none =>
        cases hp : pasteItem s with
        | some found => rfl
        | none =>
          rw [hn, hq, hp] at hlit
          exact spellItem_less h hlit

/-- **A body that calls nothing reads the same when fewer of its names are known.** -/
theorem bodyItems_less (h : KnowsLess known' known s) (hlit : Literal (bodyItems known s)) :
    bodyItems known' s = bodyItems known s := by
  fun_induction bodyItems known s with
  | case1 => rw [bodyItems_nil]
  | case2 c r item rest hitem ih =>
    have hrest := (bodyItem_shorter hitem).1
    have hitem' : bodyItem known' (c :: r) = some (item, rest) := by
      rw [bodyItem_less h, hitem]
      intro found hf
      obtain rfl := Option.some.inj (hitem.symm.trans hf)
      exact hlit item List.mem_cons_self
    have hothers := ih (h.suffix hrest) fun other ho => hlit other (List.mem_cons_of_mem _ ho)
    rw [bodyItems_some hitem', hothers]
  | case3 c r hitem ih =>
    have hitem' : bodyItem known' (c :: r) = none := by
      rw [bodyItem_less h, hitem]
      intro found hf
      exact absurd (hitem.symm.trans hf) (by simp)
    rw [bodyItems_none hitem',
      ih (h.suffix (List.suffix_cons c r)) fun other ho => hlit other (List.mem_cons_of_mem _ ho)]

/-- So does an argument. -/
theorem argumentItems_less {depth : Nat} (h : KnowsLess known' known s)
    (hlit : Literal (argumentItems known s depth).items) :
    argumentItems known' s depth = argumentItems known s depth := by
  fun_induction argumentItems known s depth with
  | case1 depth => rw [argumentItems_end rfl]
  | case2 depth c r he => rw [argumentItems_end he]
  | case3 depth c r he item rest hitem ih =>
    have hrest := (argumentItem_shorter hitem).1
    have hitem' : argumentItem known' (c :: r) = some (item, rest) := by
      rw [argumentItem_less h, hitem]
      intro found hf
      obtain rfl := Option.some.inj (hitem.symm.trans hf)
      exact hlit item List.mem_cons_self
    rw [argumentItems_some (by simpa using he) hitem',
      ih (h.suffix hrest) fun other ho => hlit other (List.mem_cons_of_mem _ ho)]
  | case4 depth c r he hitem hc =>
    have hitem' : argumentItem known' (c :: r) = none := by
      rw [argumentItem_less h, hitem]
      intro found hf
      exact absurd (hitem.symm.trans hf) (by simp)
    rw [argumentItems_none (by simpa using he) hitem', if_pos hc]
  | case5 depth c r he hitem hc ih =>
    have hitem' : argumentItem known' (c :: r) = none := by
      rw [argumentItem_less h, hitem]
      intro found hf
      exact absurd (hitem.symm.trans hf) (by simp)
    rw [argumentItems_none (by simpa using he) hitem', if_neg hc,
      ih (h.suffix (List.suffix_cons c r)) fun other ho => hlit other (List.mem_cons_of_mem _ ho)]

end Less

/-! ### Names that are called -/

section Called

variable {known : String → Bool} {s rest : Text} {item : Item} {name : String}

/-- The name is known and occurs in the text. -/
def Occurs (known : String → Bool) (s : Text) (name : String) : Prop :=
  known name = true ∧ ∃ text, text <:+: s ∧ Text.toName text = name

theorem Occurs.within (h : Occurs known rest name) (hs : rest <:+: s) : Occurs known s name := by
  obtain ⟨hknown, text, htext, heq⟩ := h
  exact ⟨hknown, text, htext.trans hs, heq⟩

/-- A name is copied, or it is called, with its sigil or without. -/
theorem nameItem_cases (h : nameItem known s = some (item, rest)) :
    ∃ text, Lexeme.name? s = some (text, rest) ∧
      (item = .copy text ∨
        (item = .call [] (Text.toName text) ∧ known (Text.toName text) = true) ∨
        ∃ c bare, text = c :: bare ∧ item = .call [c] (Text.toName bare) ∧
          known (Text.toName bare) = true) := by
  obtain ⟨⟨text, rest'⟩, hname, h⟩ := Option.bind_eq_some_iff.1 h
  dsimp only at h
  split at h
  · rename_i hknown
    obtain ⟨rfl, rfl⟩ := Prod.mk.inj (Option.some.inj h)
    exact ⟨text, hname, .inr (.inl ⟨rfl, hknown⟩)⟩
  · split at h
    · exact absurd h (by simp)
    · rename_i c bare _
      split at h
      · obtain ⟨rfl, rfl⟩ := Prod.mk.inj (Option.some.inj h)
        exact ⟨c :: bare, hname, .inl rfl⟩
      · split at h
        · rename_i hknown
          obtain ⟨rfl, rfl⟩ := Prod.mk.inj (Option.some.inj h)
          exact ⟨c :: bare, hname, .inr (.inr ⟨c, bare, rfl, rfl, hknown⟩)⟩
        · exact absurd h (by simp)

theorem nameItem_occurs (h : nameItem known s = some (item, rest))
    (hcall : item.called? = some name) : Occurs known s name := by
  obtain ⟨text, hname, hcases⟩ := nameItem_cases h
  have htext : text <:+: s := ⟨[], rest, Lexeme.name?_append hname⟩
  rcases hcases with rfl | ⟨rfl, hknown⟩ | ⟨c, bare, rfl, rfl, hknown⟩
  · exact absurd hcall (by simp [Item.called?])
  · obtain rfl := Option.some.inj hcall
    exact ⟨hknown, text, htext, rfl⟩
  · obtain rfl := Option.some.inj hcall
    exact ⟨hknown, bare, (List.suffix_cons c bare).isInfix.trans htext, rfl⟩

theorem bodyItem_occurs (h : bodyItem known s = some (item, rest))
    (hcall : item.called? = some name) : Occurs known s name := by
  have hcopied {found : Option (Text × Text)}
      (h : found.map (fun found => (Item.copy found.1, found.2)) = some (item, rest)) : False := by
    obtain ⟨_, -, heq⟩ := Option.map_eq_some_iff.1 h
    obtain ⟨rfl, -⟩ := Prod.mk.inj heq
    exact absurd hcall (by simp [Item.called?])
  simp only [bodyItem, Option.or_eq_some_iff] at h
  rcases h with h | ⟨-, h | ⟨-, h | ⟨-, h | ⟨-, h⟩⟩⟩⟩
  · exact nameItem_occurs h hcall
  · exact (hcopied h).elim
  · exact (hcopied h).elim
  · obtain ⟨_, -, heq⟩ := Option.map_eq_some_iff.1 h
    obtain ⟨rfl, -⟩ := Prod.mk.inj heq
    exact absurd hcall (by simp [Item.called?])
  · unfold spellItem at h
    split at h
    · exact absurd h (by simp)
    · rename_i c r
      split at h
      · obtain ⟨⟨inner, rest'⟩, hinner, heq⟩ := Option.map_eq_some_iff.1 h
        obtain ⟨rfl, -⟩ := Prod.mk.inj heq
        have hblanks : Text.skipBlanks r <:+ c :: r :=
          (Text.skipBlanks_suffix r).trans (List.suffix_cons c r)
        rcases Option.or_eq_some_iff.1 hinner with hinner | ⟨-, hinner⟩
        · exact (nameItem_occurs hinner hcall).within hblanks.isInfix
        · obtain ⟨_, -, heq⟩ := Option.map_eq_some_iff.1 hinner
          obtain ⟨rfl, -⟩ := Prod.mk.inj heq
          exact absurd hcall (by simp [Item.called?])
      · exact absurd h (by simp)

/-- What a body calls is a known name that stands in it. -/
theorem bodyItems_occurs (hitem : item ∈ bodyItems known s) (hcall : item.called? = some name) :
    Occurs known s name := by
  fun_induction bodyItems known s with
  | case1 => exact absurd hitem List.not_mem_nil
  | case2 c r first rest hfirst ih =>
    rcases List.mem_cons.1 hitem with rfl | hitem
    · exact bodyItem_occurs hfirst hcall
    · exact (ih hitem).within (bodyItem_shorter hfirst).1.isInfix
  | case3 c r _ ih =>
    rcases List.mem_cons.1 hitem with rfl | hitem
    · exact absurd hcall (by simp [Item.called?])
    · exact (ih hitem).within (List.suffix_cons c r).isInfix

/-- A text in which no known name stands calls nothing. -/
theorem literal_of_absent (h : ∀ name, ¬ Occurs known s name) : Literal (bodyItems known s) := by
  intro item hitem
  cases hcall : item.called? with
  | none => rfl
  | some name => exact absurd (bodyItems_occurs hitem hcall) (h name)

end Called

/-! ### Texts that are written as they stand -/

section Verbatim

variable {known : String → Bool} {s rest : Text} {item : Item}

theorem nameItem_copy (h : nameItem known s = some (item, rest)) (hcall : item.called? = none) :
    ∃ name, Lexeme.name? s = some (name, rest) ∧ item = .copy name := by
  obtain ⟨name, hname, rfl | ⟨rfl, -⟩ | ⟨c, bare, -, rfl, -⟩⟩ := nameItem_cases h
  · exact ⟨name, hname, rfl⟩
  · exact absurd hcall (by simp [Item.called?])
  · exact absurd hcall (by simp [Item.called?])

/-- Only a `#` can be pasted over, or spell what is behind it. -/
theorem hash_mem_of_paste (h : pasteItem s = some (item, rest)) : hash ∈ s := by
  obtain ⟨_, hpaste, -⟩ := Option.map_eq_some_iff.1 h
  unfold Lexeme.paste? at hpaste
  split at hpaste
  · split at hpaste
    · rename_i hc
      obtain ⟨rfl, -⟩ : _ = hash ∧ _ = hash := by simpa using hc
      exact List.mem_cons_self
    · exact absurd hpaste (by simp)
  · exact absurd hpaste (by simp)

theorem hash_mem_of_spell (h : spellItem known s = some (item, rest)) : hash ∈ s := by
  unfold spellItem at h
  split at h
  · exact absurd h (by simp)
  · split at h
    · rename_i hc
      exact hc ▸ List.mem_cons_self
    · exact absurd h (by simp)

theorem bodyItem_copy (h : bodyItem known s = some (item, rest)) (hcall : item.called? = none)
    (hhash : hash ∉ s) : ∃ text, item = .copy text ∧ text ++ rest = s := by
  have hcopied {found : Option (Text × Text)}
      (h : found.map (fun found => (Item.copy found.1, found.2)) = some (item, rest))
      (happend : ∀ text, found = some (text, rest) → text ++ rest = s) :
      ∃ text, item = .copy text ∧ text ++ rest = s := by
    obtain ⟨⟨text, rest'⟩, hfound, heq⟩ := Option.map_eq_some_iff.1 h
    obtain ⟨rfl, rfl⟩ := Prod.mk.inj heq
    exact ⟨text, rfl, happend text hfound⟩
  simp only [bodyItem, Option.or_eq_some_iff] at h
  rcases h with h | ⟨-, h | ⟨-, h | ⟨-, h | ⟨-, h⟩⟩⟩⟩
  · obtain ⟨name, hname, rfl⟩ := nameItem_copy h hcall
    exact ⟨name, rfl, Lexeme.name?_append hname⟩
  · exact hcopied h fun text => Lexeme.number?_append
  · exact hcopied h fun text => Lexeme.quoted?_append
  · exact absurd (hash_mem_of_paste h) hhash
  · exact absurd (hash_mem_of_spell h) hhash

/-- **A text that calls nothing and has no `#` is written as it stands.** -/
theorem writeAll_verbatim (value : String → Buffer → Buffer) (hlit : Literal (bodyItems known s))
    (hhash : hash ∉ s) (out : Buffer) :
    Item.writeAll value (bodyItems known s) out = out.append s := by
  fun_induction bodyItems known s generalizing out with
  | case1 => rfl
  | case2 c r item rest hitem ih =>
    obtain ⟨text, rfl, hs⟩ := bodyItem_copy hitem (hlit item List.mem_cons_self) hhash
    have hothers : hash ∉ rest := fun hmem => hhash (hs ▸ List.mem_append_right text hmem)
    refine (ih (fun other ho => hlit other (List.mem_cons_of_mem _ ho)) hothers
      (out.append text)).trans (Buffer.ext_toText ?_)
    simp [← hs]
  | case3 c r hitem ih =>
    refine (ih (fun other ho => hlit other (List.mem_cons_of_mem _ ho))
      (fun hmem => hhash (List.mem_cons_of_mem c hmem)) (out.append [c])).trans
        (Buffer.ext_toText ?_)
    simp

end Verbatim

/-! ### The first call of a text -/

/-- The first call of the items, if there is one, is of that name. -/
def FirstCall (items : List Item) (name : String) : Prop :=
  ∃ before item after, items = before ++ item :: after ∧ Literal before ∧ item.called? = some name

/-- Items that are not literal have a first call. -/
theorem exists_firstCall {items : List Item} (h : ¬ Literal items) :
    ∃ name, FirstCall items name := by
  induction items with
  | nil => exact absurd (fun _ hi => absurd hi List.not_mem_nil) h
  | cons item items ih =>
    cases hcall : item.called? with
    | some name =>
      exact ⟨name, [], item, items, rfl, fun _ hi => absurd hi List.not_mem_nil, hcall⟩
    | none =>
      have hrest : ¬ Literal items := by
        intro hlit
        refine h ?_
        intro i hi
        rcases List.mem_cons.1 hi with rfl | hi
        · exact hcall
        · exact hlit i hi
      obtain ⟨name, before, first, after, hsplit, hbefore, hfirst⟩ := ih hrest
      refine ⟨name, item :: before, first, after, by rw [hsplit, List.cons_append], ?_, hfirst⟩
      intro i hi
      rcases List.mem_cons.1 hi with rfl | hi
      · exact hcall
      · exact hbefore i hi

section First

variable {known known' : String → Bool} {s rest : Text} {item : Item} {name : String}

/-- A name that is called is known, and called by whoever knows it. -/
theorem nameItem_called (known' : String → Bool) (h : nameItem known s = some (item, rest))
    (hcall : item.called? = some name) :
    known name = true ∧
      ((∀ other, known' other = true → known other = true) → known' name = true →
        nameItem known' s = some (item, rest)) := by
  obtain ⟨⟨whole, rest'⟩, hs, h⟩ := Option.bind_eq_some_iff.1 h
  rw [nameItem, hs, Option.bind_some]
  dsimp only at h ⊢
  cases hwhole : known (Text.toName whole) with
  | true =>
    rw [if_pos hwhole] at h
    obtain ⟨rfl, rfl⟩ := Prod.mk.inj (Option.some.inj h)
    obtain rfl := Option.some.inj hcall
    refine ⟨hwhole, ?_⟩
    intro _ hknown
    rw [if_pos hknown]
  | false =>
    rw [if_neg (by simp [hwhole])] at h
    cases whole with
    | nil => exact absurd h (by simp)
    | cons c bare =>
      dsimp only at h ⊢
      by_cases hc : (!isSigil c) = true
      · rw [if_pos hc] at h
        obtain ⟨rfl, -⟩ := Prod.mk.inj (Option.some.inj h)
        exact absurd hcall (by simp [Item.called?])
      · rw [if_neg hc] at h ⊢
        cases hbare : known (Text.toName bare) with
        | false =>
          rw [if_neg (by simp [hbare])] at h
          exact absurd h (by simp)
        | true =>
          rw [if_pos hbare] at h
          obtain ⟨rfl, rfl⟩ := Prod.mk.inj (Option.some.inj h)
          obtain rfl := Option.some.inj hcall
          refine ⟨hbare, ?_⟩
          intro hle hknown
          have hwhole' : ¬ known' (Text.toName (c :: bare)) = true := by
            intro hk
            exact absurd ((hle _ hk).symm.trans hwhole) (by simp)
          rw [if_neg hwhole', if_pos hknown]

theorem spellItem_called (known' : String → Bool) (h : spellItem known s = some (item, rest))
    (hcall : item.called? = some name) :
    known name = true ∧
      ((∀ other, known' other = true → known other = true) → known' name = true →
        spellItem known' s = some (item, rest)) := by
  cases s with
  | nil => exact absurd h (by simp [spellItem])
  | cons c r =>
    rw [spellItem] at h ⊢
    dsimp only at h ⊢
    by_cases hc : c = hash
    · rw [if_pos hc] at h ⊢
      obtain ⟨⟨inner, rest'⟩, hinner, heq⟩ := Option.map_eq_some_iff.1 h
      obtain ⟨rfl, rfl⟩ := Prod.mk.inj heq
      rcases Option.or_eq_some_iff.1 hinner with hn | ⟨-, hn⟩
      · obtain ⟨hknown, hmore⟩ := nameItem_called known' hn hcall
        refine ⟨hknown, ?_⟩
        intro hle hk
        rw [hmore hle hk]
        rfl
      · obtain ⟨found, -, heq⟩ := Option.map_eq_some_iff.1 hn
        obtain ⟨rfl, -⟩ := Prod.mk.inj heq
        exact absurd hcall (by simp [Item.called?])
    · rw [if_neg hc] at h
      exact absurd h (by simp)

theorem bodyItem_called (known' : String → Bool) (h : bodyItem known s = some (item, rest))
    (hcall : item.called? = some name) :
    known name = true ∧
      ((∀ other, known' other = true → known other = true) → known' name = true →
        bodyItem known' s = some (item, rest)) := by
  have hcopy : ∀ {found : Option (Text × Text)},
      found.map (fun lexeme => (Item.copy lexeme.1, lexeme.2)) ≠ some (item, rest) := by
    intro found hf
    obtain ⟨lexeme, -, heq⟩ := Option.map_eq_some_iff.1 hf
    obtain ⟨rfl, -⟩ := Prod.mk.inj heq
    exact absurd hcall (by simp [Item.called?])
  simp only [bodyItem, Option.or_eq_some_iff] at h
  rcases h with h | ⟨hname, h | ⟨hnumber, h | ⟨hquoted, h | ⟨hpaste, h⟩⟩⟩⟩
  · obtain ⟨hknown, hmore⟩ := nameItem_called known' h hcall
    refine ⟨hknown, ?_⟩
    intro hle hk
    rw [bodyItem, hmore hle hk]
    rfl
  · exact absurd h hcopy
  · exact absurd h hcopy
  · obtain ⟨after, -, heq⟩ := Option.map_eq_some_iff.1 h
    obtain ⟨rfl, -⟩ := Prod.mk.inj heq
    exact absurd hcall (by simp [Item.called?])
  · obtain ⟨hknown, hmore⟩ := spellItem_called known' h hcall
    refine ⟨hknown, ?_⟩
    intro hle hk
    have hname' : nameItem known' s = none := by
      rw [nameItem_less (fun w _ hw => hle _ hw), hname]
      intro found hf
      exact absurd (hname.symm.trans hf) (by simp)
    rw [bodyItem, hname', hnumber, hquoted, hpaste, hmore hle hk]
    rfl

/-- The first call of a text is of a name that is known, and unknown to those to whom the text
calls nothing. -/
theorem FirstCall.unknown (h : FirstCall (bodyItems known s) name)
    (hle : ∀ other, known' other = true → known other = true)
    (hlit : Literal (bodyItems known' s)) : known name = true ∧ known' name = false := by
  obtain ⟨before, item, after, hitems, hbefore, hcall⟩ := h
  fun_induction bodyItems known s generalizing before with
  | case1 => exact absurd hitems (by simp)
  | case2 c r first rest hfirst ih =>
    cases before with
    | nil =>
      obtain ⟨rfl, -⟩ := List.cons.inj hitems
      obtain ⟨hknown, hmore⟩ := bodyItem_called known' hfirst hcall
      refine ⟨hknown, Bool.eq_false_iff.2 ?_⟩
      intro hk
      rw [bodyItems_some (hmore hle hk)] at hlit
      exact absurd (hcall.symm.trans (hlit first List.mem_cons_self)) (by simp)
    | cons i before =>
      obtain ⟨rfl, htail⟩ := List.cons.inj hitems
      have hfirst' : bodyItem known' (c :: r) = some (first, rest) := by
        rw [bodyItem_less (fun w _ hk => hle _ hk), hfirst]
        intro found hf
        obtain rfl := Option.some.inj (hfirst.symm.trans hf)
        exact hbefore first List.mem_cons_self
      rw [bodyItems_some hfirst'] at hlit
      exact ih (fun other ho => hlit other (List.mem_cons_of_mem _ ho)) before htail
        (fun other ho => hbefore other (List.mem_cons_of_mem _ ho))
  | case3 c r hfirst ih =>
    cases before with
    | nil =>
      obtain ⟨rfl, -⟩ := List.cons.inj hitems
      exact absurd hcall (by simp [Item.called?])
    | cons i before =>
      obtain ⟨-, htail⟩ := List.cons.inj hitems
      have hfirst' : bodyItem known' (c :: r) = none := by
        rw [bodyItem_less (fun w _ hk => hle _ hk), hfirst]
        intro found hf
        exact absurd (hfirst.symm.trans hf) (by simp)
      rw [bodyItems_none hfirst'] at hlit
      exact ih (fun other ho => hlit other (List.mem_cons_of_mem _ ho)) before htail
        (fun other ho => hbefore other (List.mem_cons_of_mem _ ho))

end First

end AsmPrep.Expansion
