/-
Reading, apart from what is done with what was read.

At each place of a text a scanner takes one item: bytes to copy, a paste mark, a call, or
a call or number to spell.  Which item it is depends on the text and on which names mean
macros, and on nothing else.  So every scanner is the reading of an item followed by
carrying it out.
-/
import AsmPrep.Proofs.Macro.Reading

namespace AsmPrep.Expansion

open Byte

/-- What a scanner does at one place of a text. -/
inductive Item where
  | copy (text : Text)
  | paste
  /-- A call, with the sigil in front of it that is no part of its name. -/
  | call (front : Text) (name : String)
  | spell (item : Item)
  deriving DecidableEq, Repr

namespace Item

/-- The macro an item calls, if it does. -/
def called? : Item → Option String
  | copy _ | paste => none
  | call _ name => some name
  | spell item => item.called?

/-- What carrying an item out comes to, with `rest` the text after it. -/
def perform (expand : Expander) : Item → Text → State → Buffer → Text × State × Buffer
  | copy text, rest, st, out => (rest, st, out.append text)
  | paste, rest, st, out => (rest, st, out.chomp)
  | call front name, rest, st, out => (expand name rest st (out.append front)).parts
  | spell item, rest, st, out =>
    let done := item.perform expand rest st {}
    (done.1, done.2.1, out.append (spelling done.2.2.toText))

/-- What an item writes when a call does no more than writing. -/
def write (value : String → Buffer → Buffer) : Item → Buffer → Buffer
  | copy text, out => out.append text
  | paste, out => out.chomp
  | call front name, out => value name (out.append front)
  | spell item, out => out.append (spelling (item.write value {}).toText)

/-- What items write, one after the other. -/
def writeAll (value : String → Buffer → Buffer) (items : List Item) (out : Buffer) : Buffer :=
  items.foldl (fun out item => item.write value out) out

end Item

/-! ### Items of a text -/

/-- A name at the start of the text, as a call or to be copied. -/
def nameItem (known : String → Bool) (s : Text) : Option (Item × Text) :=
  (Lexeme.name? s).bind fun found =>
    if known (Text.toName found.1) then some (.call [] (Text.toName found.1), found.2)
    else match found.1 with
      | [] => none
      | c :: bare =>
        if !isSigil c then some (.copy found.1, found.2)
        else if known (Text.toName bare) then some (.call [c] (Text.toName bare), found.2)
        else none

def numberItem (s : Text) : Option (Item × Text) :=
  (Lexeme.number? s).map fun found => (.copy found.1, found.2)

def quotedItem (s : Text) : Option (Item × Text) :=
  (Lexeme.quoted? s).map fun found => (.copy found.1, found.2)

def pasteItem (s : Text) : Option (Item × Text) :=
  (Lexeme.paste? s).map fun rest => (.paste, rest)

def spellItem (known : String → Bool) (s : Text) : Option (Item × Text) :=
  match s with
  | [] => none
  | c :: r =>
    if c = hash then
      let token := Text.skipBlanks r
      ((nameItem known token).or (numberItem token)).map fun found => (.spell found.1, found.2)
    else none

def bodyItem (known : String → Bool) (s : Text) : Option (Item × Text) :=
  (nameItem known s).or <| (numberItem s).or <| (quotedItem s).or <| (pasteItem s).or <|
    spellItem known s

def argumentItem (known : String → Bool) (s : Text) : Option (Item × Text) :=
  (numberItem s).or <| (nameItem known s).or <| (quotedItem s).or <| (pasteItem s).or <|
    spellItem known s

section Shorter

variable {known : String → Bool} {s rest : Text} {item : Item}

theorem nameItem_name? (h : nameItem known s = some (item, rest)) :
    ∃ name, Lexeme.name? s = some (name, rest) := by
  obtain ⟨found, hf, h⟩ := Option.bind_eq_some_iff.1 h
  have hrest : found.2 = rest := by
    split at h
    · exact (Prod.mk.inj (Option.some.inj h)).2
    · split at h
      · exact absurd h (by simp)
      · split at h
        · exact (Prod.mk.inj (Option.some.inj h)).2
        · split at h
          · exact (Prod.mk.inj (Option.some.inj h)).2
          · exact absurd h (by simp)
  exact ⟨found.1, hrest ▸ hf⟩

theorem nameItem_shorter (h : nameItem known s = some (item, rest)) :
    rest <:+ s ∧ rest.length < s.length := by
  obtain ⟨name, hn⟩ := nameItem_name? h
  exact ⟨⟨name, Lexeme.name?_append hn⟩, Lexeme.name?_lt hn⟩

theorem numberItem_shorter (h : numberItem s = some (item, rest)) :
    rest <:+ s ∧ rest.length < s.length := by
  obtain ⟨found, hf, hr⟩ := Option.map_eq_some_iff.1 h
  obtain ⟨-, rfl⟩ := Prod.mk.inj hr
  exact ⟨⟨found.1, Lexeme.number?_append hf⟩, Lexeme.number?_lt hf⟩

theorem quotedItem_shorter (h : quotedItem s = some (item, rest)) :
    rest <:+ s ∧ rest.length < s.length := by
  obtain ⟨found, hf, hr⟩ := Option.map_eq_some_iff.1 h
  obtain ⟨-, rfl⟩ := Prod.mk.inj hr
  exact ⟨⟨found.1, Lexeme.quoted?_append hf⟩, Lexeme.quoted?_lt hf⟩

theorem pasteItem_shorter (h : pasteItem s = some (item, rest)) :
    rest <:+ s ∧ rest.length < s.length := by
  obtain ⟨found, hf, hr⟩ := Option.map_eq_some_iff.1 h
  obtain ⟨-, rfl⟩ := Prod.mk.inj hr
  exact ⟨Lexeme.paste?_suffix hf, Lexeme.paste?_lt hf⟩

theorem spellItem_shorter (h : spellItem known s = some (item, rest)) :
    rest <:+ s ∧ rest.length < s.length := by
  unfold spellItem at h
  split at h
  · exact absurd h (by simp)
  · rename_i c r
    split at h
    · obtain ⟨⟨inner, rest'⟩, hf, hr⟩ := Option.map_eq_some_iff.1 h
      obtain ⟨-, rfl⟩ := Prod.mk.inj hr
      have hshort : rest' <:+ Text.skipBlanks r ∧ rest'.length < (Text.skipBlanks r).length := by
        rcases Option.or_eq_some_iff.1 hf with hf | ⟨-, hf⟩
        · exact nameItem_shorter hf
        · exact numberItem_shorter hf
      refine ⟨(hshort.1.trans (Text.skipBlanks_suffix r)).trans (List.suffix_cons c r), ?_⟩
      exact Nat.lt_succ_of_lt (Nat.lt_of_lt_of_le hshort.2 (Text.length_skipBlanks_le r))
    · exact absurd h (by simp)

theorem bodyItem_shorter (h : bodyItem known s = some (item, rest)) :
    rest <:+ s ∧ rest.length < s.length := by
  simp only [bodyItem, Option.or_eq_some_iff] at h
  rcases h with h | ⟨-, h | ⟨-, h | ⟨-, h | ⟨-, h⟩⟩⟩⟩
  · exact nameItem_shorter h
  · exact numberItem_shorter h
  · exact quotedItem_shorter h
  · exact pasteItem_shorter h
  · exact spellItem_shorter h

theorem argumentItem_shorter (h : argumentItem known s = some (item, rest)) :
    rest <:+ s ∧ rest.length < s.length := by
  simp only [argumentItem, Option.or_eq_some_iff] at h
  rcases h with h | ⟨-, h | ⟨-, h | ⟨-, h | ⟨-, h⟩⟩⟩⟩
  · exact numberItem_shorter h
  · exact nameItem_shorter h
  · exact quotedItem_shorter h
  · exact pasteItem_shorter h
  · exact spellItem_shorter h

end Shorter

/-- The items of a body. -/
def bodyItems (known : String → Bool) (s : Text) : List Item :=
  match s with
  | [] => []
  | c :: r =>
    match _ : bodyItem known (c :: r) with
    | some (item, rest) => item :: bodyItems known rest
    | none => .copy [c] :: bodyItems known r
termination_by s.length
decreasing_by
  · exact (bodyItem_shorter (by assumption)).2
  · exact Nat.lt_succ_self _

/-- An argument as it is read: its items, what follows it, and its fault. -/
structure Reading where
  items : List Item := []
  rest : Text
  fault : Option Fault := none

def Reading.after (reading : Reading) (item : Item) : Reading :=
  { reading with items := item :: reading.items }

/-- The items of an argument up to where it ends. -/
def argumentItems (known : String → Bool) (s : Text) (depth : Nat) : Reading :=
  match s with
  | [] => { rest := [], fault := if depth = 0 then none else some .unclosedParen }
  | c :: r =>
    if Text.atEndOfStatement (c :: r) then
      { rest := c :: r, fault := if depth = 0 then none else some .unclosedParen }
    else
      match _ : argumentItem known (c :: r) with
      | some (item, rest) => (argumentItems known rest depth).after item
      | none =>
        if depth = 0 && (c = closeParen || c = comma) then { rest := c :: r }
        else (argumentItems known r (depthAfter depth c)).after (.copy [c])
termination_by s.length
decreasing_by
  · exact (argumentItem_shorter (by assumption)).2
  · exact Nat.lt_succ_self _

section Step

variable {known : String → Bool} {s rest : Text} {c : Byte} {r : Text} {item : Item} {depth : Nat}

@[simp] theorem bodyItems_nil (known : String → Bool) : bodyItems known [] = [] := by
  rw [bodyItems]

theorem bodyItems_some (h : bodyItem known s = some (item, rest)) :
    bodyItems known s = item :: bodyItems known rest := by
  obtain ⟨c, r, rfl⟩ : ∃ c r, s = c :: r :=
    List.exists_cons_of_length_pos (Nat.zero_lt_of_lt (bodyItem_shorter h).2)
  rw [bodyItems]
  split
  · rename_i h'
    obtain ⟨rfl, rfl⟩ := Prod.mk.inj (Option.some.inj (h.symm.trans h'))
    rfl
  · rename_i h'
    exact absurd (h.symm.trans h') (by simp)

theorem bodyItems_none (h : bodyItem known (c :: r) = none) :
    bodyItems known (c :: r) = .copy [c] :: bodyItems known r := by
  rw [bodyItems]
  split
  · rename_i h'
    exact absurd (h.symm.trans h') (by simp)
  · rfl

theorem argumentItems_end (h : Text.atEndOfStatement s = true) :
    argumentItems known s depth =
      { rest := s, fault := if depth = 0 then none else some .unclosedParen } := by
  cases s with
  | nil => rw [argumentItems]
  | cons c r => rw [argumentItems, if_pos h]

theorem argumentItems_some (he : Text.atEndOfStatement s = false)
    (h : argumentItem known s = some (item, rest)) :
    argumentItems known s depth = (argumentItems known rest depth).after item := by
  obtain ⟨c, r, rfl⟩ : ∃ c r, s = c :: r := by
    cases s with
    | nil => exact absurd he (by simp [Text.atEndOfStatement])
    | cons c r => exact ⟨c, r, rfl⟩
  rw [argumentItems, if_neg (by simp [he])]
  split
  · rename_i h'
    obtain ⟨rfl, rfl⟩ := Prod.mk.inj (Option.some.inj (h.symm.trans h'))
    rfl
  · rename_i h'
    exact absurd (h.symm.trans h') (by simp)

theorem argumentItems_none (he : Text.atEndOfStatement (c :: r) = false)
    (h : argumentItem known (c :: r) = none) :
    argumentItems known (c :: r) depth =
      if depth = 0 && (c = closeParen || c = comma) then { rest := c :: r }
      else (argumentItems known r (depthAfter depth c)).after (.copy [c]) := by
  rw [argumentItems, if_neg (by simp [he])]
  split
  · rename_i h'
    exact absurd (h.symm.trans h') (by simp)
  · rfl

end Step

/-! ### A scanner reads an item and carries it out -/

/-- What a scanner made of a text, apart from the text. -/
def Progress.parts {s : Text} (p : Progress s) : Text × State × Buffer := (p.rest, p.state, p.out)

section Perform

variable (expand : Expander) (s : Text) (st : State) (out : Buffer)

theorem scanCall_perform : (scanCall expand s st out).map Progress.parts =
    (nameItem st.table.contains s).map fun found => found.1.perform expand found.2 st out := by
  unfold scanCall
  split
  · rename_i h
    have hitem : nameItem st.table.contains s = none := by rw [nameItem, h, Option.bind_none]
    rw [hitem]
    rfl
  · rename_i name rest h
    simp only [nameItem, h, Option.bind_some]
    split
    · rfl
    · split
      · rfl
      · rename_i c bare _ _
        dsimp only
        by_cases hc : (!isSigil c) = true
        · rw [if_pos hc, if_pos hc]
          rfl
        · rw [if_neg hc, if_neg hc]
          split
          · rfl
          · rfl

theorem ofScan_perform (scanner : Scan)
    (lt : ∀ {s rest out out'}, scanner s out = some (rest, out') → rest.length < s.length) :
    (Progress.ofScan scanner lt s st out).map Progress.parts =
      (scanner s out).map fun found => (found.1, st, found.2) := by
  unfold Progress.ofScan
  split
  · rename_i h
    simp only [h, Option.map_none]
  · rename_i rest out' h
    simp only [h, Option.map_some]
    rfl

theorem number_perform : (Progress.number s st out).map Progress.parts =
    (numberItem s).map fun found => found.1.perform expand found.2 st out := by
  refine (ofScan_perform s st out _ _).trans ?_
  simp only [Scan.number, numberItem, Option.map_map]
  rfl

theorem quoted_perform : (Progress.quoted s st out).map Progress.parts =
    (quotedItem s).map fun found => found.1.perform expand found.2 st out := by
  refine (ofScan_perform s st out _ _).trans ?_
  simp only [Scan.quoted, quotedItem, Option.map_map]
  rfl

theorem paste_perform : (Progress.paste s st out).map Progress.parts =
    (pasteItem s).map fun found => found.1.perform expand found.2 st out := by
  refine (ofScan_perform s st out _ _).trans ?_
  simp only [Scan.paste, pasteItem, Option.map_map]
  rfl

theorem stringize_perform : (stringize expand s st out).map Progress.parts =
    (spellItem st.table.contains s).map fun found => found.1.perform expand found.2 st out := by
  cases s with
  | nil => rfl
  | cons c r =>
    rw [stringize, spellItem]
    by_cases hc : c = hash
    · rw [if_pos hc, if_pos hc]
      have hinner : ((scanCall expand (Text.skipBlanks r) st {}).or
          (Progress.number (Text.skipBlanks r) st {})).map Progress.parts =
          ((nameItem st.table.contains (Text.skipBlanks r)).or
            (numberItem (Text.skipBlanks r))).map
              fun found => found.1.perform expand found.2 st {} := by
        rw [Option.map_or, Option.map_or, scanCall_perform, number_perform expand]
      have hspelled := congrArg
        (Option.map fun done => (done.1, done.2.1, out.append (spelling done.2.2.toText))) hinner
      simp only [Option.map_map] at hspelled ⊢
      exact hspelled
    · rw [if_neg hc, if_neg hc]
      rfl

theorem bodyToken_perform : (bodyToken expand s st out).map Progress.parts =
    (bodyItem st.table.contains s).map fun found => found.1.perform expand found.2 st out := by
  simp only [bodyToken, bodyItem, Option.map_or, scanCall_perform, stringize_perform,
    number_perform expand, quoted_perform expand,
    paste_perform expand]

theorem argumentToken_perform : (argumentToken expand s st out).map Progress.parts =
    (argumentItem st.table.contains s).map fun found => found.1.perform expand found.2 st out := by
  simp only [argumentToken, argumentItem, Option.map_or, scanCall_perform, stringize_perform,
    number_perform expand, quoted_perform expand,
    paste_perform expand]

end Perform

section Found

variable {expand : Expander} {s : Text} {st : State} {out : Buffer}

theorem bodyItem_of_some {p : Progress s} (h : bodyToken expand s st out = some p) :
    ∃ item rest, bodyItem st.table.contains s = some (item, rest) ∧
      item.perform expand rest st out = p.parts := by
  have hmap := bodyToken_perform expand s st out
  rw [h, Option.map_some] at hmap
  obtain ⟨⟨item, rest⟩, hitem, hp⟩ := Option.map_eq_some_iff.1 hmap.symm
  exact ⟨item, rest, hitem, hp⟩

theorem bodyItem_of_none (h : bodyToken expand s st out = none) :
    bodyItem st.table.contains s = none := by
  have hmap := bodyToken_perform expand s st out
  rw [h, Option.map_none] at hmap
  exact Option.map_eq_none_iff.1 hmap.symm

theorem argumentItem_of_some {p : Progress s} (h : argumentToken expand s st out = some p) :
    ∃ item rest, argumentItem st.table.contains s = some (item, rest) ∧
      item.perform expand rest st out = p.parts := by
  have hmap := argumentToken_perform expand s st out
  rw [h, Option.map_some] at hmap
  obtain ⟨⟨item, rest⟩, hitem, hp⟩ := Option.map_eq_some_iff.1 hmap.symm
  exact ⟨item, rest, hitem, hp⟩

theorem argumentItem_of_none (h : argumentToken expand s st out = none) :
    argumentItem st.table.contains s = none := by
  have hmap := argumentToken_perform expand s st out
  rw [h, Option.map_none] at hmap
  exact Option.map_eq_none_iff.1 hmap.symm

end Found

end AsmPrep.Expansion
