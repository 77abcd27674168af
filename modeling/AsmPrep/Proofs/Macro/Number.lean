/-
Numbers, where names are looked for.

A number may begin with a sigil, and what is behind the sigil may look like a name: `$FF` does, in
hexadecimal.  Arguments and lines look for numbers before names.  Bodies, and the sign that spells
what is behind it, look for names first.  They find the number all the same, as long as neither it
nor what is behind its first byte is a name that means something.

So a number comes through a call unchanged: it is taken as an argument, bound, and copied where
the body has the parameter.  Where the body spells the parameter it comes out in quotes, and as no
byte of a number is one, nothing in it is escaped.
-/
import AsmPrep.Proofs.Macro.Call

namespace AsmPrep.Expansion

open Byte Text

variable {known : String → Bool} {inParens : Bool} {number tail blanks : Text}

/-- Neither the number nor what is behind its first byte is a known name. -/
structure Nameless (known : String → Bool) (number : Text) : Prop where
  whole : known (toName number) = false
  bare : known (toName number.tail) = false

/-! ### A number as an item -/

section Number

variable (hnumber : Lexeme.number? number = some (number, []))
include hnumber

theorem number_head : ∃ c digits, number = c :: digits ∧ isWordByte c = true := by
  have hbytes := Lexeme.number?_bytes hnumber
  obtain ⟨c, digits, rfl, -⟩ := Lexeme.number?_cons hnumber
  exact ⟨c, digits, rfl, hbytes c List.mem_cons_self⟩

theorem numberItem_number (htail : Delimited tail) :
    numberItem (number ++ tail) = some (.copy number, tail) := by
  obtain ⟨c, digits, hcons, -⟩ := number_head hnumber
  have hne : number ≠ [] := hcons ▸ List.cons_ne_nil c digits
  rw [numberItem, Lexeme.number?_tail htail hne, hnumber]
  rfl

/-- A number is no name, and none with a sigil before it. -/
theorem nameItem_number (hnone : Nameless known number) (htail : Delimited tail) :
    nameItem known (number ++ tail) = none := by
  obtain ⟨c, digits, rfl, hc, hdigits⟩ := Lexeme.number?_cons hnumber
  refine nameItem_none ?_ ?_
  · refine Lexeme.identifier?_none (Bool.eq_false_iff.2 fun hstart => ?_) _
    obtain ⟨hdigit, hsigil⟩ := not_number_of_isIdentStart hstart
    rcases hc with hc | hc
    · exact absurd (hdigit.symm.trans hc) Bool.false_ne_true
    · exact absurd (hsigil.symm.trans hc) Bool.false_ne_true
  · intro _ text rest hfound
    have htext : text = digits := by
      rw [Lexeme.identifier?_takeWhile hfound]
      exact (takeWhile_tail htail digits).trans (List.takeWhile_eq_self_iff.2 hdigits)
    subst htext
    exact ⟨hnone.whole, hnone.bare⟩

/-- A body that is a number copies it. -/
theorem bodyItems_number (hnone : Nameless known number) :
    bodyItems known number = [.copy number] := by
  have hname := nameItem_number hnumber hnone delimited_nil
  have hcopy := numberItem_number hnumber delimited_nil
  rw [List.append_nil] at hname hcopy
  have hitem : bodyItem known number = some (.copy number, []) := by
    rw [bodyItem, hname, hcopy]
    rfl
  rw [bodyItems_some hitem, bodyItems_nil]

theorem skipBlanks_number (s : Text) : skipBlanks (number ++ s) = number ++ s := by
  obtain ⟨c, digits, rfl, hc⟩ := number_head hnumber
  refine skipBlanks_eq_self fun d hd => ?_
  obtain rfl := Option.some.inj hd
  rw [isBlank, not_space_of_isWordByte hc, Bool.and_false]

theorem chomp_number : chomp number = number := by
  refine List.rdropWhile_eq_self_iff.2 fun hne => ?_
  have hlast := Lexeme.number?_bytes hnumber _ (List.getLast_mem hne)
  simp [not_space_of_isWordByte hlast]

/-- An argument that is a number gives it. -/
theorem number_taken : Taken known inParens number number := by
  intro tail htail
  obtain ⟨c, digits, hcons, hc⟩ := number_head hnumber
  have hne (d : Byte) (hd : isWordByte d = false) : c ≠ d := ne_of_class hc hd
  have hend : atEndOfStatement (number ++ tail) = false := by
    simp [hcons, atEndOfStatement, hne semicolon (by decide), hne newline (by decide)]
  have hempty : ¬ isEmptyArgument inParens (number ++ tail) = true := by
    rw [isEmptyArgument, hend]
    simp [hcons, hne comma (by decide), hne closeParen (by decide)]
  have hitem : argumentItem known (number ++ tail) = some (.copy number, tail) := by
    rw [argumentItem, numberItem_number hnumber (delimited_of_ends htail)]
    rfl
  have hreading : argumentReading known inParens (number ++ tail) =
      { items := [.copy number], rest := tail } := by
    have hitems : argumentItems known (number ++ tail) 0 = _ := argumentItems_some hend hitem
    rw [argumentItems_ended known htail] at hitems
    unfold argumentReading
    rw [if_neg hempty]
    rw [hcons] at hitems ⊢
    exact (if_neg (hne openAngle (by decide))).trans hitems
  rw [skipBlanks_number hnumber, hreading]
  refine ⟨List.forall_mem_singleton.2 rfl, ?_, skipBlanks_of_ends htail, rfl⟩
  simp [Reading.text, Item.writeAll, Item.write, chomp_number hnumber]

/-! ### The spelling of a number -/

/-- There is no quote in a number. -/
theorem spelling_number : spelling number = doubleQuote :: (number ++ [doubleQuote]) := by
  have hquote : ∀ c ∈ number, c ≠ doubleQuote :=
    fun c hc => ne_of_class (Lexeme.number?_bytes hnumber c hc) (by decide)
  have hkept : number.flatMap (fun c => if c = doubleQuote then [backslash, c] else [c]) =
      number :=
    (List.flatMap_congr fun c hc => if_neg (hquote c hc)).trans (List.flatMap_singleton' number)
  rw [spelling, hkept, List.cons_append]

theorem spellItem_number (hnone : Nameless known number) (htail : Delimited tail)
    (hblanks : ∀ c ∈ blanks, isBlank c = true) :
    spellItem known (hash :: (blanks ++ (number ++ tail))) =
      some (.spell (.copy number), tail) := by
  have hskip : skipBlanks (blanks ++ (number ++ tail)) = number ++ tail :=
    (skipBlanks_blanks hblanks _).trans (skipBlanks_number hnumber tail)
  rw [spellItem, if_pos rfl, hskip]
  dsimp only
  rw [nameItem_number hnumber hnone htail, numberItem_number hnumber htail]
  rfl

end Number

/-! ### The sign that spells -/

/-- Behind a `#` and blanks there is nothing for any other scanner. -/
theorem items_hash (hblanks : ∀ c ∈ blanks, isBlank c = true) (hne : blanks ≠ []) (s : Text) :
    bodyItem known (hash :: (blanks ++ s)) = spellItem known (hash :: (blanks ++ s)) ∧
      argumentItem known (hash :: (blanks ++ s)) = spellItem known (hash :: (blanks ++ s)) := by
  obtain ⟨c, blanks, rfl⟩ := List.exists_cons_of_ne_nil hne
  have hcases := isBlank_cases (hblanks c List.mem_cons_self)
  rw [List.cons_append]
  have hname : nameItem known (hash :: c :: (blanks ++ s)) = none := by
    rcases hcases with rfl | rfl | rfl | rfl <;> rfl
  have hnumber : numberItem (hash :: c :: (blanks ++ s)) = none := by
    rcases hcases with rfl | rfl | rfl | rfl <;> rfl
  have hpaste : pasteItem (hash :: c :: (blanks ++ s)) = none := by
    rcases hcases with rfl | rfl | rfl | rfl <;> rfl
  have hquoted : quotedItem (hash :: c :: (blanks ++ s)) = none := rfl
  rw [bodyItem, argumentItem, hname, hnumber, hquoted, hpaste]
  exact ⟨rfl, rfl⟩

/-- It spells the name behind it, where that means a macro. -/
theorem spellItem_known {x : Text} (hblanks : ∀ c ∈ blanks, isBlank c = true)
    (hname : Lexeme.name? x = some (x, [])) (hknown : known (toName x) = true) :
    spellItem known (hash :: (blanks ++ x)) = some (.spell (.call [] (toName x)), []) := by
  have hcall := nameItem_known hname delimited_nil hknown
  have hskip := (skipBlanks_blanks hblanks _).trans (Lexeme.skipBlanks_name hname [])
  rw [List.append_nil] at hcall hskip
  rw [spellItem, if_pos rfl, hskip]
  dsimp only
  rw [hcall]
  rfl

/-- **A call whose body spells its parameter gives a number in quotes.** -/
theorem scanCall_spells {budget : Nat} {name gap x : Text} {m : Macro} (st : State) (out : Buffer)
    (after : Text) (hname : Lexeme.name? name = some (name, []))
    (hm : st.table.lookup (toName name) = some m) (hx : m.expanding = false)
    (hparams : m.params = [toName x]) (hbody : m.body = hash :: (blanks ++ x))
    (hparam : Lexeme.name? x = some (x, [])) (hblanks : ∀ c ∈ blanks, isBlank c = true)
    (hne : blanks ≠ []) (hnumber : Lexeme.number? number = some (number, []))
    (hnone : Nameless (inBody st.table m) number) (hgap : ∀ c ∈ gap, isBlank c = true)
    (hbudget : st.table.weight ≤ budget) :
    ∃ p, scanCall (expand budget) (name ++ (gap ++ openParen :: (number ++ closeParen :: after)))
        st out = some p ∧
      p.rest = after ∧ p.state.faults = st.faults ∧ p.state.table = st.table ∧
      p.out.toText = out.toText ++ doubleQuote :: (number ++ [doubleQuote]) := by
  have hjoined : openParen :: (number ++ closeParen :: after) = called true id [number] after := by
    simp [called, behindList, joined]
  rw [hjoined]
  have hitems : bodyItems (inBody st.table m) m.body = [.spell (.call [] (toName x))] := by
    have hknown : inBody st.table m (toName x) = true := by simp [inBody, hparams]
    have hspell := spellItem_known hblanks hparam hknown
    rw [hbody, bodyItems_some ((items_hash hblanks hne x).1.trans hspell), bodyItems_nil]
  have hbound : (m.params.zip ([number].map id)).lookup (toName x) = some number := by
    simp [hparams]
  have hliteral : Literal (bodyItems (inBody st.table m) number) := by
    rw [bodyItems_number hnumber hnone]
    exact List.forall_mem_singleton.2 rfl
  obtain ⟨p, hp, hrest, hfaults, htable, hout⟩ :=
    scanCall_item true after id id [number] budget st out hname hm hx (by simp) (by simp [hparams])
      (List.forall_mem_singleton.2 (number_taken hnumber)) hgap
      (fun _ => delimited_parens _ _ _) bareList_parens hbudget
      hitems rfl hbound hliteral
  refine ⟨p, hp, hrest, hfaults, htable, ?_⟩
  have hvalue : paramValue (m.params.zip ([number].map id)) (toName x) {} =
      ({} : Buffer).append number := by
    rw [paramValue, hbound]
    dsimp only
    rw [bodyItems_number hnumber ⟨rfl, rfl⟩]
    rfl
  rw [hout]
  show (out.append (spelling (paramValue _ (toName x) {}).toText)).toText = _
  rw [hvalue, Buffer.toText_append, Buffer.toText_append, Buffer.toText_empty, List.nil_append,
    spelling_number hnumber]

end AsmPrep.Expansion
