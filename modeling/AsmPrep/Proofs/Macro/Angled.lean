/-
Arguments in angle brackets.

What stands between the brackets is taken as it is.  The bytes that mean something to every other
argument mean nothing there: no comma or parenthesis ends it, no semicolon starts a comment and
no quote opens a string.  Only `>`, a backslash and the line end do not stand for themselves.

So such an argument is bound to its text in either list and at every place, up to the white
space at its end, which is taken off every argument.  The brackets are gone by then: where the
body has the parameter its text is scanned like any other, and comes out unchanged as long as it
calls nothing and has no `#`.
-/
import AsmPrep.Proofs.Macro.ArgumentList

namespace AsmPrep

open Byte

/-- A text that stands for itself between angle brackets. -/
def Verbatim (text : Text) : Prop := ∀ c ∈ text, c ≠ closeAngle ∧ c ≠ backslash ∧ c ≠ newline

instance (text : Text) : Decidable (Verbatim text) :=
  List.decidableBAll (fun c => c ≠ closeAngle ∧ c ≠ backslash ∧ c ≠ newline) text

theorem Lexeme.angleText_verbatim {text : Text} (h : Verbatim text) (rest : Text) :
    angleText (text ++ closeAngle :: rest) = (text, closeAngle :: rest) := by
  induction text with
  | nil => cases rest <;> rfl
  | cons c text ih =>
    obtain ⟨hclose, hbackslash, hnewline⟩ := h c List.mem_cons_self
    have hothers := ih fun d hd => h d (List.mem_cons_of_mem c hd)
    obtain ⟨d, r, hcons⟩ : ∃ d r, text ++ closeAngle :: rest = d :: r :=
      List.exists_cons_of_ne_nil (by simp)
    rw [hcons] at hothers
    rw [List.cons_append, hcons, angleText, if_neg (by simp [hclose, hnewline]),
      if_neg (by simp [hbackslash]), hothers]
    rfl

namespace Expansion

open Text

variable {known : String → Bool} {inParens : Bool} {text : Text}

/-- The text in angle brackets. -/
def angled (text : Text) : Text := openAngle :: (text ++ [closeAngle])

theorem skipBlanks_angled (text s : Text) : skipBlanks (angled text ++ s) = angled text ++ s :=
  rfl

/-- **An argument in angle brackets gives what is between them.** -/
theorem angled_taken (h : Verbatim text) : Taken known inParens (angled text) (chomp text) := by
  intro tail htail
  have hempty : ¬ isEmptyArgument inParens (openAngle :: (text ++ [closeAngle] ++ tail)) := by
    simp [isEmptyArgument, atEndOfStatement, openAngle, comma, closeParen, semicolon, newline]
  have hreading : argumentReading known inParens (angled text ++ tail) =
      { items := [.copy text], rest := tail } := by
    rw [angled, List.cons_append, argumentReading, if_neg hempty, if_pos rfl,
      List.append_assoc, angleReading, List.singleton_append, Lexeme.angleText_verbatim h]
    rfl
  rw [skipBlanks_angled, hreading]
  refine ⟨List.forall_mem_singleton.2 rfl, ?_, skipBlanks_of_ends htail, rfl⟩
  simp [Reading.text, Item.writeAll, Item.write]

theorem angled_start {texts : List Text} (hne : texts ≠ []) (tail : Text) :
    Delimited (called inParens angled texts tail) := by
  obtain ⟨text, others, rfl⟩ := List.exists_cons_of_ne_nil hne
  cases inParens with
  | true => exact delimited_parens _ _ _
  | false =>
    show Delimited (joined angled (text :: others) _)
    rw [joined_cons]
    exact delimited_cons.2 (by decide)

/-- **Text in angle brackets is verbatim.**  In either list every parameter is bound to the text
in the brackets that stand in its place, less the white space at its end, and nothing is reported
before the body is scanned.  If the body is one of the parameters, its text is what the call
gives, as long as it has no `#` and calls nothing, and so whenever no name of a macro or of a
parameter stands in it. -/
theorem scanCall_angled {budget : Nat} {name blanks tail : Text} {m : Macro} {texts : List Text}
    (st : State) (out : Buffer) (hname : Lexeme.name? name = some (name, []))
    (hm : st.table.lookup (toName name) = some m) (hx : m.expanding = false)
    (hne : m.params ≠ []) (hdistinct : m.params.Nodup) (hlength : texts.length = m.params.length)
    (hverbatim : ∀ text ∈ texts, Verbatim text) (hblanks : ∀ c ∈ blanks, isBlank c = true)
    (htail : inParens = false → atEndOfStatement tail = true)
    (hbudget : st.table.weight ≤ budget + 1) :
    ∃ p bound, scanCall (expand (budget + 1))
        (name ++ (blanks ++ called inParens angled texts tail)) st out = some p ∧
      p.rest = tail ∧
      p.state = (rescan (expand budget) m.body bound out).1.leave (toName name) ∧
      p.out = (rescan (expand budget) m.body bound out).2 ∧
      bound.faults = st.faults ∧
      (∀ param text, (param, text) ∈ m.params.zip texts →
        bound.table.lookup param = some { body := chomp text }) ∧
      ∀ text, (toName m.body, text) ∈ m.params.zip texts →
        Lexeme.name? m.body = some (m.body, []) → hash ∉ text →
        (Literal (bodyItems (inBody st.table m) (chomp text)) ∨
          ∀ other, ¬ Occurs (inBody st.table m) text other) →
        p.state.faults = st.faults ∧ p.state.table = st.table ∧
          p.out.toText = out.toText ++ chomp text := by
  have htextsne : texts ≠ [] := by
    rw [← List.length_pos_iff, hlength, List.length_pos_iff]
    exact hne
  have htaken : ∀ text ∈ texts, Taken (inBody st.table m) inParens (angled text) (chomp text) :=
    fun text htext => angled_taken (hverbatim text htext)
  have hbare : inParens = false → BareList angled texts tail := by
    refine fun hform => ⟨htail hform, fun text _ hopen => ?_⟩
    exact absurd (Option.some.inj hopen) (by decide)
  have hbound : ∀ param text, (param, text) ∈ m.params.zip texts →
      (m.params.zip (texts.map chomp)).lookup param = some (chomp text) := by
    intro param text hmem
    refine lookup_zip_of_mem hdistinct ?_
    rw [List.zip_map_right]
    exact List.mem_map.2 ⟨(param, text), hmem, rfl⟩
  have hstart : blanks = [] → Delimited (called inParens angled texts tail) :=
    fun _ => angled_start htextsne tail
  obtain ⟨p, hp, hrest, hstate, hout⟩ :=
    scanCall_called inParens tail angled chomp texts budget st out hname hm hx htextsne hlength
      htaken hblanks hstart hbare
  refine ⟨p, _, hp, hrest, hstate, hout, State.faults_bindAll _ _, ?_, ?_⟩
  · intro param text hmem
    rw [State.table_bindAll, MacroTable.lookup_bindAll, hbound param text hmem]
    exact if_neg (by simp [State.enter, MacroTable.pushScope, Scope.contains, Scope.find?])
  · intro text hmem hbody hhash hcalls
    have hfront : chomp text <+: text := List.rdropWhile_prefix _ _
    have hlit : Literal (bodyItems (inBody st.table m) (chomp text)) :=
      hcalls.elim id fun habsent =>
        literal_of_absent fun other hin => habsent other (hin.within hfront.isInfix)
    have hparam : toName m.body ∈ m.params := (List.of_mem_zip hmem).1
    have hitems : bodyItems (inBody st.table m) m.body = [.call [] (toName m.body)] := by
      have hknown : inBody st.table m (toName m.body) = true := by
        simp [inBody, hparam]
      simpa using bodyItems_known hbody delimited_nil hknown
    have hlookup := hbound _ _ hmem
    obtain ⟨q, hq, -, hfaults, htable, hwritten⟩ := scanCall_item inParens tail angled chomp texts
      (budget + 1) st out hname hm hx htextsne hlength htaken hblanks hstart hbare hbudget hitems
      rfl hlookup hlit
    obtain rfl := Option.some.inj (hp.symm.trans hq)
    have hchomp : hash ∉ chomp text := fun hin => hhash (hfront.subset hin)
    refine ⟨hfaults, htable, ?_⟩
    rw [hwritten, Item.write, paramValue_verbatim hlookup hlit hchomp]
    simp

/-- A macro with two parameters that gives the second. -/
def second : Macro := { params := ["a", "b"], body := ofString "b" }

/-- A bare list: neither the semicolon and the parenthesis in the first argument nor the quote
and the comma in the second mean anything. -/
theorem scanCall_angled_second :
    ∃ p, scanCall (expand 3) (ofString "M <1;(>,<it's,) >;c")
        { table := { innermost := [("M", second)] } } {} = some p ∧
      p.rest = ofString ";c" ∧ p.state.faults = [] ∧ p.out.toText = ofString "it's,)" := by
  let table : MacroTable := { innermost := [("M", second)] }
  have hname : Lexeme.name? (ofString "M") = some (ofString "M", []) := by decide +kernel
  have hm : table.lookup (toName (ofString "M")) = some second := by decide +kernel
  have hverbatim : ∀ text ∈ [ofString "1;(", ofString "it's,) "], Verbatim text := by
    decide +kernel
  have hblanks : ∀ c ∈ [space], isBlank c = true := List.forall_mem_singleton.2 rfl
  have htail : false = false → atEndOfStatement (ofString ";c") = true := fun _ => rfl
  have hweight : table.weight ≤ 3 := by decide
  obtain ⟨p, bound, hp, hrest, -, -, -, -, hwhole⟩ :=
    scanCall_angled { table } {} hname hm rfl (by decide) (by decide) rfl hverbatim hblanks htail
      hweight
  obtain ⟨hfaults, -, hout⟩ := hwhole (ofString "it's,) ") (by decide +kernel) (by decide +kernel)
    (by decide +kernel) (.inl (by decide +kernel))
  refine ⟨p, hp, hrest, hfaults, hout.trans ?_⟩
  decide +kernel

end Expansion

end AsmPrep
