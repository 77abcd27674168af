/-
Parameters that are pasted together.

A body that is a chain of parameters with a paste mark between any two gives the arguments with
nothing in between.  The marks do it on both sides.  What is behind a mark is skipped before the
next parameter is read; what is before it has been written already, and is taken off the output
again, up to the first byte that is no white space.

The output may have white space at its end when the call begins, and that has to stay.  It is out
of reach because an argument is written before the first mark is met, and ends in a byte that is
no white space.  That an argument does is the invariant of the chain; it fails for an empty one.
-/
import AsmPrep.Proofs.Macro.Call

namespace AsmPrep

open Byte

/-! ### White space that is taken off -/

namespace Text

variable {s t : Text}

/-- The text is not empty and does not end in white space. -/
def Firm (s : Text) : Prop := ∃ c ∈ s.getLast?, isSpace c = false

theorem Firm.append (h : Firm t) (s : Text) : Firm (s ++ t) := by
  obtain ⟨c, hlast, hc⟩ := h
  refine ⟨c, ?_, hc⟩
  rw [List.getLast?_append, hlast]
  rfl

theorem Firm.chomp (h : Firm s) : s.chomp = s := by
  obtain ⟨c, hlast, hc⟩ := h
  obtain ⟨front, rfl⟩ := List.getLast?_eq_some_iff.1 hlast
  exact List.rdropWhile_concat_neg isSpace front c (by simp [hc])

/-- What is left when the white space at the end is taken off does not end in any. -/
theorem firm_chomp (h : s.chomp ≠ []) : Firm s.chomp := by
  refine ⟨s.chomp.getLast h, List.getLast?_eq_some_getLast h, ?_⟩
  exact Bool.eq_false_iff.2 (List.rdropWhile_last_not isSpace s h)

/-- White space behind a text is taken off before anything of the text. -/
theorem Firm.chomp_append (h : Firm s) (ht : ∀ c ∈ t, isSpace c = true) : (s ++ t).chomp = s := by
  induction t using List.reverseRecOn with
  | nil => rw [List.append_nil, h.chomp]
  | append_singleton t c ih =>
    rw [← List.append_assoc]
    refine (List.rdropWhile_concat_pos isSpace (s ++ t) c (ht c (by simp))).trans ?_
    exact ih fun d hd => ht d (List.mem_append_left _ hd)

end Text

namespace Expansion

open Text

variable {known : String → Bool} {s blanks : Text}

/-! ### The items of a chain -/

theorem bodyItems_blanks (h : ∀ c ∈ blanks, isBlank c = true) :
    bodyItems known (blanks ++ s) = blanks.map (fun c => .copy [c]) ++ bodyItems known s := by
  induction blanks with
  | nil => rfl
  | cons c blanks ih =>
    have hplain : isPlain c = true := isPlain_of_isBlank (h c List.mem_cons_self)
    rw [List.cons_append, bodyItems_none (not_taken_of_isPlain known hplain _).1,
      ih fun d hd => h d (List.mem_cons_of_mem c hd)]
    rfl

/-- Two marks are no name and no number: they paste. -/
theorem bodyItem_paste (s : Text) :
    bodyItem known (hash :: hash :: s) = some (.paste, skipBlanks s) := by
  have hname : nameItem known (hash :: hash :: s) = none := rfl
  have hnumber : numberItem (hash :: hash :: s) = none := rfl
  have hquoted : quotedItem (hash :: hash :: s) = none := rfl
  rw [bodyItem, hname, hnumber, hquoted]
  rfl

/-- A parameter with the paste mark before it, and the blanks around that. -/
structure Pasted where
  before : Text
  behind : Text
  name : Text

namespace Pasted

def text (p : Pasted) : Text := p.before ++ (hash :: hash :: (p.behind ++ p.name))

structure Fits (p : Pasted) : Prop where
  before : ∀ c ∈ p.before, isBlank c = true
  behind : ∀ c ∈ p.behind, isBlank c = true
  name : Lexeme.name? p.name = some (p.name, [])

/-- The blanks before the mark are copied first. -/
def items (p : Pasted) : List Item :=
  p.before.map (fun c => .copy [c]) ++ [.paste, .call [] (toName p.name)]

end Pasted

/-- The names of a chain. -/
def chainNames (first : Text) (others : List Pasted) : List String :=
  toName first :: others.map fun p => toName p.name

/-- The first name, and the others pasted to it. -/
def chain (first : Text) (others : List Pasted) : Text := first ++ others.flatMap Pasted.text

section Chain

variable {first : Text} {others : List Pasted}

theorem delimited_pasted (h : ∀ p ∈ others, p.Fits) : Delimited (others.flatMap Pasted.text) := by
  cases others with
  | nil => exact delimited_nil
  | cons p others =>
    rw [List.flatMap_cons, Pasted.text, List.append_assoc]
    exact delimited_of_blanks (h p List.mem_cons_self).before
      fun _ => delimited_cons.2 (by decide)

theorem bodyItems_pasted (h : ∀ p ∈ others, p.Fits)
    (hknown : ∀ p ∈ others, known (toName p.name) = true) :
    bodyItems known (others.flatMap Pasted.text) = others.flatMap Pasted.items := by
  induction others with
  | nil => exact bodyItems_nil known
  | cons p others ih =>
    rw [List.forall_mem_cons] at h hknown
    obtain ⟨hbefore, hbehind, hname⟩ := h.1
    have hskip : skipBlanks (p.behind ++ (p.name ++ others.flatMap Pasted.text)) =
        p.name ++ others.flatMap Pasted.text :=
      (skipBlanks_blanks hbehind _).trans (Lexeme.skipBlanks_name hname _)
    have hpaste : bodyItems known
        (hash :: hash :: (p.behind ++ (p.name ++ others.flatMap Pasted.text))) =
          .paste :: bodyItems known (p.name ++ others.flatMap Pasted.text) := by
      rw [bodyItems_some (bodyItem_paste _), hskip]
    rw [List.flatMap_cons, List.flatMap_cons, Pasted.text, List.append_assoc, List.cons_append,
      List.cons_append, List.append_assoc, bodyItems_blanks hbefore, hpaste,
      bodyItems_known hname (delimited_pasted h.2) hknown.1, ih h.2 hknown.2, Pasted.items]
    simp

/-- A chain of known names is read as calls with paste marks in between. -/
theorem bodyItems_chain (hfirst : Lexeme.name? first = some (first, []))
    (h : ∀ p ∈ others, p.Fits) (hknown : ∀ name ∈ chainNames first others, known name = true) :
    bodyItems known (chain first others) =
      .call [] (toName first) :: others.flatMap Pasted.items := by
  have hothers : ∀ p ∈ others, known (toName p.name) = true := by
    intro p hp
    exact hknown _ (List.mem_cons_of_mem _ (List.mem_map.2 ⟨p, hp, rfl⟩))
  rw [chain, bodyItems_known hfirst (delimited_pasted h) (hknown _ List.mem_cons_self),
    bodyItems_pasted h hothers]

theorem called_chain {item : Item} {param : String}
    (hitem : item ∈ .call [] (toName first) :: others.flatMap Pasted.items)
    (hcall : item.called? = some param) : param ∈ chainNames first others := by
  rcases List.mem_cons.1 hitem with rfl | hitem
  · exact Option.some.inj hcall ▸ List.mem_cons_self
  · obtain ⟨p, hp, hitem⟩ := List.mem_flatMap.1 hitem
    rcases List.mem_append.1 hitem with hblank | hmark
    · obtain ⟨c, -, rfl⟩ := List.mem_map.1 hblank
      exact absurd hcall (by simp [Item.called?])
    · rcases List.mem_pair.1 hmark with rfl | rfl
      · exact absurd hcall (by simp [Item.called?])
      · obtain rfl := Option.some.inj hcall
        exact List.mem_cons_of_mem _ (List.mem_map.2 ⟨p, hp, rfl⟩)

/-! ### What a chain writes -/

variable {value : String → Buffer → Buffer} {bound : String → Text}

theorem writeAll_append (items others : List Item) (out : Buffer) :
    Item.writeAll value (items ++ others) out =
      Item.writeAll value others (Item.writeAll value items out) :=
  List.foldl_append

theorem writeAll_blanks (out : Buffer) :
    Item.writeAll value (blanks.map fun c => .copy [c]) out = out.append blanks := by
  induction blanks generalizing out with
  | nil => rfl
  | cons c blanks ih =>
    refine (ih (out.append [c])).trans (Buffer.ext_toText ?_)
    simp

/-- A pasted parameter follows a firm output directly. -/
theorem writeAll_pasted {p : Pasted} (h : p.Fits) {out : Buffer} (hout : Firm out.toText)
    (hvalue : ∀ out, value (toName p.name) out = out.append (bound (toName p.name))) :
    (Item.writeAll value p.items out).toText = out.toText ++ bound (toName p.name) := by
  have hspace : ∀ c ∈ p.before, isSpace c = true :=
    fun c hc => (Bool.and_eq_true_iff.1 (h.before c hc)).2
  rw [Pasted.items, writeAll_append, writeAll_blanks]
  show (value (toName p.name) ((out.append p.before).chomp.append [])).toText = _
  rw [hvalue]
  simp [hout.chomp_append hspace]

variable (bound) (hothers : ∀ p ∈ others, p.Fits)
  (hvalue : ∀ name ∈ chainNames first others, ∀ out, value name out = out.append (bound name))
  (hfirm : ∀ name ∈ chainNames first others, Firm (bound name))
include hothers hvalue hfirm

/-- **A chain writes its texts with nothing in between**, behind any output. -/
theorem writeAll_chain (out : Buffer) :
    (Item.writeAll value (.call [] (toName first) :: others.flatMap Pasted.items) out).toText =
      out.toText ++ ((chainNames first others).map bound).flatten := by
  rw [chainNames, List.forall_mem_cons] at hvalue hfirm
  have hstart : (value (toName first) (out.append [])).toText =
      out.toText ++ bound (toName first) := by
    rw [hvalue.1]
    simp
  have hout : Firm (value (toName first) (out.append [])).toText := hstart ▸ hfirm.1.append _
  show (Item.writeAll value _ (value (toName first) (out.append []))).toText = _
  rw [chainNames, List.map_cons, List.flatten_cons, ← List.append_assoc, ← hstart]
  generalize value (toName first) (out.append []) = out at hout
  have hvalues := hvalue.2
  have hfirms := hfirm.2
  clear hvalue hfirm hstart
  -- What every link keeps is that the output is firm.
  induction others generalizing out with
  | nil => simp [Item.writeAll]
  | cons p others ih =>
    rw [List.map_cons, List.forall_mem_cons] at hvalues hfirms
    rw [List.forall_mem_cons] at hothers
    have hlink := writeAll_pasted hothers.1 hout hvalues.1
    rw [List.flatMap_cons, writeAll_append, ih hothers.2 _ (hlink ▸ hfirms.1.append _) hvalues.2
      hfirms.2, hlink]
    simp

end Chain

/-! ### The call -/

/-- The texts of the parameters, in order. -/
theorem map_lookup_zip {params : List String} {texts : List Text} (hdistinct : params.Nodup)
    (hlength : texts.length = params.length) :
    (params.map fun param => ((params.zip texts).lookup param).getD []) = texts := by
  have hfst : (params.zip texts).map Prod.fst = params := List.map_fst_zip hlength.ge
  have hsnd : (params.zip texts).map Prod.snd = texts := List.map_snd_zip hlength.le
  have hmap : (((params.zip texts).map Prod.fst).map fun param =>
      ((params.zip texts).lookup param).getD []) = (params.zip texts).map Prod.snd := by
    rw [List.map_map]
    refine List.map_congr_left ?_
    rintro ⟨param, text⟩ hmem
    show ((params.zip texts).lookup param).getD [] = text
    rw [lookup_zip_of_mem hdistinct hmem]
    rfl
  rwa [hfst, hsnd] at hmap

/-- **Pasting joins the arguments of a call.**  Whatever the output held before, the call adds
its arguments without the white space around them, one directly behind the other, and reports
nothing. -/
theorem scanCall_pastes {budget : Nat} {name blanks first : Text} {others : List Pasted} {m : Macro}
    {args : List (List Token)} (st : State) (out : Buffer) (after : Text)
    (hname : Lexeme.name? name = some (name, []))
    (hm : st.table.lookup (toName name) = some m) (hx : m.expanding = false)
    (hbody : m.body = chain first others) (hparams : m.params = chainNames first others)
    (hfirst : Lexeme.name? first = some (first, [])) (hothers : ∀ p ∈ others, p.Fits)
    (hdistinct : m.params.Nodup) (hlength : args.length = m.params.length)
    (hargs : ∀ arg ∈ args, Argument (inBody st.table m) arg)
    (hfilled : ∀ arg ∈ args, trim (spell arg) ≠ [])
    (hblanks : ∀ c ∈ blanks, isBlank c = true) (hbudget : st.table.weight ≤ budget) :
    ∃ p, scanCall (expand budget) (name ++ (blanks ++ called true spell args after)) st out =
        some p ∧
      p.rest = after ∧ p.state.faults = st.faults ∧ p.state.table = st.table ∧
      p.out.toText = out.toText ++ (args.map fun arg => trim (spell arg)).flatten := by
  have hlengths : (args.map fun arg => trim (spell arg)).length = m.params.length := by
    rw [List.length_map, hlength]
  have hargsne : args ≠ [] := by
    rw [← List.length_pos_iff, hlength, hparams]
    exact Nat.succ_pos _
  have hitems : bodyItems (inBody st.table m) m.body =
      .call [] (toName first) :: others.flatMap Pasted.items := by
    rw [hbody]
    refine bodyItems_chain hfirst hothers fun param hparam => ?_
    rw [← hparams] at hparam
    simp [inBody, hparam]
  have hlookup : ∀ param ∈ chainNames first others, ∃ text,
      (m.params.zip (args.map fun arg => trim (spell arg))).lookup param = some text := by
    intro param hparam
    rw [← Option.isSome_iff_exists, isSome_lookup_zip hlengths]
    simpa [hparams] using hparam
  obtain ⟨p, hp, hrest, hfaults, htable, hout⟩ :=
    scanCall_substitutes true after spell (fun arg => trim (spell arg)) args budget st out hname hm
      hx hargsne hlength (fun arg harg => (hargs arg harg).taken true) hblanks
      (fun _ => delimited_parens _ _ _) bareList_parens hbudget
      (fun item hitem param hcall => hparams ▸ called_chain (hitems ▸ hitem) hcall)
      (fun _ _ _ _ text htext => literal_of_lookup hargs htext)
  refine ⟨p, hp, hrest, hfaults, htable, ?_⟩
  rw [hout, substitute, hitems]
  generalize hbound : m.params.zip (args.map fun arg => trim (spell arg)) = bindings at hlookup ⊢
  refine (writeAll_chain (fun param => (bindings.lookup param).getD []) hothers ?_ ?_ out).trans ?_
  · intro param hparam out
    obtain ⟨text, htext⟩ := hlookup param hparam
    obtain ⟨ts, rfl, hplain, -⟩ := plain_of_lookup hargs (hbound ▸ htext)
    rw [paramValue_plain htext hplain, htext]
    rfl
  · intro param hparam
    obtain ⟨text, htext⟩ := hlookup param hparam
    obtain ⟨arg, harg, rfl⟩ := List.mem_map.1 (mem_of_lookup_zip (hbound ▸ htext))
    rw [htext]
    exact firm_chomp (hfilled arg harg)
  · rw [← hparams, ← hbound, map_lookup_zip hdistinct hlengths]

/-- Three parameters in a chain. -/
def joining : Macro := { params := ["a", "b", "c"], body := ofString "a ##b## c" }

/-- The white space before the call stays. -/
theorem scanCall_pastes_joining :
    ∃ p, scanCall (expand 4) (ofString "J( x , (1,2),'y ' );")
        { table := { innermost := [("J", joining)] } } (Buffer.ofText (ofString "k  ")) = some p ∧
      p.rest = ofString ";" ∧ p.state.faults = [] ∧
      p.state.table = { innermost := [("J", joining)] } ∧
      p.out.toText = ofString "k  x(1,2)'y '" := by
  let table : MacroTable := { innermost := [("J", joining)] }
  let word : List Token := [.byte 32, .name [120], .byte 32]
  let pair : List Token := [.byte 32, .byte 40, .number [49], .byte 44, .number [50], .byte 41]
  let string : List Token := [.quoted (ofString "'y '"), .byte 32]
  have hname : Lexeme.name? (ofString "J") = some (ofString "J", []) := by decide +kernel
  have hm : table.lookup (toName (ofString "J")) = some joining := by decide +kernel
  have hothers : ∀ p ∈ [⟨[space], [], [98]⟩, ⟨[], [space], [99]⟩], Pasted.Fits p :=
    List.forall_mem_cons.2 ⟨⟨by decide +kernel, by decide +kernel, by decide +kernel⟩,
      List.forall_mem_singleton.2 ⟨by decide +kernel, by decide +kernel, by decide +kernel⟩⟩
  have hword : Argument (inBody table joining) word := by
    refine ⟨by decide +kernel, fun text htext => ?_, by decide +kernel, by decide +kernel⟩
    obtain rfl : text = [120] := by simpa [word] using htext
    decide +kernel
  have hpair : Argument (inBody table joining) pair := by
    refine ⟨by decide +kernel, fun text htext => ?_, by decide +kernel, by decide +kernel⟩
    exact absurd htext (by simp [pair])
  have hstring : Argument (inBody table joining) string := by
    refine ⟨by decide +kernel, fun text htext => ?_, by decide +kernel, by decide +kernel⟩
    exact absurd htext (by simp [string])
  have hargs : ∀ arg ∈ [word, pair, string], Argument (inBody table joining) arg :=
    List.forall_mem_cons.2
      ⟨hword, List.forall_mem_cons.2 ⟨hpair, List.forall_mem_singleton.2 hstring⟩⟩
  have hfilled : ∀ arg ∈ [word, pair, string], trim (spell arg) ≠ [] := by decide +kernel
  have hblanks : ∀ c ∈ ([] : Text), isBlank c = true := fun c hc => absurd hc List.not_mem_nil
  have hweight : table.weight ≤ 4 := by decide
  have hfirst : Lexeme.name? [97] = some ([97], []) := by decide +kernel
  exact scanCall_pastes { table } (Buffer.ofText (ofString "k  ")) (ofString ";") hname hm rfl
    (by decide +kernel) (by decide +kernel) hfirst hothers (by decide) rfl hargs hfilled hblanks
    hweight

end Expansion

end AsmPrep
