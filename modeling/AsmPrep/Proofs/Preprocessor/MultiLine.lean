/-
Macros of several lines.

A `#defcont` line adds its text to the macro most recently defined, whatever stands between the
two: a line that is no directive leaves the table as it was, calls in it included.  The texts are
joined by newlines, so that the body is one text again, and a scan of it reads the texts one after
the other, for no name, no number and no closed string goes on over a newline.

Where the texts call nothing, the call puts them on its line as they stand.  That line is one
piece, with a newline after each text, and what is handed on is its lines.
-/
import AsmPrep.Proofs.Macro.Literal
import AsmPrep.Proofs.Macro.Paste
import AsmPrep.Proofs.Preprocessor.Continuation
import AsmPrep.Proofs.Preprocessor.InPlace
import AsmPrep.Proofs.Preprocessor.Undivided
import Mathlib.Data.Bool.AllAny

namespace AsmPrep

open Byte Text Quoting

/-! ### Texts joined by newlines -/

/-- Each line of a body is a line of its own. -/
theorem lines_joined {first : Text} {more : List Text}
    (h : ∀ line ∈ first :: more, newline ∉ line) :
    lines (joined newline (first :: more) ++ [newline]) = (first :: more).map (· ++ [newline]) := by
  induction more generalizing first with
  | nil =>
    have hwhole : Whole (first ++ [newline]) := ⟨first, rfl, h first List.mem_cons_self⟩
    simpa [joined_singleton] using hwhole.lines_eq
  | cons second more ih =>
    rw [List.forall_mem_cons] at h
    have hwhole : Whole (first ++ [newline]) := ⟨first, rfl, h.1⟩
    have hlines := hwhole.lines_append (joined newline (second :: more) ++ [newline])
    rw [ih h.2] at hlines
    rw [joined_cons]
    simpa using hlines

/-- Lines are added to a body that is not empty behind a newline each. -/
theorem Macro.appendLine_joined {first : Text} (hfirst : first ≠ []) (more : List Text) :
    more.foldl Macro.appendLine { body := first } = { body := joined newline (first :: more) } := by
  induction more generalizing first with
  | nil => simp [joined_singleton]
  | cons second more ih =>
    have hline : Macro.appendLine { body := first } second =
        { body := first ++ newline :: second } := by
      simp [Macro.appendLine, hfirst]
    rw [List.foldl_cons, hline, ih (by simp), joined_cons]
    cases more with
    | nil => simp [joined_singleton]
    | cons third more => rw [joined_cons, joined_cons, List.append_assoc, List.cons_append]

/-! ### The texts -/

/-- A text that is written as it stands wherever a body has it for a line, and is the statement
that it is written as. -/
structure Lineal (known : String → Bool) (text : Text) : Prop where
  inLine : InLine text
  start : ∀ c ∈ text.head?, isSpace c = false
  ends : ∀ c ∈ text.getLast?, isSpace c = false
  last : text.getLast? ≠ some backslash
  hash : hash ∉ text
  /-- None of the names that are read in it means a macro. -/
  uncalled : Expansion.Literal (Expansion.bodyItems known text)
  /-- It begins with neither an assignment nor the word that opens a group. -/
  unassigned : ¬ Statement.Assigning text
  unopened : ¬ Statement.Opening text

namespace Lineal

variable {known : String → Bool} {text tail gap : Text}

theorem skipBlanks_eq (h : Lineal known text) (htail : ∀ c ∈ tail.head?, isBlank c = false)
    (hgap : ∀ c ∈ gap, isBlank c = true) : skipBlanks (gap ++ (text ++ tail)) = text ++ tail := by
  rw [skipBlanks_blanks hgap]
  cases text with
  | nil => exact skipBlanks_eq_self htail
  | cons c s =>
    refine skipBlanks_eq_self fun d hd => ?_
    obtain rfl := Option.some.inj hd
    rw [isBlank, h.start c rfl, Bool.and_false]

theorem chomp_eq (h : Lineal known text) : chomp text = text := by
  cases hlast : text.getLast? with
  | none =>
    rw [List.getLast?_eq_none_iff] at hlast
    rw [hlast]
    rfl
  | some c => exact Firm.chomp ⟨c, hlast, h.ends c hlast⟩

/-- With its line end it is a statement, outside groups. -/
theorem normalize_eq (h : Lineal known text) :
    Statement.normalize false (text ++ [newline]) = (text ++ [newline], false) := by
  have hskip : skipBlanks ([] ++ (text ++ [newline])) = text ++ [newline] :=
    h.skipBlanks_eq (fun _ hc => Option.some.inj hc ▸ rfl) (List.forall_mem_nil _)
  rw [List.nil_append] at hskip
  refine Statement.normalize_plain ?_ ?_
  · rw [hskip]
    exact fun h' => h.unassigned h'.of_newline
  · rw [hskip]
    exact fun h' => h.unopened h'.of_newline

end Lineal

section Joined

variable {known : String → Bool} {first : Text} {more : List Text}

theorem hash_joined (h : ∀ line ∈ first :: more, Lineal known line) :
    Byte.hash ∉ joined newline (first :: more) := by
  induction more generalizing first with
  | nil => simpa [joined_singleton] using (h first List.mem_cons_self).hash
  | cons second more ih =>
    rw [List.forall_mem_cons] at h
    rw [joined_cons, List.mem_append, List.mem_cons]
    rintro (hmem | hmem | hmem)
    · exact h.1.hash hmem
    · exact absurd hmem (by decide)
    · exact ih h.2 hmem

/-- A body of such texts calls nothing. -/
theorem literal_joined (h : ∀ line ∈ first :: more, Lineal known line) :
    Expansion.Literal (Expansion.bodyItems known (joined newline (first :: more))) := by
  induction more generalizing first with
  | nil => simpa [joined_singleton] using (h first List.mem_cons_self).uncalled
  | cons second more ih =>
    rw [List.forall_mem_cons] at h
    -- The newline is an item of its own, which the scan of either part leaves to it.
    have hbreak : Expansion.bodyItem known (newline :: joined newline (second :: more)) = none :=
      (Expansion.not_taken known (by decide) _).1
    rw [joined_cons, Expansion.bodyItems_append (delimited_cons.2 (by decide)) h.1.hash
      h.1.inLine.closed, Expansion.bodyItems_none hbreak]
    intro item hitem
    rcases List.mem_append.1 hitem with hitem | hitem
    · exact h.1.uncalled item hitem
    · rcases List.mem_cons.1 hitem with rfl | hitem
      · rfl
      · exact ih h.2 item hitem

theorem normalizeAll_lineal (h : ∀ line ∈ more, Lineal known line) :
    Statement.normalizeAll false (more.map (· ++ [newline])) =
      (more.map (· ++ [newline]), false) := by
  induction more with
  | nil => rfl
  | cons line more ih =>
    rw [List.forall_mem_cons] at h
    rw [List.map_cons, Statement.normalizeAll, h.1.normalize_eq, ih h.2]

end Joined

namespace Preprocessor

variable {σ : Type} [LineSource σ] {pp pp' : Preprocessor} {src src' : σ}

theorem head_of_end {tail : Text} (h : atEndOfStatement tail = true) :
    Delimited tail ∧ ∀ c ∈ tail.head?, isBlank c = false := by
  cases tail with
  | nil => exact ⟨delimited_nil, fun _ hc => absurd hc (by simp)⟩
  | cons c tail =>
    simp only [atEndOfStatement, Bool.or_eq_true, beq_iff_eq] at h
    refine ⟨delimited_cons.2 ?_, ?_⟩
    · rcases h with rfl | rfl <;> decide
    · rintro _ ⟨⟩
      rcases h with rfl | rfl <;> decide

/-- Read as the text of a macro in one line, it is the text. -/
theorem readMacroText_lineal {known : String → Bool} {text gap tail : Text}
    (h : Lineal known text) (hgap : ∀ c ∈ gap, isBlank c = true)
    (htail : atEndOfStatement tail = true) :
    pp.readMacroText (gap ++ (text ++ tail)) src = (text, pp, src) := by
  have hread := Directive.bodyLine_ended h.inLine h.last htail
  unfold readMacroText
  rw [h.skipBlanks_eq (head_of_end htail).2 hgap, readBody_of_closed (by rw [hread]), hread]
  exact congrArg (·, pp, src) h.chomp_eq

/-! ### The call -/

/-- The call is one piece, which the body is with the line end behind it. -/
theorem split_joined {table : MacroTable} {name first : Text} {more : List Text}
    (hname : Lexeme.identifier? name = some (name, []))
    (hlookup : table.lookup (toName name) = some { body := joined newline (first :: more) })
    (h : ∀ line ∈ first :: more, Lineal table.contains line) :
    ∃ st, Statement.split (name ++ [newline]) table =
        (st, [joined newline (first :: more) ++ [newline]]) ∧
      st.table = table ∧ st.faults = [] := by
  have hliteral := literal_joined h
  have hsplit := Statement.split_call (Lexeme.name?_of_identifier? hname)
    (Lexeme.number?_of_identifier? hname) hlookup
  have htable := Statement.split_table (name ++ [newline]) table
  have hknown : (({ table } : Expansion.State).enter (toName name)).table.contains =
      table.contains := Expansion.State.contains_enter _ _
  obtain ⟨-, hfaults, hout⟩ := Expansion.rescan_writes (Expansion.full table)
    (fun _ out => out) (joined newline (first :: more))
    (({ table } : Expansion.State).enter (toName name)) {} rfl (by
      rw [hknown]
      intro item hitem called hcall
      rw [hliteral item hitem] at hcall
      exact absurd hcall (by simp))
  rw [hknown, Expansion.writeAll_verbatim _ hliteral (hash_joined h)] at hout
  rw [hsplit] at htable ⊢
  refine ⟨_, ?_, htable, hfaults⟩
  rw [hout]
  simp

/-- **A call of a macro of such lines makes a statement of each of them.** -/
theorem processLine_joined {name first : Text} {more : List Text}
    (hname : Lexeme.identifier? name = some (name, []))
    (hlookup : pp.lookup (toName name) = some { body := joined newline (first :: more) })
    (hgroup : pp.inGroup = false) (h : ∀ line ∈ first :: more, Lineal pp.table.contains line)
    (src : σ) :
    pp.processLine (name ++ [newline]) src =
      ({ pp with queue := pp.queue ++ (first :: more).map (· ++ [newline]) }, src) := by
  have hhead : (name ++ [newline]).head? ≠ some hash := by
    obtain ⟨c, bare, hcons, hc, -⟩ := Lexeme.identifier?_eq_some hname
    rw [hcons]
    exact fun hhash => ne_of_class hc (by decide) (Option.some.inj hhash)
  obtain ⟨st, hsplit, htable, hfaults⟩ := split_joined hname hlookup h
  have hlines := lines_joined fun line hline => (h line hline).inLine.newline
  rw [processLine_of_head hhead, expandLine_of_split hsplit htable hfaults,
    List.flatMap_singleton, hlines, hgroup, normalizeAll_lineal h]

/-! ### The lines of the definition -/

/-- Lines behind a definition that go on with it by these texts.  Between them stand any lines
that are no directives. -/
inductive GoesOn : List Text → List Text → Prop
  | done : GoesOn [] []
  | other {line : Text} {lines texts : List Text} (hline : line.head? ≠ some hash)
      (h : GoesOn lines texts) : GoesOn (line :: lines) texts
  | more {word gap text tail : Text} {lines texts : List Text}
      (hword : sameLetters word (ofString "defcont") = true)
      (hgap : ∀ c ∈ gap, isBlank c = true) (hgap_ne : gap = [] → text = [])
      (htail : atEndOfStatement tail = true) (h : GoesOn lines texts) :
      GoesOn ((hash :: (word ++ (gap ++ (text ++ tail)))) :: lines) (text :: texts)

/-- A `#defcont` line, with one line of text. -/
theorem processLine_defcont_lineal {known : String → Bool} {word gap text tail : Text}
    (hword : sameLetters word (ofString "defcont") = true)
    (hgap : ∀ c ∈ gap, isBlank c = true) (hgap_ne : gap = [] → text = [])
    (htail : atEndOfStatement tail = true) (htext : Lineal known text) {m : Macro}
    (htarget : pp.table.targetMacro? = some m) (src : σ) :
    pp.processLine (hash :: (word ++ (gap ++ (text ++ tail)))) src =
      ({ pp with table := pp.table.updateTarget (·.appendLine text) }, src) := by
  have hends : Delimited (gap ++ (text ++ tail)) := by
    refine delimited_of_blanks hgap fun hnil => ?_
    rw [hgap_ne hnil, List.nil_append]
    exact (head_of_end htail).1
  exact processLine_defcont (Directive.ofLine?_defcont hword hends) htarget
    (readMacroText_lineal htext hgap htail)

/-- **The lines that go on with a macro are added to it**, and nothing else of the table changes
by them and the lines between them. -/
theorem Yields.table_eq {lines texts made : List Text} (h : Yields pp src lines made pp' src')
    (hlines : GoesOn lines texts) {known : String → Bool}
    (htexts : ∀ text ∈ texts, Lineal known text) {t : MacroTable} {name : String} {m : Macro}
    (ht : pp.table = t.withMacro name m) :
    pp'.table = t.withMacro name (texts.foldl Macro.appendLine m) := by
  induction hlines generalizing pp src made m with
  | done =>
    cases h with
    | done => exact ht
  | other hline _ ih =>
    obtain ⟨pp₁, src₁, pp₂, src₂, more, hf, hp, -, hothers⟩ := h.cons_inv
    have hfetch : pp₁.table = pp.table := by rw [(fetchLine_some hf).2.1]
    have hkeep := processLine_table pp₁ src₁ (Directive.ofLine?_eq_none hline)
    rw [hp] at hkeep
    exact ih hothers htexts (hkeep.trans (hfetch.trans ht))
  | more hword hgap hgap_ne htail _ ih =>
    rw [List.forall_mem_cons] at htexts
    obtain ⟨pp₁, src₁, pp₂, src₂, more, hf, hp, -, hothers⟩ := h.cons_inv
    have hfetch : pp₁.table = t.withMacro name m := by rw [(fetchLine_some hf).2.1, ht]
    have htarget : pp₁.table.targetMacro? = some m := by
      rw [hfetch, MacroTable.targetMacro?_withMacro]
    rw [processLine_defcont_lineal hword hgap hgap_ne htail htexts.1 htarget] at hp
    obtain ⟨rfl, rfl⟩ := Prod.mk.inj hp
    refine ih hothers htexts.2 ?_
    show pp₁.table.updateTarget _ = _
    rw [hfetch, MacroTable.updateTarget_withMacro]

/-! ### The macro -/

variable {word blanks name gap first tail : Text} {lines texts made : List Text}

/-- The `#define` line, with one line of text. -/
theorem processLine_define_lineal {known : String → Bool}
    (hheading : Directive.Heading word blanks name []) (hfree : pp.isDefined (toName name) = false)
    (hgap : ∀ c ∈ gap, isBlank c = true) (hgap_ne : gap ≠ []) (hfirst : first ≠ [])
    (htail : atEndOfStatement tail = true) (htext : Lineal known first) (src : σ) :
    pp.processLine (Directive.heading word blanks name [] ++ gap ++ first ++ tail) src =
      (pp.withMacro (toName name) { body := first }, src) := by
  have hwritten : Continued gap first [] tail :=
    { gap_ne := hgap_ne
      gap_blank := hgap
      first_start := by
        obtain ⟨c, s, rfl⟩ := List.exists_cons_of_ne_nil hfirst
        exact ⟨c, s, rfl, by rw [isBlank, htext.start c rfl, Bool.and_false]⟩
      inLine := by simpa using htext.inLine
      last := by
        rintro _ ⟨⟩
        exact htext.last
      tail_ends := htail }
  have hline := processLine_define hwritten hheading hfree (.done pp src)
  have hbody : chomp (joined space [first]) = first := by
    rw [joined_singleton, htext.chomp_eq]
  rw [hbody] at hline
  exact hline

/-- **A macro of several lines makes one statement for each of them.**  Its body is the text of
the `#define` line and those of the `#defcont` lines behind it, with newlines between them,
whatever other lines stand there that are no directives.  A line that is its name, where no group
is open, makes these texts, each with a newline, and nothing else changes. -/
theorem multi_line_macro_makes_its_lines (hheading : Directive.Heading word blanks name [])
    (hname : Lexeme.identifier? name = some (name, []))
    (hfree : pp.isDefined (toName name) = false)
    (hgap : ∀ c ∈ gap, isBlank c = true) (hgap_ne : gap ≠ []) (hfirst : first ≠ [])
    (htail : atEndOfStatement tail = true) (hlines : GoesOn lines texts)
    (htexts : ∀ text ∈ first :: texts,
      Lineal (fun other => pp.table.contains other || other == toName name) text)
    (h : Yields pp src ((Directive.heading word blanks name [] ++ gap ++ first ++ tail) :: lines)
      made pp' src') :
    pp'.lookup (toName name) = some { body := joined newline (first :: texts) } ∧
      (pp'.inGroup = false → ∀ src : σ, pp'.processLine (name ++ [newline]) src =
        ({ pp' with queue := pp'.queue ++ (first :: texts).map (· ++ [newline]) }, src)) := by
  have htable : pp'.table =
      pp.table.withMacro (toName name) { body := joined newline (first :: texts) } := by
    rw [List.forall_mem_cons] at htexts
    obtain ⟨pp₁, src₁, pp₂, src₂, more, hf, hp, -, hothers⟩ := h.cons_inv
    obtain ⟨-, rfl, -⟩ := fetchLine_some hf
    rw [processLine_define_lineal hheading (by exact hfree) hgap hgap_ne hfirst htail
      htexts.1] at hp
    obtain ⟨rfl, rfl⟩ := Prod.mk.inj hp
    rw [hothers.table_eq hlines htexts.2 rfl, Macro.appendLine_joined hfirst]
  have hlookup (other : String) : pp'.table.lookup other =
      if toName name = other then some { body := joined newline (first :: texts) }
      else pp.table.lookup other := by
    rw [htable, MacroTable.lookup_withMacro]
  have hknown : pp'.table.contains =
      fun other => pp.table.contains other || other == toName name := by
    funext other
    unfold MacroTable.contains
    rw [hlookup]
    by_cases hother : toName name = other
    · simp [hother]
    · simp [hother, Ne.symm hother]
  have hcall : pp'.lookup (toName name) = some { body := joined newline (first :: texts) } :=
    (hlookup _).trans (if_pos rfl)
  rw [← hknown] at htexts
  exact ⟨hcall, fun hgroup src => processLine_joined hname hcall hgroup htexts src⟩

/-- A macro of three lines, the second of them empty, with a statement between the directives. -/
theorem macro_of_three_lines :
    let lines := [ofString "#define M ld a;load\n", ofString "nop\n", ofString "#defcont\n",
      ofString "#DefCont\tret\n"]
    ∃ made pp' src',
      Yields {} (Feed.ofAnswers "a" (lines.map fun line => .ok (some line))) lines made pp' src' ∧
        pp'.lookup "M" = some { body := ofString "ld a\n\nret" } ∧
        (pp'.processLine (ofString "M\n") src').1.queue =
          [ofString "ld a\n", ofString "\n", ofString "ret\n"] := by
  intro lines
  have hheading : Directive.Heading (ofString "define") [space] (ofString "M") [] :=
    ⟨by decide, by decide, List.forall_mem_singleton.2 rfl, by decide, rfl⟩
  have hfree : ({} : Preprocessor).isDefined (toName (ofString "M")) = false := by decide
  have hlineal : ∀ text ∈ [ofString "ld a", [], ofString "ret"],
      Lineal (fun other => MacroTable.empty.contains other || other == toName (ofString "M"))
        text := by
    simp only [List.forall_mem_cons]
    exact ⟨⟨⟨by decide, by decide, by decide⟩, (Option.any_eq_false _ _).1 rfl,
        (Option.any_eq_false _ _).1 rfl, by decide, by decide, by decide +kernel, by decide,
        by decide⟩,
      ⟨.nil, (Option.any_eq_false _ _).1 rfl, (Option.any_eq_false _ _).1 rfl, by decide, by decide,
        by decide +kernel, by decide, by decide⟩,
      ⟨⟨by decide, by decide, by decide⟩, (Option.any_eq_false _ _).1 rfl,
        (Option.any_eq_false _ _).1 rfl, by decide, by decide, by decide +kernel, by decide,
        by decide⟩,
      List.forall_mem_nil _⟩
  -- The lines of the definition in their parts.
  let define := Directive.heading (ofString "define") [space] (ofString "M") [] ++ [space] ++
    ofString "ld a" ++ ofString ";load\n"
  let empty := hash :: (ofString "defcont" ++ ([] ++ ([] ++ [newline])))
  let ret := hash :: (ofString "DefCont" ++ ([tab] ++ (ofString "ret" ++ [newline])))
  have hlines : lines = [define, ofString "nop\n", empty, ret] := by decide
  have hgoes : GoesOn [ofString "nop\n", empty, ret] [[], ofString "ret"] :=
    .other (by decide) (.more (by decide) (List.forall_mem_nil _) (fun _ => rfl) rfl
      (.more (by decide) (List.forall_mem_singleton.2 rfl) (by decide) rfl .done))
  -- What each of them does.
  have hdefine (pp : Preprocessor) (src : Feed)
      (ht : pp.isDefined (toName (ofString "M")) = false) :
      pp.processLine define src =
        (pp.withMacro (toName (ofString "M")) { body := ofString "ld a" }, src) :=
    processLine_define_lineal hheading ht (List.forall_mem_singleton.2 rfl) (by decide) (by decide)
      rfl (hlineal _ List.mem_cons_self) src
  have hnop (pp : Preprocessor) (src : Feed) (ht : pp.table =
      MacroTable.empty.withMacro (toName (ofString "M")) { body := ofString "ld a" }) :
      pp.processLine (ofString "nop\n") src =
        ({ pp with
          queue := pp.queue ++ [(Statement.normalize pp.inGroup (ofString "nop\n")).1]
          inGroup := (Statement.normalize pp.inGroup (ofString "nop\n")).2 }, src) := by
    refine processLine_undivided pp src ⟨ofString "nop", by decide, by decide⟩ (by decide) ?_
      (.of_plain (List.all_iff_forall_prop.1 (by decide)))
    rw [ht]
    decide +kernel
  have hempty (pp : Preprocessor) (src : Feed) {m : Macro} (ht : pp.table.targetMacro? = some m) :
      pp.processLine empty src =
        ({ pp with table := pp.table.updateTarget (·.appendLine []) }, src) :=
    processLine_defcont_lineal (by decide) (List.forall_mem_nil _) (fun _ => rfl) rfl
      (hlineal _ (by decide)) ht src
  have hret (pp : Preprocessor) (src : Feed) {m : Macro} (ht : pp.table.targetMacro? = some m) :
      pp.processLine ret src =
        ({ pp with table := pp.table.updateTarget (·.appendLine (ofString "ret")) }, src) :=
    processLine_defcont_lineal (by decide) (List.forall_mem_singleton.2 rfl) (by decide) rfl
      (hlineal _ (by decide)) ht src
  let feed := Feed.ofAnswers "a" (lines.map fun line => .ok (some line))
  obtain ⟨made, pp', src', h, hgroup, hq⟩ : ∃ made pp' src',
      Yields {} feed [define, ofString "nop\n", empty, ret] made pp' src' ∧
        pp'.inGroup = false ∧ pp'.queue = [] :=
    ⟨_, _, _, .next rfl (hdefine _ _ (by decide)) (.next rfl (hnop _ _ rfl) (.next rfl
      (hempty _ _ (MacroTable.targetMacro?_withMacro _ _ _)) (.next rfl
        (hret _ _ ((MacroTable.targetMacro?_updateTarget _ _).trans
          (congrArg _ (MacroTable.targetMacro?_withMacro _ _ _)))) (.done _ _)))), by decide, rfl⟩
  obtain ⟨hlookup, hcall⟩ := multi_line_macro_makes_its_lines hheading (by decide)
    hfree (List.forall_mem_singleton.2 rfl) (by decide) (by decide) rfl hgoes hlineal h
  refine ⟨made, pp', src', hlines ▸ h, hlookup, ?_⟩
  have hname : ofString "M\n" = ofString "M" ++ [newline] := by decide
  have hmade : [ofString "ld a", [], ofString "ret"].map (· ++ [newline]) =
      [ofString "ld a\n", ofString "\n", ofString "ret\n"] := by decide
  rw [hname, hcall hgroup, hq]
  exact hmade

end Preprocessor

end AsmPrep
