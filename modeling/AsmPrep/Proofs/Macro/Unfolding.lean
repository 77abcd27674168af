/-
Macros without parameters unfold along a path.

Such macros refer to each other in any way, around in circles too.  To expand one is to put
its body for its name, and so on for the names in the body; a name that is met on the way down
from itself is dropped.  `unfolded` says just that, with the names on the way as its path, and it
ends because a path has each macro of the table once at most.

The scanner knows no path.  It has a mark on each macro, set while the macro is expanded and
taken off again.  At each point of a run the marks are those of the macros on the path, and so
scanning is unfolding, and what is dropped is reported in the order in which it is met.
-/
import AsmPrep.Proofs.Macro.Budget
import AsmPrep.Proofs.Macro.PlainText
import AsmPrep.Proofs.Macro.Substitution

namespace AsmPrep

open Byte Text

namespace MacroTable

theorem mem_of_lookup {t : MacroTable} {name : String} {m : Macro} (h : t.lookup name = some m) :
    (name, m) ∈ t.scopes.flatten := by
  obtain ⟨scope, hscope, hm⟩ := List.exists_of_findSome?_eq_some h
  obtain ⟨before, after, hsplit, -⟩ := List.lookup_eq_some_iff.1 hm
  refine List.mem_flatten.2 ⟨scope, hscope, ?_⟩
  rw [hsplit]
  simp

/-- The names of all macros, in all scopes. -/
def names (t : MacroTable) : List String := t.scopes.flatten.map Prod.fst

theorem mem_names {t : MacroTable} {name : String} {m : Macro} (h : t.lookup name = some m) :
    name ∈ t.names := List.mem_map_of_mem (mem_of_lookup h)

/-- The names of the macros that are not on the path. -/
def leftBy (t : MacroTable) (path : List String) : List String :=
  t.names.filter fun name => !path.contains name

theorem leftBy_cons_lt {t : MacroTable} {path : List String} {name : String} {m : Macro}
    (h : t.lookup name = some m) (hpath : name ∉ path) :
    (t.leftBy (name :: path)).length < (t.leftBy path).length := by
  have hfilter : t.leftBy (name :: path) = (t.leftBy path).filter fun other => other != name := by
    rw [leftBy, leftBy, List.filter_filter]
    refine List.filter_congr fun other _ => ?_
    by_cases ho : other = name
    · simp [ho]
    · simp [ho]
  rw [hfilter, List.length_filter_lt_length_iff_exists]
  exact ⟨name, by simp [leftBy, mem_names h, hpath], by simp⟩

end MacroTable

namespace Expansion

/-- What unfolding a text gives: a text, and the names that were dropped on the way. -/
structure Unfolded where
  text : Text := []
  dropped : List String := []
  deriving DecidableEq, Repr

namespace Unfolded

/-- With a text before it. -/
def behind (u : Unfolded) (text : Text) : Unfolded := { u with text := text ++ u.text }

/-- With a dropped name before it. -/
def dropping (u : Unfolded) (name : String) : Unfolded := { u with dropped := name :: u.dropped }

def append (u v : Unfolded) : Unfolded := ⟨u.text ++ v.text, u.dropped ++ v.dropped⟩

end Unfolded

/-- The tokens with every macro's name unfolded.  Those that are on the path are dropped. -/
def unfolded (t : MacroTable) (path : List String) : List Token → Unfolded
  | [] => {}
  | .name text :: ts =>
    match _ : t.lookup (toName text) with
    | none => (unfolded t path ts).behind text
    | some m =>
      if toName text ∈ path then (unfolded t path ts).dropping (toName text)
      else (unfolded t (toName text :: path) (tokens m.body)).append (unfolded t path ts)
  | .number text :: ts => (unfolded t path ts).behind text
  | .quoted text :: ts => (unfolded t path ts).behind text
  | .byte c :: ts => (unfolded t path ts).behind [c]
termination_by ts => ((t.leftBy path).length, ts.length)
decreasing_by
  · exact .right _ (Nat.lt_succ_self _)
  · exact .right _ (Nat.lt_succ_self _)
  · exact .left _ _ (MacroTable.leftBy_cons_lt (by assumption) (by assumption))
  · exact .right _ (Nat.lt_succ_self _)
  · exact .right _ (Nat.lt_succ_self _)
  · exact .right _ (Nat.lt_succ_self _)
  · exact .right _ (Nat.lt_succ_self _)

theorem unfolded_known {t : MacroTable} {text : Text} {m : Macro}
    (hm : t.lookup (toName text) = some m) (path : List String) (ts : List Token) :
    unfolded t path (.name text :: ts) =
      if toName text ∈ path then (unfolded t path ts).dropping (toName text)
      else (unfolded t (toName text :: path) (tokens m.body)).append (unfolded t path ts) := by
  rw [unfolded]
  split
  · rename_i hnone
    exact absurd (hm.symm.trans hnone) (by simp)
  · rename_i m' hm'
    obtain rfl := Option.some.inj (hm.symm.trans hm')
    rfl

/-- A macro without parameters, with a plain body. -/
structure Parameterless (m : Macro) : Prop where
  params : m.params = []
  plain : ∃ ts, m.body = spell ts ∧ PlainText ts

/-- The macros of the table, with those marked that are on the path. -/
def Marked (t : MacroTable) (path : List String) (now : MacroTable) : Prop :=
  ∀ name, now.lookup name = (t.lookup name).map (·.setExpanding (path.contains name))

namespace Marked

variable {t now : MacroTable} {path : List String} {name : String} {m : Macro}

/-- With nothing marked no path is taken yet. -/
theorem start (hidle : ∀ name m, t.lookup name = some m → m.expanding = false) :
    Marked t [] t := by
  intro name
  cases hm : t.lookup name with
  | none => rfl
  | some m =>
    rw [Option.map_some, Macro.setExpanding, List.contains_nil, ← hidle name m hm]

theorem lookup_none (h : Marked t path now) (hm : t.lookup name = none) :
    now.lookup name = none := by
  rw [h, hm, Option.map_none]

theorem lookup_some (h : Marked t path now) (hm : t.lookup name = some m) :
    now.lookup name = some (m.setExpanding (path.contains name)) := by
  rw [h, hm, Option.map_some]

theorem contains_of_lookup (h : Marked t path now) (hm : t.lookup name = some m) :
    now.contains name = true := by
  rw [MacroTable.contains, h.lookup_some hm, Option.isSome_some]

/-- To enter a macro is to go one step on. -/
theorem enter {st : State} (h : Marked t path st.table) :
    Marked t (name :: path) (st.enter name).table := by
  intro other
  show (MacroTable.pushScope _).lookup other = _
  rw [MacroTable.lookup_pushScope, MacroTable.lookup_update, h]
  split
  · rename_i heq
    subst heq
    cases t.lookup name <;> simp [Macro.setExpanding]
  · rename_i hne
    have hcontains : (name :: path).contains other = path.contains other := by
      simp [Ne.symm hne]
    rw [hcontains]

end Marked

/-- The scan wrote the text and reported each dropped name. -/
structure Gives (u : Unfolded) (st : State) (out : Buffer) (made : State × Buffer) : Prop where
  faults : made.1.faults = st.faults ++ u.dropped.map .macroRecursion
  text : made.2.toText = out.toText ++ u.text

namespace Gives

variable {u v : Unfolded} {st : State} {out : Buffer} {made : State × Buffer}

theorem nothing : Gives {} st out (st, out) where
  faults := (List.append_nil _).symm
  text := (List.append_nil _).symm

theorem behind {text : Text} (h : Gives u st (out.append text) made) :
    Gives (u.behind text) st out made where
  faults := h.faults
  text := by
    rw [h.text, Buffer.toText_append, List.append_assoc]
    rfl

theorem dropping {name : String} (h : Gives u (st.report (.macroRecursion name)) out made) :
    Gives (u.dropping name) st out made where
  faults := by
    rw [h.faults]
    exact List.append_assoc _ _ _
  text := h.text

/-- What follows goes on with what the first scan left, in any table. -/
theorem append {st' : State} {first : State × Buffer} (hfirst : Gives u st out first)
    (h : Gives v st' first.2 made) (hfaults : st'.faults = first.1.faults) :
    Gives (u.append v) st out made where
  faults := by
    rw [h.faults, hfaults, hfirst.faults, List.append_assoc, ← List.map_append]
    rfl
  text := by
    rw [h.text, hfirst.text, List.append_assoc]
    rfl

end Gives

/-- What meeting a macro without parameters comes to: a report when it is on the path, a scan of
its body one step further on otherwise. -/
theorem unbounded_parameterless {t : MacroTable} {path : List String} {name : String} {m : Macro}
    {st : State} (hm : t.lookup name = some m) (hparams : m.params = [])
    (hmarked : Marked t path st.table) (s : Text) (out : Buffer) :
    (unbounded name s st out).parts =
      if name ∈ path then (s, st.report (.macroRecursion name), out)
      else
        let made := rescan unbounded m.body (st.enter name) out
        (s, made.1.leave name, made.2) := by
  have htake : takeArguments unbounded m.params s (st.enter name) =
      ⟨s, st.enter name, {}, none, Nat.le_refl _⟩ := by
    rw [hparams]
    rfl
  rw [unbounded_eq, hmarked.lookup_some hm]
  dsimp only [Macro.setExpanding]
  rw [htake]
  by_cases hpath : name ∈ path
  · rw [if_pos (by simpa using hpath), if_pos hpath]
  · rw [if_neg (by simpa using hpath), if_neg hpath]

theorem unbounded_table (name : String) (s : Text) (st : State) (out : Buffer) :
    (unbounded name s st out).parts.2.1.table = st.table := expand_table _ _ _ _ _

/-- A token that calls nothing is copied. -/
theorem rescan_copied (e : Expander) {tok : Token} {ts : List Token} (h : PlainText (tok :: ts))
    {st : State} (hitem : tokenItem st.table.contains tok = .copy tok.text) (out : Buffer) :
    rescan e (spell (tok :: ts)) st out = rescan e (spell ts) st (out.append tok.text) := by
  rw [rescan_plain e h, hitem]
  rfl

/-- A name that means a macro is expanded, and the scan goes on behind it. -/
theorem rescan_called (e : Expander) {text : Text} {ts : List Token}
    (h : PlainText (.name text :: ts)) {st : State}
    (hknown : st.table.contains (toName text) = true) (out : Buffer) :
    rescan e (spell (.name text :: ts)) st out =
      let made := (e (toName text) (spell ts) st out).parts
      rescan e made.1 made.2.1 made.2.2 := by
  have hempty : out.append [] = out := Buffer.ext_toText (by simp)
  rw [rescan_plain e h, tokenItem, if_pos hknown, Item.perform, hempty]

/-- **Scanning unfolds along the path that is marked.** -/
theorem rescan_gives {t : MacroTable} (hmacros : ∀ name m, t.lookup name = some m → Parameterless m)
    {path : List String} {ts : List Token} (h : PlainText ts) {st : State}
    (hmarked : Marked t path st.table) (out : Buffer) :
    Gives (unfolded t path ts) st out (rescan unbounded (spell ts) st out) := by
  fun_induction unfolded t path ts generalizing st out with
  | case1 path =>
    rw [spell_nil, rescan_nil]
    exact .nothing
  | case2 path text ts hm ih =>
    have hitem : tokenItem st.table.contains (.name text) = .copy text := by
      rw [tokenItem, MacroTable.contains, hmarked.lookup_none hm]
      exact if_neg Bool.false_ne_true
    rw [rescan_copied unbounded h hitem]
    exact (ih h.others hmarked _).behind
  | case3 path text ts m hm hpath ih =>
    rw [rescan_called unbounded h (hmarked.contains_of_lookup hm),
      unbounded_parameterless hm (hmacros _ m hm).params hmarked, if_pos hpath]
    have hreported : Marked t path (st.report (.macroRecursion (toName text))).table := hmarked
    exact (ih h.others hreported out).dropping
  | case4 path text ts m hm hpath ihbody ih =>
    obtain ⟨hparams, body, hbody, hplain⟩ := hmacros _ m hm
    rw [hbody, hplain.tokens_spell] at ihbody
    have hinner := ihbody hplain hmarked.enter out
    have hparts := unbounded_parameterless hm hparams hmarked (spell ts) out
    rw [if_neg hpath, hbody] at hparts
    rw [rescan_called unbounded h (hmarked.contains_of_lookup hm), hparts, hbody,
      hplain.tokens_spell]
    -- Whatever the body did, behind it the marks are as they were.
    have hafter := hmarked
    rw [← unbounded_table (toName text) (spell ts) st out, hparts] at hafter
    generalize rescan unbounded (spell body) (st.enter (toName text)) out = made at hinner hafter ⊢
    exact Gives.append ⟨hinner.faults, hinner.text⟩ (ih h.others hafter made.2) rfl
  | case5 path text ts ih =>
    rw [rescan_copied unbounded h rfl]
    exact (ih h.others hmarked _).behind
  | case6 path text ts ih =>
    rw [rescan_copied unbounded h rfl]
    exact (ih h.others hmarked _).behind
  | case7 path c ts ih =>
    rw [rescan_copied unbounded h rfl]
    exact (ih h.others hmarked _).behind

/-- **With no macro being expanded, scanning is unfolding.**  Names are dropped where they are
met on the way down from themselves, and each is reported, in the order in which they are met. -/
theorem rescan_unfolds {budget : Nat} {ts : List Token} (st : State)
    (hmacros : ∀ name m, st.table.lookup name = some m → Parameterless m)
    (hidle : ∀ name m, st.table.lookup name = some m → m.expanding = false)
    (h : PlainText ts) (hbudget : st.table.weight ≤ budget) (out : Buffer) :
    let made := rescan (expand budget) (spell ts) st out
    made.2.toText = out.toText ++ (unfolded st.table [] ts).text ∧
      made.1.faults = st.faults ++ (unfolded st.table [] ts).dropped.map .macroRecursion ∧
      made.1.table = st.table := by
  have hagree : ∀ name s st' out, st'.table.weight ≤ st.table.weight →
      expand budget name s st' out = unbounded name s st' out := by
    intro name s st' out hw
    exact expand_budget name s st' out (Nat.le_trans hw hbudget) (Nat.le_refl _)
  have hgives := rescan_gives hmacros h (.start hidle) out
  rw [← rescan_congr (expand_table budget) hagree (spell ts) st out (Nat.le_refl _)] at hgives
  refine ⟨hgives.text, hgives.faults, ?_⟩
  exact (rescan_reads (expand budget) (spell ts) st out).table_eq (expand_table budget)

/-- Two macros that call each other. -/
def circular : MacroTable :=
  { MacroTable.empty with
    innermost := [("A", { body := ofString "B+A" }), ("B", { body := ofString "A" })] }

theorem rescan_unfolds_circular :
    let made := rescan (full circular) (ofString "A-B") { table := circular } {}
    made.2.toText = ofString "+-+" ∧
      made.1.faults = ["A", "A", "B", "A"].map .macroRecursion ∧ made.1.table = circular := by
  have hentry : ∀ name m, circular.lookup name = some m →
      m = { body := ofString "B+A" } ∨ m = { body := ofString "A" } := by
    intro name m hm
    have hmem : (name, m) ∈ circular.innermost := MacroTable.mem_of_lookup hm
    exact (List.mem_pair.1 hmem).imp (congrArg Prod.snd) (congrArg Prod.snd)
  have hmacros : ∀ name m, circular.lookup name = some m → Parameterless m := by
    intro name m hm
    rcases hentry name m hm with rfl | rfl
    · exact ⟨rfl, [.name [66], .byte 43, .name [65]], by decide +kernel, by decide +kernel⟩
    · exact ⟨rfl, [.name [65]], by decide +kernel, by decide +kernel⟩
  have hidle : ∀ name m, circular.lookup name = some m → m.expanding = false := by
    intro name m hm
    rcases hentry name m hm with rfl | rfl <;> rfl
  have hplain : PlainText [.name [65], .byte 45, .name [66]] := by decide +kernel
  have hunfolded : unfolded circular [] [.name [65], .byte 45, .name [66]] =
      { text := ofString "+-+", dropped := ["A", "A", "B", "A"] } := by
    have ha : circular.lookup (toName [65]) = some { body := ofString "B+A" } := by decide +kernel
    have hb : circular.lookup (toName [66]) = some { body := ofString "A" } := by decide +kernel
    have hnames : toName [65] = "A" ∧ toName [66] = "B" := by decide +kernel
    have hbodies : tokens (ofString "B+A") = [.name [66], .byte 43, .name [65]] ∧
        tokens (ofString "A") = [.name [65]] := by decide +kernel
    simp [unfolded_known ha, unfolded_known hb, unfolded, hnames, hbodies, Unfolded.append,
      Unfolded.behind, Unfolded.dropping]
    decide +kernel
  have htext : spell [.name [65], .byte 45, .name [66]] = ofString "A-B" := by decide +kernel
  have hscan := rescan_unfolds { table := circular } hmacros hidle hplain (Nat.le_refl _) {}
  rw [hunfolded, htext] at hscan
  exact hscan

end Expansion

end AsmPrep
