/-
What a scan can do to its text and to the state.

The scanners of calls, arguments and bodies are many, but their steps are few: text is
taken off the front, a call is expanded, a fault is reported, an argument is bound.
`Reads` says that a scan got from one place to another by such steps, and the lemmas here
say it of every scanner, once.  Whatever each of the steps keeps, every scan keeps; what
expansion does to tables, faults and depth is proved from that and never from the scanners.
-/
import AsmPrep.Statement.Split
import AsmPrep.Proofs.Text.Lexeme

namespace AsmPrep.Expansion

open Byte

/-- `Reads expand s st n rest st'`: from the text `s` and the state `st` a scan has come to
the text `rest` and the state `st'`, and has bound `n` arguments on the way. -/
inductive Reads (expand : Expander) (s : Text) (st : State) : Nat → Text → State → Prop
  | start : Reads expand s st 0 s st
  | skip {n : Nat} {before rest : Text} {st' : State} (hs : rest <:+ before)
      (h : Reads expand s st n before st') : Reads expand s st n rest st'
  | call {n : Nat} {rest : Text} {st' : State} (name : String) (out : Buffer)
      (h : Reads expand s st n rest st') :
      Reads expand s st n (expand name rest st' out).rest (expand name rest st' out).state
  | report {n : Nat} {rest : Text} {st' : State} (fault : Fault)
      (h : Reads expand s st n rest st') : Reads expand s st n rest (st'.report fault)
  | bind {n : Nat} {rest : Text} {st' : State} (param : String) (body : Text)
      (h : Reads expand s st n rest st') : Reads expand s st (n + 1) rest (st'.bind param body)

variable {expand : Expander} {s : Text} {st : State} {out : Buffer}

namespace Reads

theorem trans {m n : Nat} {middle rest : Text} {st' st'' : State}
    (h : Reads expand s st m middle st') (h' : Reads expand middle st' n rest st'') :
    Reads expand s st (m + n) rest st'' := by
  induction h' with
  | start => exact h
  | skip hs _ ih => exact .skip hs ih
  | call name out _ ih => exact .call name out ih
  | report fault _ ih => exact .report fault ih
  | bind param body _ ih => exact .bind param body ih

/-- Taking text off the front and nothing else. -/
theorem skip_start {rest : Text} (hs : rest <:+ s) : Reads expand s st 0 rest st :=
  .skip hs .start

/-- A scan that begins with taking text off. -/
theorem of_suffix {n : Nat} {middle rest : Text} {st' : State} (hs : middle <:+ s)
    (h : Reads expand middle st n rest st') : Reads expand s st n rest st' := by
  have hskip : Reads expand s st 0 middle st := .skip hs .start
  have := hskip.trans h
  rwa [Nat.zero_add] at this

theorem trans_zero {n : Nat} {middle rest : Text} {st' st'' : State}
    (h : Reads expand s st 0 middle st') (h' : Reads expand middle st' n rest st'') :
    Reads expand s st n rest st'' := by
  have := h.trans h'
  rwa [Nat.zero_add] at this

/-- A property that the number of arguments bound so far may enter holds of the state at the
end when every step keeps it. -/
theorem keeps {P : Nat → State → Prop} {n : Nat} {rest : Text} {st' : State}
    (h : Reads expand s st n rest st')
    (hcall : ∀ n name s st out, P n st → P n (expand name s st out).state)
    (hreport : ∀ n st fault, P n st → P n (st.report fault))
    (hbind : ∀ n st param body, P n st → P (n + 1) (st.bind param body))
    (hst : P 0 st) : P n st' := by
  induction h with
  | start => exact hst
  | skip _ _ ih => exact ih
  | call name out _ ih => exact hcall _ name _ _ out ih
  | report fault _ ih => exact hreport _ _ fault ih
  | bind param body _ ih => exact hbind _ _ param body ih

end Reads

/-! ### The scans, step by step

The answer of a scan depends on its text in type, so two answers are compared by their parts.
-/

/-- What was gathered, apart from the text it was gathered from. -/
def Gathered.parts (g : Gathered s) : Text × State × Buffer × Option Fault :=
  (g.rest, g.state, g.text, g.fault)

theorem Gathered.parts_eq {g : Gathered s} {fault? : Option Fault} (h : g.fault = fault?) :
    g.parts = (g.rest, g.state, g.text, fault?) := by
  rw [parts, h]

theorem Gathered.ext_parts {g g' : Gathered s} (h : g.parts = g'.parts) : g = g' := by
  cases g
  cases g'
  simpa [parts] using h

@[simp] theorem rescan_nil (expand : Expander) (st : State) (out : Buffer) :
    rescan expand [] st out = (st, out) := by
  rw [rescan]

theorem rescan_some {c : Byte} {r : Text} {p : Progress (c :: r)}
    (h : bodyToken expand (c :: r) st out = some p) :
    rescan expand (c :: r) st out = rescan expand p.rest p.state p.out := by
  rw [rescan.eq_def]
  simp only [h]

theorem rescan_none {c : Byte} {r : Text} (h : bodyToken expand (c :: r) st out = none) :
    rescan expand (c :: r) st out = rescan expand r st (out.push c) := by
  rw [rescan.eq_def]
  simp only [h]

theorem scanArgument_end {depth : Nat} (h : Text.atEndOfStatement s = true) :
    (scanArgument expand s st out depth).parts =
      (s, st, out, if depth = 0 then none else some .unclosedParen) := by
  rw [scanArgument.eq_def, if_pos h]
  rfl

theorem scanArgument_some {depth : Nat} {p : Progress s} (he : Text.atEndOfStatement s = false)
    (h : argumentToken expand s st out = some p) :
    (scanArgument expand s st out depth).parts =
      (scanArgument expand p.rest p.state p.out depth).parts := by
  rw [scanArgument.eq_def]
  simp only [he, h, Bool.false_eq_true, if_false]
  rfl

theorem scanArgument_stop {c : Byte} {r : Text} (he : Text.atEndOfStatement (c :: r) = false)
    (h : argumentToken expand (c :: r) st out = none) (hc : c = closeParen ∨ c = comma) :
    (scanArgument expand (c :: r) st out 0).parts = (c :: r, st, out, none) := by
  rw [scanArgument.eq_def]
  simp only [he, h, Bool.false_eq_true, if_false]
  rw [if_pos (by simpa using hc)]
  rfl

theorem scanArgument_step {c : Byte} {r : Text} {depth : Nat}
    (he : Text.atEndOfStatement (c :: r) = false)
    (h : argumentToken expand (c :: r) st out = none)
    (hc : ¬ (depth = 0 ∧ (c = closeParen ∨ c = comma))) :
    (scanArgument expand (c :: r) st out depth).parts =
      (scanArgument expand r st (out.push c) (depthAfter depth c)).parts := by
  rw [scanArgument.eq_def]
  simp only [he, h, Bool.false_eq_true, if_false]
  rw [if_neg (by simpa using hc)]
  rfl

section Bind

variable {inParens : Bool} {param : String} {others : List String} {rest : Text} {st' : State}
  {text : Buffer}

theorem bindArguments_fault {fault : Fault}
    (h : (argument expand inParens (Text.skipBlanks s) st).parts = (rest, st', text, some fault)) :
    (bindArguments expand inParens (param :: others) s st).parts =
      (rest, st', {}, some fault) := by
  simp only [Gathered.parts, Prod.mk.injEq] at h
  obtain ⟨rfl, rfl, -, hf⟩ := h
  simp only [bindArguments, hf]
  rfl

theorem bindArguments_last
    (h : (argument expand inParens (Text.skipBlanks s) st).parts = (rest, st', text, none)) :
    (bindArguments expand inParens [param] s st).parts =
      (Text.skipBlanks rest, st'.bind param text.chomp.toText, {}, none) := by
  simp only [Gathered.parts, Prod.mk.injEq] at h
  obtain ⟨rfl, rfl, rfl, hf⟩ := h
  simp only [bindArguments, hf, List.isEmpty_nil, if_true]
  rfl

theorem bindArguments_next (ho : others ≠ [])
    (h : (argument expand inParens (Text.skipBlanks s) st).parts = (rest, st', text, none))
    {r : Text} (hr : Text.skipBlanks rest = comma :: r) :
    (bindArguments expand inParens (param :: others) s st).parts =
      (bindArguments expand inParens others r (st'.bind param text.chomp.toText)).parts := by
  simp only [Gathered.parts, Prod.mk.injEq] at h
  obtain ⟨rfl, rfl, rfl, hf⟩ := h
  have hempty : others.isEmpty = false := by simpa using ho
  have hhead := congrArg List.head? hr
  have htail := congrArg List.tail hr
  rw [List.head?_cons] at hhead
  rw [List.tail_cons] at htail
  subst htail
  simp only [bindArguments, hf, hempty, hhead, if_true, Bool.false_eq_true, if_false]
  rfl

theorem bindArguments_missing (ho : others ≠ [])
    (h : (argument expand inParens (Text.skipBlanks s) st).parts = (rest, st', text, none))
    (hr : (Text.skipBlanks rest).head? ≠ some comma) :
    (bindArguments expand inParens (param :: others) s st).parts =
      (Text.skipBlanks rest, st'.bind param text.chomp.toText, {}, some .missingArguments) := by
  simp only [Gathered.parts, Prod.mk.injEq] at h
  obtain ⟨rfl, rfl, rfl, hf⟩ := h
  have hempty : others.isEmpty = false := by simpa using ho
  simp only [bindArguments, hf, hempty, hr, Bool.false_eq_true, if_false]
  rfl

theorem collectArguments_fault {params : List String} {fault : Fault}
    (h : (bindArguments expand (openArguments s).1 params (openArguments s).2 st).parts =
      (rest, st', text, some fault)) :
    (collectArguments expand params s st).parts = (rest, st', text, some fault) := by
  rw [← h]
  simp only [Gathered.parts, Prod.mk.injEq] at h
  unfold collectArguments
  simp only [h.2.2.2]
  rfl

theorem collectArguments_close {params : List String}
    (h : (bindArguments expand (openArguments s).1 params (openArguments s).2 st).parts =
      (rest, st', text, none)) :
    (collectArguments expand params s st).parts =
      (closeArguments (openArguments s).1 rest st').parts := by
  simp only [Gathered.parts, Prod.mk.injEq] at h
  obtain ⟨rfl, rfl, -, hf⟩ := h
  unfold collectArguments
  simp only [hf]
  rfl

end Bind

/-- What an expansion came to, apart from the text it started at. -/
def Expanded.parts (made : Expanded s) : Text × State × Buffer := (made.rest, made.state, made.out)

theorem Expanded.ext_parts {made made' : Expanded s} (h : made.parts = made'.parts) :
    made = made' := by
  cases made
  cases made'
  simpa [parts] using h

section Expand

variable {budget : Nat} {name : String} {m : Macro} {rest : Text} {bound : State} {text : Buffer}

theorem expand_unknown (hm : st.table.lookup name = none) :
    (Expansion.expand budget name s st out).parts = (s, st, out) := by
  unfold Expansion.expand
  simp only [hm]
  rfl

theorem expand_recursive (hm : st.table.lookup name = some m) (hx : m.expanding = true) :
    (Expansion.expand budget name s st out).parts = (s, st.report (.macroRecursion name), out) := by
  unfold Expansion.expand
  simp only [hm, hx, if_true]
  rfl

theorem expand_starved (hm : st.table.lookup name = some m) (hx : m.expanding = false) :
    (Expansion.expand 0 name s st out).parts = (s, { st with starved := true }, out) := by
  unfold Expansion.expand
  simp only [hm, hx, Bool.false_eq_true, if_false]
  rfl

theorem expand_fault (hm : st.table.lookup name = some m) (hx : m.expanding = false) {fault : Fault}
    (h : (takeArguments (Expansion.expand budget) m.params s (st.enter name)).parts =
      (rest, bound, text, some fault)) :
    (Expansion.expand (budget + 1) name s st out).parts =
      (rest, (bound.report fault).leave name, out) := by
  simp only [Gathered.parts, Prod.mk.injEq] at h
  obtain ⟨rfl, rfl, -, hf⟩ := h
  unfold Expansion.expand
  simp only [hm, hx, hf, Bool.false_eq_true, if_false]
  rfl

theorem expand_body (hm : st.table.lookup name = some m) (hx : m.expanding = false)
    (h : (takeArguments (Expansion.expand budget) m.params s (st.enter name)).parts =
      (rest, bound, text, none)) :
    (Expansion.expand (budget + 1) name s st out).parts =
      (rest, (rescan (Expansion.expand budget) m.body bound out).1.leave name,
        (rescan (Expansion.expand budget) m.body bound out).2) := by
  simp only [Gathered.parts, Prod.mk.injEq] at h
  obtain ⟨rfl, rfl, -, hf⟩ := h
  unfold Expansion.expand
  simp only [hm, hx, hf, Bool.false_eq_true, if_false]
  rfl

end Expand

/-! ### Tokens -/

theorem ofScan_eq_some {scanner : Scan}
    {lt : ∀ {s rest out out'}, scanner s out = some (rest, out') → rest.length < s.length}
    {p : Progress s} (h : Progress.ofScan scanner lt s st out = some p) :
    scanner s out = some (p.rest, p.out) ∧ p.state = st := by
  unfold Progress.ofScan at h
  split at h
  · exact absurd h (by simp)
  · rename_i hs
    obtain rfl := Option.some.inj h
    exact ⟨hs, rfl⟩

/-- A lexeme that was recognised and copied. -/
theorem lexeme_of_map {found? : Option (Text × Text)} {rest : Text} {out' : Buffer}
    (h : (found?.map fun found => (found.2, out.append found.1)) = some (rest, out')) :
    ∃ lexeme, found? = some (lexeme, rest) ∧ out' = out.append lexeme := by
  obtain ⟨⟨lexeme, rest⟩, hfound, hdone⟩ := Option.map_eq_some_iff.1 h
  obtain ⟨rfl, rfl⟩ := Prod.mk.inj hdone
  exact ⟨lexeme, hfound, rfl⟩

theorem number_eq_some {p : Progress s} (h : Progress.number s st out = some p) :
    ∃ lexeme, Lexeme.number? s = some (lexeme, p.rest) ∧ p.out = out.append lexeme ∧
      p.state = st := by
  obtain ⟨hscan, hstate⟩ := ofScan_eq_some h
  obtain ⟨lexeme, hfound, hout⟩ := lexeme_of_map hscan
  exact ⟨lexeme, hfound, hout, hstate⟩

theorem quoted_eq_some {p : Progress s} (h : Progress.quoted s st out = some p) :
    ∃ lexeme, Lexeme.quoted? s = some (lexeme, p.rest) ∧ p.out = out.append lexeme ∧
      p.state = st := by
  obtain ⟨hscan, hstate⟩ := ofScan_eq_some h
  obtain ⟨lexeme, hfound, hout⟩ := lexeme_of_map hscan
  exact ⟨lexeme, hfound, hout, hstate⟩

theorem number_reads {p : Progress s} (h : Progress.number s st out = some p) :
    Reads expand s st 0 p.rest p.state := by
  obtain ⟨lexeme, hfound, -, hstate⟩ := number_eq_some h
  rw [hstate]
  exact .skip_start ⟨lexeme, Lexeme.number?_append hfound⟩

theorem quoted_reads {p : Progress s} (h : Progress.quoted s st out = some p) :
    Reads expand s st 0 p.rest p.state := by
  obtain ⟨lexeme, hfound, -, hstate⟩ := quoted_eq_some h
  rw [hstate]
  exact .skip_start ⟨lexeme, Lexeme.quoted?_append hfound⟩

theorem paste_reads {p : Progress s} (h : Progress.paste s st out = some p) :
    Reads expand s st 0 p.rest p.state := by
  obtain ⟨hs, hst⟩ := ofScan_eq_some h
  obtain ⟨found, hf, hr⟩ := Option.map_eq_some_iff.1 hs
  obtain ⟨hrest, -⟩ := Prod.mk.inj hr
  rw [hst, ← hrest]
  exact .skip_start (Lexeme.paste?_suffix hf)

theorem scanCall_reads {p : Progress s} (h : scanCall expand s st out = some p) :
    Reads expand s st 0 p.rest p.state := by
  unfold scanCall at h
  split at h
  · exact absurd h (by simp)
  · rename_i name rest hn
    have hs : rest <:+ s := ⟨name, Lexeme.name?_append hn⟩
    dsimp only at h
    split at h
    · obtain rfl := Option.some.inj h
      exact .call _ _ (.skip_start hs)
    · split at h
      · exact absurd h (by simp)
      · split at h
        · obtain rfl := Option.some.inj h
          exact .skip_start hs
        · split at h
          · obtain rfl := Option.some.inj h
            exact .call _ _ (.skip_start hs)
          · exact absurd h (by simp)

theorem stringize_reads {p : Progress s} (h : stringize expand s st out = some p) :
    Reads expand s st 0 p.rest p.state := by
  unfold stringize at h
  split at h
  · exact absurd h (by simp)
  · rename_i c r
    split at h
    · obtain ⟨q, hq, rfl⟩ := Option.map_eq_some_iff.1 h
      refine .of_suffix ((Text.skipBlanks_suffix r).trans (List.suffix_cons c r)) ?_
      rcases Option.or_eq_some_iff.1 hq with hq | ⟨-, hq⟩
      · exact scanCall_reads hq
      · exact number_reads hq
    · exact absurd h (by simp)

theorem bodyToken_reads {p : Progress s} (h : bodyToken expand s st out = some p) :
    Reads expand s st 0 p.rest p.state := by
  simp only [bodyToken, Option.or_eq_some_iff] at h
  rcases h with h | ⟨-, h | ⟨-, h | ⟨-, h | ⟨-, h⟩⟩⟩⟩
  · exact scanCall_reads h
  · exact number_reads h
  · exact quoted_reads h
  · exact paste_reads h
  · exact stringize_reads h

theorem argumentToken_reads {p : Progress s} (h : argumentToken expand s st out = some p) :
    Reads expand s st 0 p.rest p.state := by
  simp only [argumentToken, Option.or_eq_some_iff] at h
  rcases h with h | ⟨-, h | ⟨-, h | ⟨-, h | ⟨-, h⟩⟩⟩⟩
  · exact number_reads h
  · exact scanCall_reads h
  · exact quoted_reads h
  · exact paste_reads h
  · exact stringize_reads h

/-! ### Bodies and arguments -/

theorem rescan_reads (expand : Expander) (s : Text) (st : State) (out : Buffer) :
    Reads expand s st 0 [] (rescan expand s st out).1 := by
  fun_induction rescan expand s st out with
  | case1 => exact .start
  | case2 st out c r p hp ih => exact (bodyToken_reads hp).trans_zero ih
  | case3 st out c r _ ih => exact .of_suffix (List.suffix_cons c r) ih

theorem scanArgument_reads (expand : Expander) (s : Text) (st : State) (out : Buffer)
    (depth : Nat) :
    Reads expand s st 0 (scanArgument expand s st out depth).rest
      (scanArgument expand s st out depth).state := by
  fun_induction scanArgument expand s st out depth with
  | case1 => exact .start
  | case2 s st out depth _ p hp ih => exact (argumentToken_reads hp).trans_zero ih
  | case3 => exact .start
  | case4 => exact .start
  | case5 st out depth c r _ _ _ ih => exact .of_suffix (List.suffix_cons c r) ih

theorem angleArgument_reads (s : Text) (st : State) :
    Reads expand s st 0 (angleArgument s st).rest (angleArgument s st).state := by
  unfold angleArgument
  have happend := Lexeme.angleText_append s
  split
  · rename_i text c rest h
    rw [h] at happend
    have hs : c :: rest <:+ s := ⟨text, happend⟩
    dsimp only
    split
    · exact .skip_start ((List.suffix_cons c rest).trans hs)
    · exact .skip_start hs
  · exact .skip_start (List.nil_suffix)

theorem collectArgument_reads (expand : Expander) (s : Text) (st : State) :
    Reads expand s st 0 (collectArgument expand s st).rest (collectArgument expand s st).state := by
  unfold collectArgument
  split
  · exact scanArgument_reads expand [] st {} 0
  · rename_i c r
    split
    · exact .of_suffix (List.suffix_cons c r) (angleArgument_reads r st)
    · exact scanArgument_reads expand (c :: r) st {} 0

theorem argument_reads (expand : Expander) (inParens : Bool) (s : Text) (st : State) :
    Reads expand s st 0 (argument expand inParens s st).rest
      (argument expand inParens s st).state := by
  unfold argument
  split
  · exact .start
  · exact collectArgument_reads expand s st

/-- Arguments are bound up to the parameter at which the list goes wrong, if it does. -/
theorem bindArguments_reads (expand : Expander) (inParens : Bool) (params : List String)
    (s : Text) (st : State) :
    ∃ n ≤ params.length, Reads expand s st n (bindArguments expand inParens params s st).rest
      (bindArguments expand inParens params s st).state := by
  induction params generalizing s st with
  | nil => exact ⟨0, Nat.le_refl _, .start⟩
  | cons param others ih =>
    have hgot := argument_reads expand inParens (Text.skipBlanks s) st
    have hreads := Reads.of_suffix (Text.skipBlanks_suffix s) hgot
    rw [bindArguments]
    dsimp only
    split
    · exact ⟨0, Nat.zero_le _, hreads⟩
    · have hbound := Reads.skip (Text.skipBlanks_suffix _) (hreads.bind param
        (argument expand inParens (Text.skipBlanks s) st).text.chomp.toText)
      split
      · exact ⟨1, by simp, hbound⟩
      · split
        · obtain ⟨n, hn, h⟩ := ih _ (State.bind _ param _)
          refine ⟨1 + n, by simp only [List.length_cons]; omega, ?_⟩
          exact (Reads.skip (List.tail_suffix _) hbound).trans h
        · exact ⟨1, by simp, hbound⟩

theorem skipSurplus_end {depth : Nat} (hend : Text.atEndOfStatement s = true) :
    skipSurplus s depth = s := by
  rw [skipSurplus.eq_def, if_pos hend]

theorem skipSurplus_quoted {depth : Nat} (hend : Text.atEndOfStatement s = false)
    {lexeme rest : Text} (hq : Lexeme.quoted? s = some (lexeme, rest)) :
    skipSurplus s depth = skipSurplus rest depth := by
  rw [skipSurplus.eq_def, if_neg (by simp [hend])]
  split
  · rename_i hq'
    obtain ⟨-, rfl⟩ := Prod.mk.inj (Option.some.inj (hq.symm.trans hq'))
    rfl
  · rename_i hq'
    exact absurd (hq.symm.trans hq') (by simp)

theorem skipSurplus_byte {depth : Nat} {c : Byte} {r : Text}
    (hend : Text.atEndOfStatement (c :: r) = false) (hq : Lexeme.quoted? (c :: r) = none) :
    skipSurplus (c :: r) depth =
      if c = closeParen ∧ depth = 0 then r else skipSurplus r (depthAfter depth c) := by
  rw [skipSurplus.eq_def, if_neg (by simp [hend])]
  split
  · rename_i hq'
    exact absurd (hq.symm.trans hq') (by simp)
  · unfold depthAfter
    dsimp only
    by_cases ho : c = openParen
    · subst ho
      rw [if_pos rfl, if_pos rfl, if_neg (by simp [openParen, closeParen])]
    · by_cases hc : c = closeParen
      · subst hc
        rw [if_neg ho, if_neg ho, if_pos rfl, if_pos rfl]
        by_cases hd : depth = 0
        · rw [if_pos hd, if_pos ⟨rfl, hd⟩]
        · rw [if_neg hd, if_neg (fun h => hd h.2)]
      · rw [if_neg ho, if_neg ho, if_neg hc, if_neg hc, if_neg (fun h => hc h.1)]

theorem skipSurplus_suffix (s : Text) (depth : Nat) : skipSurplus s depth <:+ s := by
  fun_induction skipSurplus s depth with
  | case1 => exact List.suffix_rfl
  | case2 s depth _ lexeme rest h ih => exact ih.trans ⟨lexeme, Lexeme.quoted?_append h⟩
  | case3 => exact List.suffix_rfl
  | case4 depth r _ _ ih => exact ih.trans (List.suffix_cons _ r)
  | case5 r => exact List.suffix_cons _ r
  | case6 depth r _ _ _ _ ih => exact ih.trans (List.suffix_cons _ r)
  | case7 depth c r _ _ _ _ ih => exact ih.trans (List.suffix_cons c r)

theorem closeArguments_reads (inParens : Bool) (s : Text) (st : State) :
    Reads expand s st 0 (closeArguments inParens s st).rest
      (closeArguments inParens s st).state := by
  unfold closeArguments
  split
  · split
    · exact .report _ .start
    · rename_i c r
      split
      · exact .skip_start (List.suffix_cons c r)
      · split
        · exact .report _ (.skip_start (skipSurplus_suffix _ 0))
        · exact .report _ .start
  · split
    · exact .start
    · exact .report _ .start

theorem openArguments_suffix (s : Text) : (openArguments s).2 <:+ s := by
  have hblanks := Text.skipBlanks_suffix s
  unfold openArguments
  split
  · exact List.nil_suffix
  · rename_i c r h
    rw [h] at hblanks
    split
    · exact ((Text.skipBlanks_suffix r).trans (List.suffix_cons c r)).trans hblanks
    · exact hblanks

theorem collectArguments_reads (expand : Expander) (params : List String) (s : Text) (st : State) :
    ∃ n ≤ params.length, Reads expand s st n (collectArguments expand params s st).rest
      (collectArguments expand params s st).state := by
  obtain ⟨n, hn, h⟩ :=
    bindArguments_reads expand (openArguments s).1 params (openArguments s).2 st
  refine ⟨n, hn, .of_suffix (openArguments_suffix s) ?_⟩
  unfold collectArguments
  dsimp only
  split
  · exact h
  · exact h.trans (closeArguments_reads _ _ _)

theorem takeArguments_reads (expand : Expander) (params : List String) (s : Text) (st : State) :
    ∃ n ≤ params.length, Reads expand s st n (takeArguments expand params s st).rest
      (takeArguments expand params s st).state := by
  unfold takeArguments
  split
  · exact ⟨0, Nat.zero_le _, .start⟩
  · exact collectArguments_reads expand params s st

/-! ### Expansion -/

/-- The ways an expansion can go, each with the text and the state it ends in. -/
inductive Outcome (budget : Nat) (name : String) (s : Text) (st : State) : Text → State → Prop
  | unknown (h : st.table.lookup name = none) : Outcome budget name s st s st
  | recursive {m : Macro} (h : st.table.lookup name = some m) (hx : m.expanding = true) :
      Outcome budget name s st s (st.report (.macroRecursion name))
  | starved {m : Macro} (h : st.table.lookup name = some m) (hx : m.expanding = false)
      (hb : budget = 0) : Outcome budget name s st s { st with starved := true }
  /-- Arguments are collected in the scope of the macro; then the body is scanned, or left at
  once when an argument is at fault. -/
  | opened {m : Macro} {b n : Nat} {rest left : Text} {bound made : State}
      (h : st.table.lookup name = some m) (hx : m.expanding = false) (hb : budget = b + 1)
      (hn : n ≤ m.params.length)
      (hbound : Reads (Expansion.expand b) s (st.enter name) n rest bound)
      (hmade : Reads (Expansion.expand b) m.body bound 0 left made) :
      Outcome budget name s st rest (made.leave name)

theorem expand_outcome (budget : Nat) (name : String) (s : Text) (st : State) (out : Buffer) :
    Outcome budget name s st (Expansion.expand budget name s st out).rest
      (Expansion.expand budget name s st out).state := by
  unfold Expansion.expand
  split
  · rename_i h
    exact .unknown h
  · rename_i m h
    split
    · rename_i hx
      exact .recursive h hx
    · rename_i hx
      have hx : m.expanding = false := by simpa using hx
      split
      · exact .starved h hx rfl
      · rename_i b
        obtain ⟨n, hn, hr⟩ := takeArguments_reads (Expansion.expand b) m.params s (st.enter name)
        dsimp only
        split
        · exact .opened h hx rfl hn hr (.report _ .start)
        · exact .opened h hx rfl hn hr (rescan_reads _ _ _ _)

end AsmPrep.Expansion

/-! ### Lines -/

namespace AsmPrep.Statement

open Expansion

variable {expand : Expander} {s : Text} {st : State} {out : Buffer}

theorem token_reads {isName : Bool} {p : Progress s}
    (h : token expand s st out = some (isName, p)) :
    Reads expand s st 0 p.rest p.state := by
  simp only [token, Option.or_eq_some_iff, Option.map_eq_some_iff, Prod.mk.injEq] at h
  rcases h with ⟨q, hq, -, rfl⟩ | ⟨-, ⟨q, hq, -, rfl⟩ | ⟨-, q, hq, -, rfl⟩⟩
  · exact number_reads hq
  · exact scanCall_reads hq
  · rcases hq with hq | ⟨-, hq | ⟨-, hq⟩⟩
    · exact quoted_reads hq
    · exact paste_reads hq
    · exact stringize_reads hq

theorem splitFrom_nil (expand : Expander) (st : State) (out : Buffer) (n : Counts) :
    splitFrom expand [] st out n = (st, [out.toText]) := by
  rw [splitFrom]

section Step

variable {c : Byte} {r : Text} {n : Counts}

theorem splitFrom_token {isName : Bool} {p : Progress (c :: r)}
    (h : token expand (c :: r) st out = some (isName, p)) :
    splitFrom expand (c :: r) st out n =
      splitFrom expand p.rest p.state p.out (if isName then n.name else n.other) := by
  rw [splitFrom.eq_def]
  simp only [h]

theorem splitFrom_comment (h : token expand (c :: r) st out = none) (he : effect c n = .comment) :
    splitFrom expand (c :: r) st out n = (st, [(out.push Byte.newline).toText]) := by
  rw [splitFrom.eq_def]
  simp only [h, he]

theorem splitFrom_cut (h : token expand (c :: r) st out = none) (he : effect c n = .cut) :
    splitFrom expand (c :: r) st out n =
      (splitFrom expand r st {} {}).map id ((out.push Byte.newline).toText :: ·) := by
  rw [splitFrom.eq_def]
  simp only [h, he]

theorem splitFrom_keep {n' : Counts} (h : token expand (c :: r) st out = none)
    (he : effect c n = .keep n') :
    splitFrom expand (c :: r) st out n = splitFrom expand r st (out.push c) n' := by
  rw [splitFrom.eq_def]
  simp only [h, he]

end Step

/-- A line is read to its end. -/
theorem splitFrom_reads (expand : Expander) (s : Text) (st : State) (out : Buffer) (n : Counts) :
    Reads expand s st 0 [] (splitFrom expand s st out n).1 := by
  fun_induction splitFrom expand s st out n with
  | case1 => exact .start
  | case2 st out n c r isName p hp ih => exact (token_reads hp).trans_zero ih
  | case3 => exact .skip_start List.nil_suffix
  | case4 st out n c r _ _ ih => exact .of_suffix (List.suffix_cons c r) ih
  | case5 st out n c r _ n' _ ih => exact .of_suffix (List.suffix_cons c r) ih

end AsmPrep.Statement
