/-
Argument lists that call nothing.

What is bound to the parameters of a macro is a matter of the text alone as long as no
argument calls anything.  An argument is read with the names of the table known and those of
the parameters that have an argument already, for the scope of the macro is open by then.
-/
import AsmPrep.Proofs.Macro.Literal
import AsmPrep.Proofs.Macro.Balance

namespace AsmPrep.Expansion

open Byte

/-! ### One argument -/

/-- The text after an opening angle bracket, taken as it stands. -/
def angleReading (s : Text) : Reading :=
  match Lexeme.angleText s with
  | (text, c :: rest) =>
    if c = closeAngle then { items := [.copy text], rest }
    else { rest := c :: rest, fault := some .unclosedAngle }
  | (_, []) => { rest := [], fault := some .unclosedAngle }

/-- The argument at the start of a text. -/
def argumentReading (known : String → Bool) (inParens : Bool) (s : Text) : Reading :=
  if isEmptyArgument inParens s then { rest := s }
  else match s with
    | [] => argumentItems known [] 0
    | c :: r => if c = openAngle then angleReading r else argumentItems known (c :: r) 0

theorem argumentItems_suffix (known : String → Bool) (s : Text) (depth : Nat) :
    (argumentItems known s depth).rest <:+ s := by
  fun_induction argumentItems known s depth with
  | case1 => exact List.suffix_rfl
  | case2 => exact List.suffix_rfl
  | case3 depth c r _ item rest hitem ih => exact ih.trans (argumentItem_shorter hitem).1
  | case4 => exact List.suffix_rfl
  | case5 depth c r _ _ _ ih => exact ih.trans (List.suffix_cons c r)

theorem angleReading_suffix (s : Text) : (angleReading s).rest <:+ s := by
  have happend := Lexeme.angleText_append s
  unfold angleReading
  split
  · rename_i text c rest h
    rw [h] at happend
    have hs : c :: rest <:+ s := ⟨text, happend⟩
    split
    · exact (List.suffix_cons c rest).trans hs
    · exact hs
  · exact List.nil_suffix

theorem argumentReading_suffix (known : String → Bool) (inParens : Bool) (s : Text) :
    (argumentReading known inParens s).rest <:+ s := by
  unfold argumentReading
  split
  · exact List.suffix_rfl
  · cases s with
    | nil => exact argumentItems_suffix known [] 0
    | cons c r =>
      dsimp only
      by_cases hc : c = openAngle
      · rw [if_pos hc]
        exact (angleReading_suffix r).trans (List.suffix_cons c r)
      · rw [if_neg hc]
        exact argumentItems_suffix known (c :: r) 0

theorem argumentReading_less {known known' : String → Bool} {inParens : Bool} {s : Text}
    (h : KnowsLess known' known s) (hlit : Literal (argumentReading known inParens s).items) :
    argumentReading known' inParens s = argumentReading known inParens s := by
  unfold argumentReading at hlit ⊢
  split
  · rfl
  · rename_i hempty
    rw [if_neg hempty] at hlit
    split
    · exact argumentItems_less h hlit
    · rename_i c r
      split
      · rfl
      · rename_i hc
        dsimp only at hlit
        rw [if_neg hc] at hlit
        exact argumentItems_less h hlit

theorem angleArgument_parts (value : String → Buffer → Buffer) (s : Text) (st : State) :
    (angleArgument s st).parts =
      ((angleReading s).rest, st, Item.writeAll value (angleReading s).items {},
        (angleReading s).fault) := by
  unfold angleArgument
  split
  · rename_i text c rest h
    have hbuffer : Buffer.ofText text = ({} : Buffer).append text :=
      Buffer.ext_toText (by simp)
    have hreading : angleReading s =
        if c = closeAngle then { items := [.copy text], rest }
        else { rest := c :: rest, fault := some .unclosedAngle } := by
      rw [angleReading, h]
    rw [hreading]
    dsimp only
    by_cases hc : c = closeAngle
    · rw [if_pos hc, if_pos hc, hbuffer]
      rfl
    · rw [if_neg hc, if_neg hc]
      rfl
  · rename_i text h
    have hreading : angleReading s = { rest := [], fault := some .unclosedAngle } := by
      rw [angleReading, h]
    rw [hreading]
    rfl

/-- What a literal argument comes to: its items, written down. -/
theorem argument_literal (expand : Expander) (value : String → Buffer → Buffer) {inParens : Bool}
    {s : Text} {st : State}
    (h : Literal (argumentReading st.table.contains inParens s).items) :
    (argument expand inParens s st).parts =
      ((argumentReading st.table.contains inParens s).rest, st,
        Item.writeAll value (argumentReading st.table.contains inParens s).items {},
        (argumentReading st.table.contains inParens s).fault) := by
  unfold argumentReading at h ⊢
  unfold argument
  by_cases hempty : isEmptyArgument inParens s = true
  · rw [if_pos hempty, if_pos hempty]
    rfl
  · rw [if_neg hempty] at h
    rw [if_neg hempty, if_neg hempty]
    unfold collectArgument
    cases s with
    | nil => exact scanArgument_literal value h
    | cons c r =>
      dsimp only at h ⊢
      by_cases hc : c = openAngle
      · rw [if_pos hc, if_pos hc]
        exact angleArgument_parts value r st
      · rw [if_neg hc] at h
        rw [if_neg hc, if_neg hc]
        exact scanArgument_literal value h

/-! ### The list -/

/-- A list of arguments as it is read: the texts to bind, what follows, the faults reported on
the way, and the fault for which the expansion is dropped. -/
structure ArgumentList where
  texts : List Text := []
  rest : Text
  reported : List Fault := []
  fault : Option Fault := none

/-- The text that a literal argument is bound as. -/
def Reading.text (reading : Reading) : Text :=
  (Item.writeAll (fun _ out => out) reading.items {}).chomp.toText

/-- As many arguments as there are parameters, with no name known. -/
def readArguments (inParens : Bool) : Nat → Text → ArgumentList
  | 0, s => { rest := s }
  | n + 1, s =>
    let got := argumentReading (fun _ => false) inParens (Text.skipBlanks s)
    match got.fault with
    | some fault => { rest := got.rest, fault := some fault }
    | none =>
      let next := Text.skipBlanks got.rest
      if n = 0 then { texts := [got.text], rest := next }
      else if next.head? = some comma then
        let others := readArguments inParens n next.tail
        { others with texts := got.text :: others.texts }
      else { texts := [got.text], rest := next, fault := some .missingArguments }

/-- None of `n` arguments calls anything, when the names known to each are those. -/
def Quiet (inParens : Bool) : (Nat → String → Bool) → Nat → Text → Prop
  | _, 0, _ => True
  | known, n + 1, s =>
    let got := argumentReading (known 0) inParens (Text.skipBlanks s)
    Literal got.items ∧
      (got.fault = none → (Text.skipBlanks got.rest).head? = some comma →
        Quiet inParens (fun i => known (i + 1)) n (Text.skipBlanks got.rest).tail)

/-- The names known to each argument: those given, and the parameters before its own. -/
def knowing (known : String → Bool) (params : List String) (i : Nat) (name : String) : Bool :=
  known name || (params.take i).contains name

/-- A quiet list stays quiet when fewer names are known. -/
theorem Quiet.less {inParens : Bool} {known known' : Nat → String → Bool} {n : Nat} {s : Text}
    (h : Quiet inParens known n s) (hless : ∀ i, KnowsLess (known' i) (known i) s) :
    Quiet inParens known' n s := by
  induction n generalizing known known' s with
  | zero => exact trivial
  | succ n ih =>
    obtain ⟨hlit, hnext⟩ := h
    have hblanks := Text.skipBlanks_suffix s
    have hsame := argumentReading_less ((hless 0).suffix hblanks) hlit
    rw [Quiet, hsame]
    refine ⟨hlit, ?_⟩
    intro hfault hcomma
    refine ih (hnext hfault hcomma) ?_
    intro i
    have hrest := argumentReading_suffix (known 0) inParens (Text.skipBlanks s)
    exact (hless (i + 1)).suffix
      ((List.tail_suffix _).trans ((Text.skipBlanks_suffix _).trans (hrest.trans hblanks)))

/-- What is known makes no difference to a literal argument. -/
theorem argumentReading_unknown {known : String → Bool} {inParens : Bool} {s : Text}
    (h : Literal (argumentReading known inParens s).items) :
    argumentReading (fun _ => false) inParens s = argumentReading known inParens s := by
  refine argumentReading_less ?_ h
  intro name _ hn
  exact absurd hn (by simp)

/-- Binds texts to names in order. -/
def State.bindAll (st : State) (bindings : List (String × Text)) : State :=
  bindings.foldl (fun st binding => st.bind binding.1 binding.2) st

/-- What is known to the arguments after the first, once that is bound. -/
theorem knowing_bind (t : MacroTable) (param : String) (others : List String) (body : Text) :
    knowing (t.bind param body).contains others =
      fun i => knowing t.contains (param :: others) (i + 1) := by
  funext i name
  simp only [knowing, MacroTable.contains_bind, List.take_succ_cons, List.contains_cons,
    Bool.or_assoc]

theorem bindArguments_quiet (expand : Expander) {inParens : Bool} {params : List String} {s : Text}
    {st : State} (h : Quiet inParens (knowing st.table.contains params) params.length s) :
    let list := readArguments inParens params.length s
    (bindArguments expand inParens params s st).parts =
      (list.rest, st.bindAll (params.zip list.texts), {}, list.fault) := by
  induction params generalizing s st with
  | nil => rfl
  | cons param others ih =>
    obtain ⟨hlit, hnext⟩ := h
    have hknown : knowing st.table.contains (param :: others) 0 = st.table.contains := by
      funext name
      simp [knowing]
    rw [hknown] at hlit hnext
    have hgot := argument_literal expand (fun _ out => out) hlit
    dsimp only
    rw [List.length_cons, readArguments, argumentReading_unknown hlit]
    dsimp only
    generalize argumentReading st.table.contains inParens (Text.skipBlanks s) = got at *
    cases hf : got.fault with
    | some fault =>
      rw [hf] at hgot
      rw [bindArguments_fault hgot]
      rfl
    | none =>
      rw [hf] at hgot
      by_cases ho : others = []
      · subst ho
        rw [bindArguments_last hgot]
        rfl
      · have hlength : others.length ≠ 0 := by simpa using ho
        by_cases hr : (Text.skipBlanks got.rest).head? = some comma
        · obtain ⟨r, hr'⟩ := List.head?_eq_some_iff.1 hr
          have hquiet := hnext hf hr
          rw [← knowing_bind st.table param others got.text] at hquiet
          rw [bindArguments_next ho hgot hr']
          simp only [hlength, hr, if_false, if_true]
          rw [hr', List.tail_cons] at hquiet ⊢
          exact ih hquiet
        · rw [bindArguments_missing ho hgot hr]
          simp only [hlength, hr, if_false, List.zip_cons_cons, List.zip_nil_right]
          rfl

/-- How a list of bound arguments ends: what is left, and what is reported. -/
def closing (inParens : Bool) (s : Text) : Text × List Fault :=
  if inParens then
    match s with
    | [] => ([], [.unclosedParen])
    | c :: r =>
      if c = closeParen then (r, [])
      else if c = comma then (skipSurplus (c :: r) 0, [.extraArguments])
      else (c :: r, [.unclosedParen])
  else if Text.atEndOfStatement s then (s, [])
  else (s, [.extraArguments])

theorem closeArguments_parts (inParens : Bool) (s : Text) (st : State) :
    (closeArguments inParens s st).parts =
      ((closing inParens s).1, { st with faults := st.faults ++ (closing inParens s).2 },
        {}, none) := by
  have hsilent : { st with faults := st.faults ++ [] } = st := by rw [List.append_nil]
  unfold closeArguments closing
  cases inParens with
  | true =>
    simp only [if_true]
    cases s with
    | nil => rfl
    | cons c r =>
      dsimp only
      by_cases hc : c = closeParen
      · rw [if_pos hc, if_pos hc, hsilent]
        rfl
      · rw [if_neg hc, if_neg hc]
        by_cases hcomma : c = comma
        · rw [if_pos hcomma, if_pos hcomma]
          rfl
        · rw [if_neg hcomma, if_neg hcomma]
          rfl
  | false =>
    simp only [Bool.false_eq_true, if_false]
    by_cases he : Text.atEndOfStatement s = true
    · rw [if_pos he, if_pos he, hsilent]
      rfl
    · rw [if_neg he, if_neg he]
      rfl

/-- The arguments of a call to a macro with `n` parameters, with no name known. -/
def readCall (n : Nat) (s : Text) : ArgumentList :=
  if n = 0 then { rest := s }
  else
    let list := readArguments (openArguments s).1 n (openArguments s).2
    match list.fault with
    | some _ => list
    | none =>
      let closed := closing (openArguments s).1 list.rest
      { list with rest := closed.1, reported := closed.2 }

/-- None of the arguments of a call with those parameters calls anything. -/
def QuietCall (known : String → Bool) (params : List String) (s : Text) : Prop :=
  Quiet (openArguments s).1 (knowing known params) params.length (openArguments s).2

theorem readArguments_reported (inParens : Bool) (n : Nat) (s : Text) :
    (readArguments inParens n s).reported = [] := by
  induction n generalizing s with
  | zero => rfl
  | succ n ih =>
    rw [readArguments]
    dsimp only
    split
    · rfl
    · split
      · rfl
      · split
        · exact ih _
        · rfl

/-- A list without a fault has a text for every parameter. -/
theorem readArguments_length {inParens : Bool} {n : Nat} {s : Text}
    (h : (readArguments inParens n s).fault = none) :
    (readArguments inParens n s).texts.length = n := by
  induction n generalizing s with
  | zero => rfl
  | succ n ih =>
    rw [readArguments] at h ⊢
    dsimp only at h ⊢
    split
    · rename_i hf
      simp only [hf] at h
      exact absurd h (by simp)
    · rename_i hf
      simp only [hf] at h
      split
      · rename_i hn
        rw [hn, List.length_singleton]
      · rename_i hn
        rw [if_neg hn] at h
        split
        · rename_i hcomma
          rw [if_pos hcomma] at h
          rw [List.length_cons, ih h]
        · rename_i hcomma
          rw [if_neg hcomma] at h
          exact absurd h (by simp)

theorem readCall_length {n : Nat} {s : Text} (h : (readCall n s).fault = none) :
    (readCall n s).texts.length = n := by
  unfold readCall at h ⊢
  split
  · rename_i hn
    rw [hn]
    rfl
  · rename_i hn
    rw [if_neg hn] at h
    dsimp only at h ⊢
    cases hf : (readArguments (openArguments s).1 n (openArguments s).2).fault with
    | some fault =>
      simp only [hf] at h
      exact absurd h (by simp)
    | none => exact readArguments_length hf

/-- **Arguments that call nothing are bound as they are read.** -/
theorem takeArguments_quiet (expand : Expander) {params : List String} {s : Text} (st : State)
    (h : QuietCall st.table.contains params s) :
    let list := readCall params.length s
    (takeArguments expand params s st).parts =
      (list.rest,
        { st.bindAll (params.zip list.texts) with
          faults := (st.bindAll (params.zip list.texts)).faults ++ list.reported },
        {}, list.fault) := by
  have hsilent : ∀ st : State, { st with faults := st.faults ++ [] } = st := by
    intro st
    rw [List.append_nil]
  have hbound := bindArguments_quiet expand h
  dsimp only at hbound ⊢
  by_cases hp : params = []
  · subst hp
    show (s, st, _, _) = (s, { st with faults := st.faults ++ [] }, _, _)
    rw [hsilent]
    rfl
  · have hempty : ¬ params.isEmpty = true := by simpa using hp
    have hlength : params.length ≠ 0 := by simpa using hp
    rw [takeArguments, if_neg hempty, readCall, if_neg hlength]
    dsimp only
    cases hf : (readArguments (openArguments s).1 params.length (openArguments s).2).fault with
    | some fault =>
      rw [hf] at hbound
      rw [collectArguments_fault hbound, readArguments_reported, hsilent, hf]
    | none =>
      rw [hf] at hbound
      rw [collectArguments_close hbound, closeArguments_parts]

end AsmPrep.Expansion
