/-
Too many and too few arguments.

What a call has more arguments than its macro has parameters is reported first and dropped, with
the parenthesis that closes the list.  From there on the call is the one without them.

A call with too few arguments is reported and dropped.  It leaves nothing behind but the report,
and the parenthesis is still there.
-/
import AsmPrep.Proofs.Macro.Call
import AsmPrep.Proofs.Macro.Reports

namespace AsmPrep.Expansion

open Byte Text

variable {known : String → Bool} {args : List (List Token)} {blanks : Text} {n : Nat}

/-! ### Reading the list -/

/-- Surplus arguments are dropped with the parenthesis that closes their list. -/
theorem skipSurplus_joined (hargs : ∀ arg ∈ args, Argument known arg) (hne : args ≠ [])
    (after : Text) : skipSurplus (joined spell args (closeParen :: after)) 0 = after := by
  induction args with
  | nil => exact absurd rfl hne
  | cons arg others ih =>
    rw [List.forall_mem_cons] at hargs
    rw [joined_cons, skipSurplus_plain hargs.1.plain hargs.1.balanced]
    cases others with
    | nil => exact skipSurplus_byte rfl rfl
    | cons next others =>
      exact (skipSurplus_byte rfl rfl).trans (ih hargs.2 (List.cons_ne_nil next others))

section Call

variable (hblanks : ∀ c ∈ blanks, isBlank c = true) (hargs : ∀ arg ∈ args, Argument known arg)
  (hne : args ≠ []) (after : Text)
include hblanks hargs hne

theorem readCall_surplus (hn : n ≠ 0) (h : n < args.length) :
    readCall n (blanks ++ called true spell args after) =
      { texts := (args.take n).map fun arg => trim (spell arg)
        rest := after
        reported := [.extraArguments] } := by
  obtain ⟨next, others, hdrop⟩ : ∃ next others, args.drop n = next :: others :=
    List.exists_cons_of_ne_nil (by simpa using h)
  have hsurplus : ∀ arg ∈ next :: others, Argument known arg := by
    intro arg harg
    rw [← hdrop] at harg
    exact hargs arg (List.mem_of_mem_drop harg)
  have hclosing : closing true (behindFirst spell (args.drop n) (behindList true after)) =
      (after, [.extraArguments]) := by
    rw [hdrop]
    exact congrArg (·, [Fault.extraArguments]) ((skipSurplus_byte rfl rfl).trans
      (skipSurplus_joined hsurplus (List.cons_ne_nil next others) after))
  rw [readCall_first hblanks hne bareList_parens
    (fun arg harg => (hargs arg harg).taken true) hn, if_neg (Nat.not_lt.2 h.le),
    hclosing]

theorem readCall_missing (h : args.length < n) :
    readCall n (blanks ++ called true spell args after) =
      { texts := args.map fun arg => trim (spell arg)
        rest := closeParen :: after
        fault := some .missingArguments } := by
  rw [readCall_first hblanks hne bareList_parens
    (fun arg harg => (hargs arg harg).taken true) (Nat.ne_zero_of_lt h), if_pos h,
    List.take_of_length_le h.le, List.drop_of_length_le h.le]
  rfl

end Call

/-! ### The call -/

/-- The state with these texts bound in the scope of the macro, and nothing reported yet. -/
def State.bound (st : State) (name : String) (m : Macro) (texts : List Text) : State :=
  { (st.enter name).bindAll (m.params.zip texts) with faults := [] }

section Expand

variable {m : Macro} {st : State} {s : Text}

theorem takeArguments_bound (name : String) (e : Expander)
    (hquiet : QuietCall st.table.contains m.params s) :
    let list := readCall m.params.length s
    (takeArguments e m.params s (st.enter name)).parts =
      (list.rest, (st.bound name m list.texts).behind (st.faults ++ list.reported), {},
        list.fault) := by
  refine (takeArguments_quiet e (st.enter name)
    ((State.contains_enter st name).symm ▸ hquiet)).trans ?_
  rw [State.faults_bindAll]
  simp only [State.bound, State.behind, List.append_nil]
  rfl

variable {name : String} (budget : Nat) (hm : st.table.lookup name = some m)
  (hx : m.expanding = false)
include hm hx

/-- A call whose arguments are bound scans the body, with what was reported of them in front. -/
theorem expand_bound (hquiet : QuietCall st.table.contains m.params s) (out : Buffer)
    (hfault : (readCall m.params.length s).fault = none) :
    let list := readCall m.params.length s
    let made := rescan (expand budget) m.body (st.bound name m list.texts) out
    (expand (budget + 1) name s st out).parts =
      (list.rest, (made.1.behind (st.faults ++ list.reported)).leave name, made.2) := by
  intro list made
  have hbound := takeArguments_bound name (expand budget) hquiet
  dsimp only at hbound
  rw [hfault] at hbound
  rw [expand_body hm hx hbound, rescan_behind (expand_unmindful budget)]

/-- One whose arguments are not is dropped. -/
theorem expand_dropped (hquiet : QuietCall st.table.contains m.params s) (out : Buffer)
    {fault : Fault} (hfault : (readCall m.params.length s).fault = some fault) :
    let list := readCall m.params.length s
    (expand (budget + 1) name s st out).rest = list.rest ∧
      (expand (budget + 1) name s st out).out = out ∧
      (expand (budget + 1) name s st out).state.faults = st.faults ++ list.reported ++ [fault] := by
  intro list
  have hbound := takeArguments_bound name (expand budget) hquiet
  dsimp only at hbound
  rw [hfault] at hbound
  have hparts : (expand (budget + 1) name s st out).parts = _ := expand_fault hm hx hbound
  simp only [Expanded.parts, Prod.mk.injEq] at hparts
  obtain ⟨hrest, hstate, hout⟩ := hparts
  refine ⟨hrest, hout, ?_⟩
  rw [hstate]
  simp only [State.leave, State.report, State.behind, State.bound, List.append_nil]
  rfl

end Expand

/-- **A wrong number of arguments is reported once, and costs only the surplus.**  With too many
arguments the call is the one with only the first of them, but for one report more in front of
its own.  With too few it reports just that and writes nothing, and it ends before the
parenthesis. -/
theorem wrong_count_reported_once {budget : Nat} {name : String} {m : Macro} {st : State}
    (out : Buffer) (after : Text) (hm : st.table.lookup name = some m) (hx : m.expanding = false)
    (hparams : m.params ≠ []) (hne : args ≠ [])
    (hargs : ∀ arg ∈ args, Argument (inBody st.table m) arg)
    (hblanks : ∀ c ∈ blanks, isBlank c = true) (hbudget : st.table.weight ≤ budget) :
    let n := m.params.length
    let call (args : List (List Token)) :=
      expand budget name (blanks ++ called true spell args after) st out
    (n < args.length → ∃ reports,
      (call (args.take n)).state.faults = st.faults ++ reports ∧
        (call args).state = { (call (args.take n)).state with
          faults := st.faults ++ .extraArguments :: reports } ∧
        (call args).out = (call (args.take n)).out ∧
        (call args).rest = after ∧ (call (args.take n)).rest = after) ∧
      (args.length < n → (call args).state.faults = st.faults ++ [.missingArguments] ∧
        (call args).state.table = st.table ∧ (call args).out = out ∧
        (call args).rest = closeParen :: after) := by
  intro n call
  have hn : n ≠ 0 := (List.length_pos_iff.2 hparams).ne'
  obtain ⟨b, rfl⟩ : ∃ b, budget = b + 1 := by
    have hmark := MacroTable.weight_mark hm hx
    exact ⟨budget - 1, by omega⟩
  have hquiet : QuietCall st.table.contains m.params (blanks ++ called true spell args after) :=
    quietCall_called hblanks hne bareList_parens
      fun arg harg => (hargs arg harg).taken true
  constructor
  · intro hmore
    have hfirstTaken : ∀ arg ∈ args.take n,
        Taken (inBody st.table m) true (spell arg) (trim (spell arg)) :=
      fun arg harg => (hargs arg (List.mem_of_mem_take harg)).taken true
    have hfirstne : args.take n ≠ [] := by simp [hn, hne]
    have hlength : (args.take n).length = n := List.length_take_of_le hmore.le
    have hread := readCall_surplus hblanks hargs hne after hn hmore
    have hreadFirst : readCall (args.take n).length
        (blanks ++ called true spell (args.take n) after) = _ :=
      readCall_called hblanks hfirstne bareList_parens hfirstTaken
    rw [hlength] at hreadFirst
    have hquietFirst : QuietCall st.table.contains m.params
        (blanks ++ called true spell (args.take n) after) :=
      quietCall_called hblanks hfirstne bareList_parens hfirstTaken
    have hall : (call args).parts = _ := expand_bound b hm hx hquiet out (by rw [hread])
    have honly : (call (args.take n)).parts = _ :=
      expand_bound b hm hx hquietFirst out (by rw [hreadFirst])
    rw [hread] at hall
    rw [hreadFirst, List.append_nil] at honly
    simp only [Expanded.parts, Prod.mk.injEq] at hall honly
    obtain ⟨hrest, hstate, hout⟩ := hall
    obtain ⟨hrestFirst, hstateFirst, houtFirst⟩ := honly
    generalize rescan (expand b) m.body
      (st.bound name m ((args.take n).map fun arg => trim (spell arg))) out = made
      at hstate hout hstateFirst houtFirst
    refine ⟨made.1.faults, ?_, ?_, hout.trans houtFirst.symm, hrest, hrestFirst⟩
    · rw [hstateFirst]
      rfl
    · rw [hstateFirst, hstate]
      simp [State.leave, State.behind]
  · intro hfew
    have hread := readCall_missing hblanks hargs hne after hfew
    have hdropped := expand_dropped b hm hx hquiet out (by rw [hread])
    rw [hread] at hdropped
    obtain ⟨hrest, hout, hfaults⟩ := hdropped
    rw [List.append_nil] at hfaults
    exact ⟨hfaults, expand_table _ name _ st out, hout, hrest⟩

/-- A macro with two parameters, called with three arguments and with one. -/
theorem wrong_count_reported_once_twofold :
    let call (s : String) :=
      expand 3 "M" (ofString s) { table := { innermost := [("M", twofold)] } } {}
    ((call "(1,(2,3),4)+c").state =
        { (call "(1,(2,3))+c").state with faults := [.extraArguments] } ∧
      (call "(1,(2,3),4)+c").out = (call "(1,(2,3))+c").out ∧
      (call "(1,(2,3),4)+c").rest = ofString "+c") ∧
      (call "(1)+c").state.faults = [.missingArguments] ∧
      (call "(1)+c").out.toText = [] ∧ (call "(1)+c").rest = ofString ")+c" := by
  intro call
  let st : State := { table := { innermost := [("M", twofold)] } }
  let pair : List Token := [.byte 40, .number [50], .byte 44, .number [51], .byte 41]
  have hm : st.table.lookup "M" = some twofold := by decide +kernel
  have hargs : ∀ arg ∈ [[.number [49]], pair, [.number [52]]],
      Argument (inBody st.table twofold) arg := by
    intro arg harg
    rcases List.mem_cons.1 harg with rfl | harg
    · refine ⟨by decide +kernel, fun _ hname => ?_, by decide +kernel, by decide +kernel⟩
      simp at hname
    · rcases List.mem_pair.1 harg with rfl | rfl
      · refine ⟨by decide +kernel, fun _ hname => ?_, by decide +kernel, by decide +kernel⟩
        simp [pair] at hname
      · refine ⟨by decide +kernel, fun _ hname => ?_, by decide +kernel, by decide +kernel⟩
        simp at hname
  have hblanks : ∀ c ∈ ([] : Text), isBlank c = true := fun _ hc => absurd hc List.not_mem_nil
  have hweight : st.table.weight ≤ 3 := by decide
  have hone : ∀ arg ∈ [[.number [49]]], Argument (inBody st.table twofold) arg :=
    fun arg harg => hargs arg (List.mem_of_mem_take (i := 1) harg)
  have hmore := (wrong_count_reported_once {} (ofString "+c") hm rfl (by decide) (by decide) hargs
    hblanks hweight).1 (by decide)
  have hfew := (wrong_count_reported_once {} (ofString "+c") hm rfl (by decide) (by decide) hone
    hblanks hweight).2 (by decide)
  have hall : [] ++ called true spell [[.number [49]], pair, [.number [52]]] (ofString "+c") =
      ofString "(1,(2,3),4)+c" := by decide +kernel
  have hfirst : [] ++ called true spell
      ([[.number [49]], pair, [.number [52]]].take twofold.params.length) (ofString "+c") =
      ofString "(1,(2,3))+c" := by decide +kernel
  have hsingle : [] ++ called true spell [[.number [49]]] (ofString "+c") =
      ofString "(1)+c" := by decide +kernel
  beta_reduce at hmore hfew
  rw [hall, hfirst] at hmore
  rw [hsingle] at hfew
  obtain ⟨reports, hreports, hstate, hout, hrest, -⟩ := hmore
  obtain ⟨hfaults, -, hnothing, hparen⟩ := hfew
  have hquiet : (call "(1,(2,3))+c").state.faults = [] := by decide +kernel
  obtain rfl : reports = [] := hreports.symm.trans hquiet
  exact ⟨⟨hstate, hout, hrest⟩, hfaults, congrArg Buffer.toText hnothing, hparen⟩

end AsmPrep.Expansion
