/-
What was reported before makes no difference.

Expanding adds its reports to those there are and never looks at them.  So from a state with
more reports in front it comes to the same text, the same bytes and the same table, and what it
reports stands behind what was reported before.

This is shown of each scanner in turn, given that it holds of the calls it comes to, and then of
expanding, by induction on how deep calls are nested.
-/
import AsmPrep.Proofs.Macro.Arguments

namespace AsmPrep.Expansion

open Byte

variable {α : Type} {e : Expander} {st : State} {s : Text}

/-- The state with these reports before its own. -/
def State.behind (earlier : List Fault) (st : State) : State :=
  { st with faults := earlier ++ st.faults }

namespace State

variable (earlier : List Fault)

@[simp] theorem table_behind : (st.behind earlier).table = st.table := rfl

theorem report_behind (fault : Fault) :
    (st.behind earlier).report fault = (st.report fault).behind earlier := by
  simp only [report, behind, List.append_assoc]

theorem enter_behind (name : String) :
    (st.behind earlier).enter name = (st.enter name).behind earlier := rfl

theorem leave_behind (name : String) :
    (st.behind earlier).leave name = (st.leave name).behind earlier := rfl

end State

/-- What a scan came to, with these reports before its own. -/
def behind (earlier : List Fault) (done : Text × State × α) : Text × State × α :=
  (done.1, done.2.1.behind earlier, done.2.2)

/-- The expander comes to the same whatever was reported before. -/
def Unmindful (e : Expander) : Prop :=
  ∀ earlier name s st out,
    (e name s (st.behind earlier) out).parts = behind earlier (e name s st out).parts

section Scans

variable (he : Unmindful e) (earlier : List Fault)
include he

/-! ### Bodies -/

theorem Item.perform_behind (item : Item) (rest : Text) (st : State) (out : Buffer) :
    item.perform e rest (st.behind earlier) out = behind earlier (item.perform e rest st out) := by
  induction item generalizing out with
  | copy text => rfl
  | paste => rfl
  | call front name => exact he earlier name rest st _
  | spell item ih =>
    rw [perform, ih]
    rfl

theorem bodyToken_behind (s : Text) (st : State) (out : Buffer) :
    (bodyToken e s (st.behind earlier) out).map Progress.parts =
      (bodyToken e s st out).map fun p => behind earlier p.parts := by
  have htoken := congrArg (Option.map (behind earlier)) (bodyToken_perform e s st out)
  rw [Option.map_map, Option.map_map] at htoken
  rw [bodyToken_perform, State.table_behind]
  simp only [Item.perform_behind he earlier]
  exact htoken.symm

theorem argumentToken_behind (s : Text) (st : State) (out : Buffer) :
    (argumentToken e s (st.behind earlier) out).map Progress.parts =
      (argumentToken e s st out).map fun p => behind earlier p.parts := by
  have htoken := congrArg (Option.map (behind earlier)) (argumentToken_perform e s st out)
  rw [Option.map_map, Option.map_map] at htoken
  rw [argumentToken_perform, State.table_behind]
  simp only [Item.perform_behind he earlier]
  exact htoken.symm

theorem rescan_behind (s : Text) (st : State) (out : Buffer) :
    rescan e s (st.behind earlier) out =
      ((rescan e s st out).1.behind earlier, (rescan e s st out).2) := by
  fun_induction rescan e s st out with
  | case1 st out => exact rescan_nil e _ out
  | case2 st out c r p hp ih =>
    have htoken := bodyToken_behind he earlier (c :: r) st out
    rw [hp] at htoken
    obtain ⟨q, hq, hparts⟩ := Option.map_eq_some_iff.1 htoken
    simp only [Progress.parts, behind, Prod.mk.injEq] at hparts
    rw [rescan_some hq, hparts.1, hparts.2.1, hparts.2.2]
    exact ih
  | case3 st out c r hnone ih =>
    have htoken := bodyToken_behind he earlier (c :: r) st out
    rw [hnone] at htoken
    rw [rescan_none (Option.map_eq_none_iff.1 htoken)]
    exact ih

/-! ### Arguments -/

theorem scanArgument_behind (s : Text) (st : State) (out : Buffer) (depth : Nat) :
    (scanArgument e s (st.behind earlier) out depth).parts =
      behind earlier (scanArgument e s st out depth).parts := by
  have htoken := argumentToken_behind he earlier
  fun_induction scanArgument e s st out depth with
  | case1 s st out depth hend => exact scanArgument_end hend
  | case2 s st out depth hend p hp ih =>
    have hfound := htoken s st out
    rw [hp] at hfound
    obtain ⟨q, hq, hparts⟩ := Option.map_eq_some_iff.1 hfound
    simp only [Progress.parts, behind, Prod.mk.injEq] at hparts
    rw [scanArgument_some (by simpa using hend) hq, hparts.1, hparts.2.1, hparts.2.2]
    exact ih
  | case3 st out depth hend => exact absurd rfl hend
  | case4 st out depth c r hstop hend hnone =>
    have hfound := htoken (c :: r) st out
    rw [hnone] at hfound
    obtain ⟨rfl, hc⟩ : depth = 0 ∧ (c = closeParen ∨ c = comma) := by simpa using hstop
    exact scanArgument_stop (by simpa using hend) (Option.map_eq_none_iff.1 hfound) hc
  | case5 st out depth c r hgo hend hnone ih =>
    have hfound := htoken (c :: r) st out
    rw [hnone] at hfound
    have hc : ¬ (depth = 0 ∧ (c = closeParen ∨ c = comma)) := by simpa using hgo
    exact (scanArgument_step (by simpa using hend) (Option.map_eq_none_iff.1 hfound) hc).trans ih

theorem argument_behind (inParens : Bool) (s : Text) (st : State) :
    (argument e inParens s (st.behind earlier)).parts =
      behind earlier (argument e inParens s st).parts := by
  unfold argument
  by_cases hempty : isEmptyArgument inParens s = true
  · rw [if_pos hempty, if_pos hempty]
    rfl
  · rw [if_neg hempty, if_neg hempty]
    cases s with
    | nil => exact scanArgument_behind he earlier [] st {} 0
    | cons c r =>
      unfold collectArgument
      dsimp only
      by_cases hc : c = openAngle
      · have hangle (st : State) := angleArgument_parts (fun _ out => out) r st
        rw [if_pos hc, if_pos hc]
        exact (hangle (st.behind earlier)).trans (congrArg (behind earlier) (hangle st)).symm
      · rw [if_neg hc, if_neg hc]
        exact scanArgument_behind he earlier (c :: r) st {} 0

theorem bindArguments_behind (inParens : Bool) (params : List String) (s : Text) (st : State) :
    (bindArguments e inParens params s (st.behind earlier)).parts =
      behind earlier (bindArguments e inParens params s st).parts := by
  induction params generalizing s st with
  | nil => rfl
  | cons param others ih =>
    have hlater := argument_behind he earlier inParens (Text.skipBlanks s) st
    cases hf : (argument e inParens (Text.skipBlanks s) st).fault with
    | some fault =>
      have hgot := Gathered.parts_eq hf
      rw [hgot] at hlater
      rw [bindArguments_fault hgot, bindArguments_fault hlater]
      rfl
    | none =>
      have hgot := Gathered.parts_eq hf
      rw [hgot] at hlater
      generalize (argument e inParens (Text.skipBlanks s) st).rest = rest,
        (argument e inParens (Text.skipBlanks s) st).state = got,
        (argument e inParens (Text.skipBlanks s) st).text = text at hgot hlater
      by_cases ho : others = []
      · subst ho
        rw [bindArguments_last hgot, bindArguments_last hlater]
        rfl
      · by_cases hcomma : (Text.skipBlanks rest).head? = some comma
        · obtain ⟨r, hr⟩ := List.head?_eq_some_iff.1 hcomma
          rw [bindArguments_next ho hgot hr, bindArguments_next ho hlater hr]
          exact ih r (got.bind param text.chomp.toText)
        · rw [bindArguments_missing ho hgot hcomma, bindArguments_missing ho hlater hcomma]
          rfl

omit he in
theorem closeArguments_behind (inParens : Bool) (s : Text) (st : State) :
    (closeArguments inParens s (st.behind earlier)).parts =
      behind earlier (closeArguments inParens s st).parts := by
  rw [closeArguments_parts, closeArguments_parts]
  simp only [behind, State.behind, List.append_assoc]

theorem takeArguments_behind (params : List String) (s : Text) (st : State) :
    (takeArguments e params s (st.behind earlier)).parts =
      behind earlier (takeArguments e params s st).parts := by
  unfold takeArguments
  by_cases hempty : params.isEmpty = true
  · rw [if_pos hempty, if_pos hempty]
    rfl
  · rw [if_neg hempty, if_neg hempty]
    have hlater := bindArguments_behind he earlier (openArguments s).1 params
      (openArguments s).2 st
    cases hf : (bindArguments e (openArguments s).1 params (openArguments s).2 st).fault with
    | some fault =>
      have hbound := Gathered.parts_eq hf
      rw [hbound] at hlater
      rw [collectArguments_fault hbound, collectArguments_fault hlater]
      rfl
    | none =>
      have hbound := Gathered.parts_eq hf
      rw [hbound] at hlater
      rw [collectArguments_close hbound, collectArguments_close hlater]
      exact closeArguments_behind earlier _ _ _

end Scans

/-! ### Expanding -/

theorem expand_behind {budget : Nat}
    (hcalls : ∀ b, budget = b + 1 → Unmindful (expand b)) : Unmindful (expand budget) := by
  intro earlier name s st out
  cases hm : st.table.lookup name with
  | none =>
    have hm' : (st.behind earlier).table.lookup name = none := hm
    rw [expand_unknown hm, expand_unknown hm']
    rfl
  | some m =>
    have hm' : (st.behind earlier).table.lookup name = some m := hm
    cases hx : m.expanding with
    | true =>
      rw [expand_recursive hm hx, expand_recursive hm' hx, State.report_behind]
      rfl
    | false =>
      cases budget with
      | zero =>
        rw [expand_starved hm hx, expand_starved hm' hx]
        rfl
      | succ b =>
        have he := hcalls b rfl
        have hlater := takeArguments_behind he earlier m.params s (st.enter name)
        cases hf : (takeArguments (expand b) m.params s (st.enter name)).fault with
        | some fault =>
          have hbound := Gathered.parts_eq hf
          rw [hbound, ← State.enter_behind] at hlater
          rw [expand_fault hm hx hbound, expand_fault hm' hx hlater]
          dsimp only [behind]
          rw [State.report_behind, State.leave_behind]
        | none =>
          have hbound := Gathered.parts_eq hf
          rw [hbound, ← State.enter_behind] at hlater
          rw [expand_body hm hx hbound, expand_body hm' hx hlater]
          dsimp only [behind]
          rw [rescan_behind he earlier, State.leave_behind]

/-- **Expanding does not look at what was reported before.** -/
theorem expand_unmindful (budget : Nat) : Unmindful (expand budget) := by
  induction budget with
  | zero => exact expand_behind fun b hb => absurd hb (Nat.succ_ne_zero b).symm
  | succ budget ih =>
    refine expand_behind fun b hb => ?_
    obtain rfl := Nat.succ.inj hb
    exact ih

end AsmPrep.Expansion
