/-
A parameter that is mentioned in its own text is reported.

The mark of a macro is not only on definitions.  While the text of a parameter is scanned
the parameter is marked, and its name in that text means the parameter again, whatever it
meant where the text was written.  So the call is reported and nothing written for it.

What is scanned before such a mention must not lead astray: calls of macros without
parameters take nothing off the text and leave the table alone, and what comes after a
report cannot take it back.
-/
import AsmPrep.Proofs.Macro.Substitution

namespace AsmPrep.Expansion

open Byte

variable {e : Expander} {t : MacroTable} {s rest : Text} {st st' : State} {out : Buffer}

/-! ### Faults are only added -/

theorem Reads.faults {n : Nat} (h : Reads e s st n rest st')
    (he : ∀ name s st out, st.faults <+: (e name s st out).state.faults) :
    st.faults <+: st'.faults := by
  refine h.keeps (P := fun _ now => st.faults <+: now.faults) ?_ ?_ ?_ List.prefix_rfl
  · intro _ name s now out hp
    exact hp.trans (he name s now out)
  · intro _ now fault hp
    exact hp.trans (List.prefix_append _ _)
  · intro _ now param body hp
    exact hp

theorem Outcome.faults {budget : Nat} {name : String} (h : Outcome budget name s st rest st')
    (he : ∀ b, budget = b + 1 → ∀ name s st out,
      st.faults <+: (expand b name s st out).state.faults) :
    st.faults <+: st'.faults := by
  cases h with
  | unknown => exact List.prefix_rfl
  | recursive => exact List.prefix_append _ _
  | starved => exact List.prefix_rfl
  | opened _ _ hb _ hbound hmade => exact (hbound.faults (he _ hb)).trans (hmade.faults (he _ hb))

theorem expand_faults (budget : Nat) (name : String) (s : Text) (st : State) (out : Buffer) :
    st.faults <+: (expand budget name s st out).state.faults := by
  induction budget generalizing name s st out with
  | zero =>
    refine (expand_outcome 0 name s st out).faults ?_
    intro b hb
    exact absurd hb (Nat.succ_ne_zero b).symm
  | succ budget ih =>
    refine (expand_outcome (budget + 1) name s st out).faults ?_
    intro b hb
    obtain rfl := Nat.succ.inj hb
    exact ih

/-! ### Bodies that report -/

/-- Expanding the macro of that name takes nothing off the text and leaves the table alone. -/
def Bare (e : Expander) (t : MacroTable) (name : String) : Prop :=
  ∀ s st out, st.table = t → (e name s st out).rest = s ∧ (e name s st out).state.table = t

/-- A macro without parameters takes nothing off the text. -/
theorem bare_of_params {m : Macro} {name : String} (budget : Nat) (hm : t.lookup name = some m)
    (hp : m.params = []) : Bare (expand budget) t name := by
  intro s st out ht
  subst ht
  refine ⟨?_, expand_table budget name s st out⟩
  cases hx : m.expanding with
  | true => exact congrArg Prod.fst (expand_recursive hm hx)
  | false =>
    cases budget with
    | zero => exact congrArg Prod.fst (expand_starved hm hx)
    | succ b =>
      have hgot : (takeArguments (expand b) m.params s (st.enter name)).parts =
          (s, st.enter name, {}, none) := by
        rw [hp]
        rfl
      exact congrArg Prod.fst (expand_body hm hx hgot)

theorem Item.perform_bare {item : Item} (h : ∀ name, item.called? = some name → Bare e t name)
    (he : ∀ name s st out, st.faults <+: (e name s st out).state.faults)
    (rest : Text) (st : State) (out : Buffer) (ht : st.table = t) :
    let done := item.perform e rest st out
    done.1 = rest ∧ done.2.1.table = t ∧ st.faults <+: done.2.1.faults := by
  induction item generalizing out with
  | copy text => exact ⟨rfl, ht, List.prefix_rfl⟩
  | paste => exact ⟨rfl, ht, List.prefix_rfl⟩
  | call front name =>
    have hbare := h name rfl rest st (out.append front) ht
    exact ⟨hbare.1, hbare.2, he name rest st _⟩
  | spell item ih => exact ih h {}

theorem Item.perform_reports {item : Item} {name : String} (h : item.called? = some name)
    (hreport : ∀ s st out, st.table = t →
      st.faults.length < (e name s st out).state.faults.length)
    (rest : Text) (st : State) (out : Buffer) (ht : st.table = t) :
    st.faults.length < (item.perform e rest st out).2.1.faults.length := by
  induction item generalizing out with
  | copy text => exact absurd h (by simp [called?])
  | paste => exact absurd h (by simp [called?])
  | call front other =>
    obtain rfl : other = name := Option.some.inj h
    exact hreport rest st _ ht
  | spell item ih => exact ih h {}

/-- A body is reported when a call in it is that scanning does get to. -/
theorem rescan_reports (st : State) (out : Buffer) {before after : List Item} {item : Item}
    {name : String}
    (he : ∀ name s st out, st.faults <+: (e name s st out).state.faults)
    (hitems : bodyItems t.contains s = before ++ item :: after)
    (hbefore : ∀ i ∈ before, ∀ other, i.called? = some other → Bare e t other)
    (hcall : item.called? = some name)
    (hreport : ∀ s st out, st.table = t →
      st.faults.length < (e name s st out).state.faults.length)
    (ht : st.table = t) : st.faults.length < (rescan e s st out).1.faults.length := by
  fun_induction rescan e s st out generalizing before with
  | case1 => exact absurd hitems (by simp)
  | case2 st out c r p hp ih =>
    obtain ⟨first, rest, hfirst, hdone⟩ := bodyItem_of_some hp
    rw [ht] at hfirst
    rw [bodyItems_some hfirst] at hitems
    cases before with
    | nil =>
      obtain ⟨rfl, -⟩ := List.cons.inj hitems
      have hmore := Item.perform_reports hcall hreport rest st out ht
      rw [hdone] at hmore
      exact Nat.lt_of_lt_of_le hmore ((rescan_reads e p.rest p.state p.out).faults he).length_le
    | cons i before =>
      obtain ⟨rfl, htail⟩ := List.cons.inj hitems
      obtain ⟨hrest, htable, hfaults⟩ :=
        Item.perform_bare (hbefore first List.mem_cons_self) he rest st out ht
      rw [hdone] at hrest htable hfaults
      rw [← (show p.rest = rest from hrest)] at htail
      exact Nat.lt_of_le_of_lt hfaults.length_le
        (ih htail (fun i hi => hbefore i (List.mem_cons_of_mem _ hi)) htable)
  | case3 st out c r hp ih =>
    have hfirst := bodyItem_of_none hp
    rw [ht] at hfirst
    rw [bodyItems_none hfirst] at hitems
    cases before with
    | nil =>
      obtain ⟨rfl, -⟩ := List.cons.inj hitems
      exact absurd hcall (by simp [Item.called?])
    | cons i before =>
      obtain ⟨-, htail⟩ := List.cons.inj hitems
      exact ih htail (fun i hi => hbefore i (List.mem_cons_of_mem _ hi)) ht

/-! ### A text that mentions its own parameter -/

/-- Each of the names stands for a text, and the first call in it is of one of them. -/
def Knotted (t : MacroTable) (names : List String) : Prop :=
  ∀ name ∈ names, ∃ text expanding, t.lookup name = some { body := text, expanding } ∧
    ∃ next ∈ names, FirstCall (bodyItems t.contains text) next

theorem Knotted.enter {names : List String} (h : Knotted st.table names) (name : String) :
    Knotted (st.enter name).table names := by
  intro other ho
  obtain ⟨text, expanding, hlookup, hnext⟩ := h other ho
  rw [State.contains_enter]
  refine ⟨text, if name = other then true else expanding, ?_, hnext⟩
  show (MacroTable.pushScope _).lookup other = _
  rw [MacroTable.lookup_pushScope, MacroTable.lookup_update, hlookup]
  split
  · rfl
  · rfl

/-- **Expanding texts that call each other in a circle is reported**, wherever it begins. -/
theorem expand_knotted {budget : Nat} {names : List String} (h : Knotted st.table names)
    {name : String} (hname : name ∈ names) (hw : st.table.weight ≤ budget) (s : Text)
    (out : Buffer) :
    st.faults.length < (expand budget name s st out).state.faults.length := by
  induction budget generalizing name s st out with
  | zero =>
    obtain ⟨text, expanding, hm, -⟩ := h name hname
    cases expanding with
    | true =>
      have hparts : (expand 0 name s st out).parts = _ := expand_recursive hm rfl
      rw [show (expand 0 name s st out).state = _ from congrArg (fun p => p.2.1) hparts]
      simp [State.report]
    | false =>
      have hmark := MacroTable.weight_mark hm rfl
      omega
  | succ budget ih =>
    obtain ⟨text, expanding, hm, next, hnext, before, item, after, hitems, hbefore, hcall⟩ :=
      h name hname
    cases expanding with
    | true =>
      have hparts : (expand (budget + 1) name s st out).parts = _ := expand_recursive hm rfl
      rw [show (expand (budget + 1) name s st out).state = _ from congrArg (fun p => p.2.1) hparts]
      simp [State.report]
    | false =>
      have hgot : (takeArguments (expand budget) ({ body := text } : Macro).params s
          (st.enter name)).parts = (s, st.enter name, {}, none) := rfl
      have hparts : (expand (budget + 1) name s st out).parts = _ := expand_body hm rfl hgot
      have hmark := MacroTable.weight_mark hm rfl
      have hentered : (st.enter name).table.weight ≤ budget := by
        show (MacroTable.pushScope _).weight ≤ budget
        rw [MacroTable.weight_pushScope]
        omega
      rw [show (expand (budget + 1) name s st out).state = _ from congrArg (fun p => p.2.1) hparts]
      refine rescan_reports (t := (st.enter name).table) (st.enter name) out (expand_faults budget)
        ((State.contains_enter st name).symm ▸ hitems) ?_ hcall ?_ rfl
      · intro i hi other hother
        exact absurd (hother.symm.trans (hbefore i hi)) (by simp)
      · intro s now out hnow
        exact ih (hnow ▸ h.enter name) hnext (hnow ▸ hentered) s out

/-! ### A call that binds such texts -/

/-- The texts that a call binds to these parameters call each other in a circle. -/
def Knot (t : MacroTable) (m : Macro) (s : Text) (params : List String) : Prop :=
  ∀ param ∈ params, ∃ text, (bindings m s).lookup param = some text ∧
    ∃ next ∈ params, FirstCall (bodyItems (inBody t m) text) next

variable {m : Macro} {name : String}

theorem Knot.knotted {params : List String} (h : Knot t m s params)
    (hf : (readCall m.params.length s).fault = none) : Knotted (bodyTable t name m s) params := by
  intro param hp
  obtain ⟨text, htext, hnext⟩ := h param hp
  rw [contains_bodyTable t name hf]
  refine ⟨text, false, ?_, hnext⟩
  rw [lookup_bodyTable, htext]

theorem bare_bodyTable (budget : Nat) (hf : (readCall m.params.length s).fault = none)
    {param : String} (hp : param ∈ m.params) :
    Bare (expand budget) (bodyTable t name m s) param := by
  have hsome : ((bindings m s).lookup param).isSome = true := by
    rw [bindings, isSome_lookup_zip (readCall_length hf)]
    simpa using hp
  obtain ⟨text, htext⟩ := Option.isSome_iff_exists.1 hsome
  refine bare_of_params (m := { body := text }) budget ?_ rfl
  rw [lookup_bodyTable, htext]

theorem weight_bodyTable_le (hm : t.lookup name = some m) (hx : m.expanding = false) :
    (bodyTable t name m s).weight + 1 ≤ t.weight := by
  have hmark := MacroTable.weight_mark hm hx
  have hbound :=
    MacroTable.weight_bindAll_le (t.update name (·.setExpanding true)).pushScope (bindings m s)
  have hlength : (bindings m s).length ≤ m.params.length := by
    rw [bindings, List.length_zip]
    exact Nat.min_le_left _ _
  rw [MacroTable.weight_pushScope] at hbound
  rw [bodyTable]
  omega

/-- **A call reports more than is wrong with its arguments when the body uses a parameter whose
text leads back to itself.** -/
theorem expand_knot (budget : Nat) (st : State) (out : Buffer) {params : List String}
    (hm : t.lookup name = some m) (hx : m.expanding = false) (hw : t.weight ≤ budget)
    (hquiet : QuietCall t.contains m.params s) (hf : (readCall m.params.length s).fault = none)
    (hcalls : ∀ item ∈ bodyItems (inBody t m) m.body, ∀ param, item.called? = some param →
      param ∈ m.params)
    (hknot : Knot t m s params) {item : Item} (hitem : item ∈ bodyItems (inBody t m) m.body)
    {param : String} (hcall : item.called? = some param) (hparam : param ∈ params)
    (ht : st.table = t) :
    (st.faults ++ (readCall m.params.length s).reported).length <
      (expand budget name s st out).state.faults.length := by
  subst ht
  have hlight := weight_bodyTable_le (s := s) hm hx
  obtain ⟨b, rfl⟩ : ∃ b, budget = b + 1 := ⟨budget - 1, by omega⟩
  obtain ⟨before, after, hitems⟩ := List.append_of_mem hitem
  have hknown := contains_bodyTable st.table name hf
  have htake := takeArguments_quiet (expand b) (st.enter name)
    ((State.contains_enter st name).symm ▸ hquiet)
  have hfaults : (State.bindAll (st.enter name) (bindings m s)).faults = st.faults :=
    State.faults_bindAll _ _
  have htable :
      (State.bindAll (st.enter name) (bindings m s)).table = bodyTable st.table name m s :=
    State.table_bindAll _ _
  dsimp only at htake
  rw [← bindings, hfaults, hf] at htake
  have hparts : (expand (b + 1) name s st out).parts = _ := expand_body hm hx htake
  rw [show (expand (b + 1) name s st out).state = _ from congrArg (fun p => p.2.1) hparts]
  refine rescan_reports (t := bodyTable st.table name m s)
    { State.bindAll (st.enter name) (bindings m s) with
      faults := st.faults ++ (readCall m.params.length s).reported }
    out (expand_faults b) (hknown.symm ▸ hitems) ?_ hcall ?_ htable
  · intro i hi other hother
    refine bare_bodyTable b hf (hcalls i ?_ other hother)
    rw [hitems]
    exact List.mem_append_left _ hi
  · intro s' now out' hnow
    refine expand_knotted (hnow ▸ hknot.knotted hf) hparam ?_ s' out'
    rw [hnow]
    omega

end AsmPrep.Expansion
