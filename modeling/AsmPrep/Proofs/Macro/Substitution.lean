/-
A call whose arguments capture nothing is its body with the parameters replaced.

Inside a macro the names of the parameters are known beside those of the table, to the
arguments that are still to be read and to the bound texts when the body calls them.  As
long as neither calls anything, a parameter stands for the bytes that were bound to it,
and the call writes its body with those bytes in place of the parameters.
-/
import AsmPrep.Proofs.Macro.Arguments

namespace AsmPrep.Expansion

variable {t : MacroTable} {m : Macro} {s : Text} {st : State} {out : Buffer} {name : String}

theorem State.table_bindAll (st : State) (bindings : List (String × Text)) :
    (st.bindAll bindings).table = st.table.bindAll bindings := by
  induction bindings generalizing st with
  | nil => rfl
  | cons binding others ih => exact ih _

theorem State.faults_bindAll (st : State) (bindings : List (String × Text)) :
    (st.bindAll bindings).faults = st.faults := by
  induction bindings generalizing st with
  | nil => rfl
  | cons binding others ih => exact ih _

/-- Entering a macro makes no name known and none forgotten. -/
theorem State.contains_enter (st : State) (name : String) :
    (st.enter name).table.contains = st.table.contains := by
  funext other
  show (MacroTable.pushScope _).contains other = _
  rw [MacroTable.contains_pushScope, MacroTable.contains_update]

/-- The names known in the body of a macro. -/
def inBody (t : MacroTable) (m : Macro) (name : String) : Bool :=
  t.contains name || m.params.contains name

/-- The parameters of a macro with the texts that a call binds to them. -/
def bindings (m : Macro) (s : Text) : List (String × Text) :=
  m.params.zip (readCall m.params.length s).texts

/-- Neither the arguments of the call nor the texts of the parameters that the body uses call
anything, with the names of the table and of the parameters known.  A call whose arguments are
at fault does not get to its body. -/
structure CaptureFree (t : MacroTable) (m : Macro) (s : Text) : Prop where
  arguments : QuietCall t.contains m.params s
  texts : (readCall m.params.length s).fault = none →
    ∀ item ∈ bodyItems (inBody t m) m.body, ∀ param, item.called? = some param →
      ∀ text, (bindings m s).lookup param = some text → Literal (bodyItems (inBody t m) text)

/-- What a parameter writes that stands for one of the texts. -/
def paramValue (bindings : List (String × Text)) (param : String) (out : Buffer) : Buffer :=
  match bindings.lookup param with
  | some text => Item.writeAll (fun _ out => out) (bodyItems (fun _ => false) text) out
  | none => out

/-- What the body of a macro writes when its parameters stand for those texts. -/
def substitute (t : MacroTable) (m : Macro) (bindings : List (String × Text)) (out : Buffer) :
    Buffer :=
  Item.writeAll (paramValue bindings) (bodyItems (inBody t m) m.body) out

/-- A text that calls nothing and has no `#` is what its parameter writes. -/
theorem paramValue_verbatim {known : String → Bool} {bindings : List (String × Text)}
    {param : String} {text : Text} (h : bindings.lookup param = some text)
    (hlit : Literal (bodyItems known text)) (hhash : Byte.hash ∉ text) (out : Buffer) :
    paramValue bindings param out = out.append text := by
  have hunknown : bodyItems (fun _ => false) text = bodyItems known text :=
    bodyItems_less (fun _ _ hn => absurd hn (by simp)) hlit
  rw [paramValue, h]
  dsimp only
  rw [hunknown, writeAll_verbatim _ hlit hhash]

/-- A parameter whose text calls nothing writes that text. -/
theorem expand_param {budget : Nat} {param : String} {text : Text}
    (hm : t.lookup param = some { body := text }) (hlit : Literal (bodyItems t.contains text)) :
    Writes (expand (budget + 1)) t param
      (Item.writeAll (fun _ out => out) (bodyItems (fun _ => false) text)) := by
  intro s st out ht
  subst ht
  have hgot : (takeArguments (expand budget) ({ body := text } : Macro).params s
      (st.enter param)).parts = (s, st.enter param, {}, none) := rfl
  have hparts : (expand (budget + 1) param s st out).parts = _ := expand_body hm rfl hgot
  have hcontains := State.contains_enter st param
  have hbody := rescan_writes (expand budget) (fun _ out => out) text (st.enter param) out rfl (by
      rw [hcontains]
      intro item hi name hn
      exact absurd (hn.symm.trans (hlit item hi)) (by simp))
  obtain ⟨-, hfaults, hout⟩ := hbody
  have hunknown : bodyItems (fun _ => false) text = bodyItems st.table.contains text :=
    bodyItems_less (fun _ _ hn => absurd hn (by simp)) hlit
  simp only [Expanded.parts, Prod.mk.injEq] at hparts
  obtain ⟨hrest, hstate, hmade⟩ := hparts
  refine ⟨hrest, expand_table _ _ _ _ _, ?_, ?_⟩
  · rw [hstate]
    exact hfaults
  · rw [hmade, hout, hcontains, hunknown]

/-! ### The scope of a call -/

/-- Every parameter has a text when there are as many of either. -/
theorem isSome_lookup_zip {params : List String} {texts : List Text}
    (h : texts.length = params.length) (param : String) :
    ((params.zip texts).lookup param).isSome = params.contains param := by
  induction params generalizing texts with
  | nil => rfl
  | cons first others ih =>
    cases texts with
    | nil => exact absurd h (by simp)
    | cons text texts =>
      rw [List.zip_cons_cons, List.lookup_cons, List.contains_cons]
      by_cases hp : param = first
      · simp [hp]
      · have hne : (param == first) = false := beq_false_of_ne hp
        rw [hne, Bool.false_or]
        exact ih (by simpa using h)

theorem mem_of_lookup_zip {params : List String} {texts : List Text} {p : String} {text : Text}
    (h : (params.zip texts).lookup p = some text) : text ∈ texts := by
  obtain ⟨before, after, hsplit, -⟩ := List.lookup_eq_some_iff.1 h
  have hmem : (p, text) ∈ params.zip texts := by simp [hsplit]
  exact (List.of_mem_zip hmem).2

/-- A parameter has the text of its place when no other has its name. -/
theorem lookup_zip_of_mem {params : List String} {texts : List Text} {param : String}
    {text : Text} (hdistinct : params.Nodup) (h : (param, text) ∈ params.zip texts) :
    (params.zip texts).lookup param = some text := by
  induction params generalizing texts with
  | nil => exact absurd h (by simp)
  | cons first others ih =>
    obtain ⟨hfirst, hothers⟩ := List.nodup_cons.1 hdistinct
    cases texts with
    | nil => exact absurd h (by simp)
    | cons body texts =>
      rw [List.zip_cons_cons] at h ⊢
      rw [List.lookup_cons]
      rcases List.mem_cons.1 h with heq | hmem
      · obtain ⟨rfl, rfl⟩ := Prod.mk.inj heq
        rw [beq_self_eq_true]
      · have hne : param ≠ first := by
          rintro rfl
          exact hfirst (List.of_mem_zip hmem).1
        rw [beq_false_of_ne hne]
        exact ih hothers hmem

/-- The table in which the body of a macro is scanned. -/
def bodyTable (t : MacroTable) (name : String) (m : Macro) (s : Text) : MacroTable :=
  (t.update name (·.setExpanding true)).pushScope.bindAll (bindings m s)

theorem lookup_bodyTable (t : MacroTable) (name other : String) (m : Macro) (s : Text) :
    (bodyTable t name m s).lookup other =
      match (bindings m s).lookup other with
      | some body => some { body }
      | none => (t.update name (·.setExpanding true)).lookup other := by
  rw [bodyTable, MacroTable.lookup_bindAll]
  exact if_neg (by simp [MacroTable.pushScope, Scope.contains, Scope.find?])

theorem contains_bodyTable (t : MacroTable) (name : String) {m : Macro} {s : Text}
    (h : (readCall m.params.length s).fault = none) :
    (bodyTable t name m s).contains = inBody t m := by
  funext other
  have hsome : ((bindings m s).lookup other).isSome = m.params.contains other :=
    isSome_lookup_zip (readCall_length h) other
  unfold MacroTable.contains inBody
  rw [lookup_bodyTable, ← hsome]
  cases (bindings m s).lookup other with
  | some body => simp
  | none =>
    show ((t.update name _).contains other) = _
    rw [MacroTable.contains_update]
    simp

/-- In the body of a macro whose call captures nothing, a parameter writes its text. -/
theorem paramWrites {b : Nat} (hbudget : m.params.length < b + 1) (hfree : CaptureFree t m s)
    (hcalls : ∀ item ∈ bodyItems (inBody t m) m.body, ∀ param, item.called? = some param →
      param ∈ m.params)
    (hf : (readCall m.params.length s).fault = none) {item : Item}
    (hi : item ∈ bodyItems (inBody t m) m.body) {param : String} (hp : item.called? = some param) :
    Writes (expand b) (bodyTable t name m s) param (paramValue (bindings m s) param) := by
  have hmem := hcalls item hi param hp
  obtain ⟨b, rfl⟩ : ∃ b', b = b' + 1 := by
    have := List.length_pos_of_mem hmem
    exact ⟨b - 1, by omega⟩
  have hsome : ((bindings m s).lookup param).isSome = true := by
    rw [bindings, isSome_lookup_zip (readCall_length hf)]
    simpa using hmem
  obtain ⟨text, htext⟩ := Option.isSome_iff_exists.1 hsome
  have hlit := hfree.texts hf item hi param hp text htext
  rw [← contains_bodyTable t name hf] at hlit
  have hvalue : paramValue (bindings m s) param =
      Item.writeAll (fun _ out => out) (bodyItems (fun _ => false) text) := by
    funext out
    rw [paramValue, htext]
  rw [hvalue]
  refine expand_param ?_ hlit
  rw [lookup_bodyTable, htext]

/-- **A call that captures nothing writes its body with the bound texts for the parameters.**
It takes its arguments off the text, and reports what is wrong with the list of them and
nothing else; when the list is at fault nothing is written. -/
theorem expand_captureFree (budget : Nat) (st : State) (out : Buffer)
    (hm : t.lookup name = some m) (hx : m.expanding = false) (hbudget : m.params.length < budget)
    (hcalls : ∀ item ∈ bodyItems (inBody t m) m.body, ∀ param, item.called? = some param →
      param ∈ m.params)
    (hfree : CaptureFree t m s) (ht : st.table = t) :
    let list := readCall m.params.length s
    (expand budget name s st out).rest = list.rest ∧
      (expand budget name s st out).state.faults = st.faults ++ list.reported ++ list.fault.toList ∧
      (expand budget name s st out).out =
        match list.fault with
        | none => substitute t m (bindings m s) out
        | some _ => out := by
  intro list
  subst ht
  obtain ⟨b, rfl⟩ : ∃ b, budget = b + 1 := ⟨budget - 1, by omega⟩
  have hentered := State.contains_enter st name
  have htake := takeArguments_quiet (expand b) (st.enter name)
    (hentered.symm ▸ hfree.arguments)
  dsimp only at htake
  have hfaults : (State.bindAll (st.enter name) (m.params.zip list.texts)).faults = st.faults :=
    State.faults_bindAll _ _
  rw [hfaults] at htake
  cases hf : list.fault with
  | some fault =>
    rw [hf] at htake
    have hparts : (expand (b + 1) name s st out).parts = _ := expand_fault hm hx htake
    simp only [Expanded.parts, Prod.mk.injEq] at hparts
    obtain ⟨hrest, hstate, hout⟩ := hparts
    refine ⟨hrest, ?_, hout⟩
    rw [hstate]
    rfl
  | none =>
    rw [hf] at htake
    have hparts : (expand (b + 1) name s st out).parts = _ := expand_body hm hx htake
    simp only [Expanded.parts, Prod.mk.injEq] at hparts
    obtain ⟨hrest, hstate, hout⟩ := hparts
    have htable : (State.bindAll (st.enter name) (m.params.zip list.texts)).table =
        bodyTable st.table name m s := State.table_bindAll _ _
    have hknown := contains_bodyTable st.table name hf
    obtain ⟨-, hsame, hwritten⟩ := rescan_writes (expand b) (paramValue (bindings m s)) m.body
      { State.bindAll (st.enter name) (m.params.zip list.texts) with
        faults := st.faults ++ list.reported } out htable (by
        intro item hi param hp
        rw [hknown] at hi
        exact paramWrites hbudget hfree hcalls hf hi hp)
    refine ⟨hrest, ?_, ?_⟩
    · rw [hstate]
      exact hsame.trans (List.append_nil _).symm
    · rw [hout, hwritten, hknown]
      rfl

end AsmPrep.Expansion
