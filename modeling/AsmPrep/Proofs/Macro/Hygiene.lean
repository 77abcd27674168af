/-
Whether the names of parameters can be told apart.

Under names that nothing mentions, a call is the body with the bound texts for the parameters,
and which name stands for which text does not show.  So renaming the parameters changes
nothing about a call exactly when the call is that under the old names too.  It is when no
argument mentions a parameter.

The names are not hidden, though.  They are looked up in the same scopes as everything else,
while arguments are read and while bound texts are scanned.  A macro with one parameter
shows it: a call of it is the same under another name exactly when no text that the body
uses mentions the parameter, for one that does meets the expansion under way.
-/
import AsmPrep.Proofs.Macro.Capture

namespace AsmPrep.Expansion

open Byte

variable {t : MacroTable} {m m' : Macro} {s : Text} {name : String} {ρ : String → String}

/-! ### Renaming -/

/-- The same item with calls renamed. -/
def Item.rename (ρ : String → String) : Item → Item
  | copy text => copy text
  | paste => paste
  | call front name => call front (ρ name)
  | spell item => spell (item.rename ρ)

theorem Item.write_rename {ρ : String → String} {value value' : String → Buffer → Buffer}
    {item : Item}
    (h : ∀ name, item.called? = some name → value' (ρ name) = value name) (out : Buffer) :
    (item.rename ρ).write value' out = item.write value out := by
  induction item generalizing out with
  | copy text => rfl
  | paste => rfl
  | call front name => exact congrFun (h name rfl) _
  | spell item ih => rw [rename, write, ih h, write]

theorem Item.writeAll_rename {ρ : String → String} {value value' : String → Buffer → Buffer}
    {items : List Item}
    (h : ∀ item ∈ items, ∀ name, item.called? = some name → value' (ρ name) = value name)
    (out : Buffer) : writeAll value' (items.map (rename ρ)) out = writeAll value items out := by
  induction items generalizing out with
  | nil => rfl
  | cons item items ih =>
    have hfirst := write_rename (h item List.mem_cons_self) out
    show writeAll value' (items.map (rename ρ)) ((item.rename ρ).write value' out) =
      writeAll value items (item.write value out)
    rw [hfirst]
    exact ih (fun other ho => h other (List.mem_cons_of_mem _ ho)) _

theorem Item.called?_rename (ρ : String → String) (item : Item) :
    (item.rename ρ).called? = item.called?.map ρ := by
  induction item with
  | copy text => rfl
  | paste => rfl
  | call front name => rfl
  | spell item ih => exact ih

/-- `m'` is `m` with the parameters renamed, in the list of them and where the body uses them.
The body mentions no other macro of the table.  Its text has to be read as before, which is
more than putting other names in: after a digit `h` would make a number where `x` did not. -/
structure Renamed (t : MacroTable) (m m' : Macro) (ρ : String → String) : Prop where
  injective : ∀ p ∈ m.params, ∀ q ∈ m.params, ρ p = ρ q → p = q
  params : m'.params = m.params.map ρ
  body : bodyItems (inBody t m') m'.body = (bodyItems (inBody t m) m.body).map (Item.rename ρ)
  calls : ∀ item ∈ bodyItems (inBody t m) m.body, ∀ p, item.called? = some p → p ∈ m.params
  idle : m'.expanding = false

/-- Nowhere in the text is there that name. -/
def Absent (name : String) (s : Text) : Prop := ∀ w, w <:+: s → Text.toName w ≠ name

/-- The names occur neither in the arguments of the call nor in the texts that are bound. -/
structure Fresh (names : List String) (m : Macro) (s : Text) : Prop where
  call : ∀ name ∈ names, Absent name s
  texts : ∀ text ∈ (readCall m.params.length s).texts, ∀ name ∈ names, Absent name text

/-- The arguments of the call mention no macro of the table, neither as they are read nor in
the texts that are bound. -/
structure MacroFree (t : MacroTable) (m : Macro) (s : Text) : Prop where
  arguments : Quiet (openArguments s).1 (fun _ => t.contains) m.params.length (openArguments s).2
  texts : ∀ text ∈ (readCall m.params.length s).texts, Literal (bodyItems t.contains text)

/-- The call leaves the same text, writes the same and reports the same in both tables. -/
def SameCall (t t' : MacroTable) (name : String) (s : Text) : Prop :=
  ∀ faults out,
    let made := full t name s { table := t, faults } out
    let made' := full t' name s { table := t', faults } out
    made.rest = made'.rest ∧ made.out = made'.out ∧ made.state.faults = made'.state.faults

/-- An expansion came to the body with the bound texts for the parameters, or to nothing when the
arguments are at fault, and reported what reading the arguments reports. -/
structure Substituted (t : MacroTable) (m : Macro) (faults : List Fault) (out : Buffer)
    (made : Expanded s) : Prop where
  rest : made.rest = (readCall m.params.length s).rest
  faults : made.state.faults =
    faults ++ (readCall m.params.length s).reported ++ (readCall m.params.length s).fault.toList
  out : made.out =
    match (readCall m.params.length s).fault with
    | none => substitute t m (bindings m s) out
    | some _ => out

/-- The names of the parameters play no part in the call: it is its body with the bound texts
for them. -/
def Hygienic (t : MacroTable) (m : Macro) (name : String) (s : Text) : Prop :=
  ∀ faults out, Substituted t m faults out (full t name s { table := t, faults } out)

theorem lookup_zip_map {params : List String} (texts : List Text)
    (hρ : ∀ p ∈ params, ∀ q ∈ params, ρ p = ρ q → p = q) {p : String} (hp : p ∈ params) :
    ((params.map ρ).zip texts).lookup (ρ p) = (params.zip texts).lookup p := by
  induction params generalizing texts with
  | nil => rfl
  | cons first others ih =>
    cases texts with
    | nil => rfl
    | cons text texts =>
      rw [List.map_cons, List.zip_cons_cons, List.zip_cons_cons, List.lookup_cons, List.lookup_cons]
      by_cases hfirst : p = first
      · simp [hfirst]
      · have hne : (p == first) = false := beq_false_of_ne hfirst
        have hne' : (ρ p == ρ first) = false := by
          refine beq_false_of_ne ?_
          intro heq
          exact hfirst (hρ p hp first List.mem_cons_self heq)
        have hmem : p ∈ others := (List.mem_cons.1 hp).resolve_left hfirst
        rw [hne, hne']
        refine ih texts ?_ hmem
        intro a ha b hb
        exact hρ a (List.mem_cons_of_mem _ ha) b (List.mem_cons_of_mem _ hb)

theorem Renamed.bindings (h : Renamed t m m' ρ) :
    Expansion.bindings m' s = (m.params.map ρ).zip (readCall m.params.length s).texts := by
  rw [Expansion.bindings, h.params, List.length_map]

/-- The body writes the same with the parameters renamed. -/
theorem Renamed.substitute (h : Renamed t m m' ρ) (out : Buffer) :
    Expansion.substitute t m' (Expansion.bindings m' s) out =
      Expansion.substitute t m (Expansion.bindings m s) out := by
  rw [Expansion.substitute, Expansion.substitute, h.body]
  refine Item.writeAll_rename ?_ out
  intro item hi p hp
  funext out
  rw [paramValue, paramValue, h.bindings, lookup_zip_map _ h.injective (h.calls item hi p hp)]
  rfl

/-- A call that mentions neither macros nor the new names captures nothing under those. -/
theorem MacroFree.captureFree (h : MacroFree t m s) (hfresh : Fresh (m.params.map ρ) m s)
    (hren : Renamed t m m' ρ) : CaptureFree t m' s := by
  have hless : ∀ text, (∀ p ∈ m.params.map ρ, Absent p text) →
      KnowsLess (inBody t m') t.contains text := by
    intro text habsent w hw hk
    rw [inBody, hren.params, Bool.or_eq_true] at hk
    refine hk.resolve_right ?_
    intro hp
    exact habsent (Text.toName w) (by simpa using hp) w hw rfl
  refine ⟨?_, ?_⟩
  · rw [QuietCall, hren.params, List.length_map]
    refine h.arguments.less ?_
    intro i w hw hk
    refine hless s hfresh.call w (hw.trans (openArguments_suffix s).isInfix) ?_
    rw [knowing, Bool.or_eq_true] at hk
    rw [inBody, hren.params, Bool.or_eq_true]
    refine hk.imp_right ?_
    intro hp
    have hmem : Text.toName w ∈ (m.params.map ρ).take i := by simpa using hp
    simpa using List.mem_of_mem_take hmem
  · intro _ item _ p _ text htext
    rw [hren.bindings] at htext
    have hmem : text ∈ (readCall m.params.length s).texts := mem_of_lookup_zip htext
    have hsame := bodyItems_less (hless text (hfresh.texts text hmem)) (h.texts text hmem)
    rw [hsame]
    exact h.texts text hmem

/-- **Under names that nothing mentions, a call is its body with the bound texts for the
parameters.** -/
theorem renamed_call (hm : t.lookup name = some m) (hren : Renamed t m m' ρ)
    (hfresh : Fresh (m.params.map ρ) m s) (hmacros : MacroFree t m s) (faults : List Fault)
    (out : Buffer) :
    let t' := t.update name fun _ => m'
    Substituted t m faults out (full t' name s { table := t', faults } out) := by
  intro t'
  have hcontains : t'.contains = t.contains := by
    funext other
    exact MacroTable.contains_update _ _ _ _
  have hinBody : inBody t' m' = inBody t m' := by
    funext other
    rw [inBody, inBody, hcontains]
  have hm' : t'.lookup name = some m' := by
    rw [MacroTable.lookup_update, if_pos rfl, hm]
    rfl
  have hfree : CaptureFree t' m' s := by
    have := hmacros.captureFree hfresh hren
    exact ⟨hcontains ▸ this.arguments, hinBody ▸ this.texts⟩
  have hcalls : ∀ item ∈ bodyItems (inBody t' m') m'.body, ∀ p, item.called? = some p →
      p ∈ m'.params := by
    rw [hinBody, hren.body, hren.params]
    intro item hi p hp
    obtain ⟨old, hold, rfl⟩ := List.mem_map.1 hi
    rw [Item.called?_rename] at hp
    obtain ⟨q, hq, rfl⟩ := Option.map_eq_some_iff.1 hp
    exact List.mem_map.2 ⟨q, hren.calls old hold q hq, rfl⟩
  have hweight := MacroTable.weight_mark hm' hren.idle
  have hlength : m'.params.length = m.params.length := by rw [hren.params, List.length_map]
  have hsubstitute : substitute t' m' (bindings m' s) out = substitute t m (bindings m s) out := by
    rw [← hren.substitute, substitute, substitute, hinBody]
  have hmade := expand_captureFree t'.weight { table := t', faults } out hm' hren.idle (by omega)
    hcalls hfree rfl
  rw [hlength, hsubstitute] at hmade
  exact ⟨hmade.1, hmade.2.1, hmade.2.2⟩

/-- **Renaming the parameters cannot be observed exactly when their names play no part.** -/
theorem sameCall_iff_hygienic (hm : t.lookup name = some m) (hren : Renamed t m m' ρ)
    (hfresh : Fresh (m.params.map ρ) m s) (hmacros : MacroFree t m s) :
    SameCall t (t.update name fun _ => m') name s ↔ Hygienic t m name s := by
  have hcall := renamed_call hm hren hfresh hmacros
  refine ⟨?_, ?_⟩
  · intro hsame faults out
    obtain ⟨hrest, hout, hfaults⟩ := hsame faults out
    have hrenamed := hcall faults out
    exact ⟨hrest.trans hrenamed.rest, hfaults.trans hrenamed.faults, hout.trans hrenamed.out⟩
  · intro hhygienic faults out
    have hplain := hhygienic faults out
    have hrenamed := hcall faults out
    exact ⟨hplain.rest.trans hrenamed.rest.symm, hplain.out.trans hrenamed.out.symm,
      hplain.faults.trans hrenamed.faults.symm⟩

/-- **A call that captures nothing is hygienic.** -/
theorem CaptureFree.hygienic (hfree : CaptureFree t m s) (hm : t.lookup name = some m)
    (hx : m.expanding = false)
    (hcalls : ∀ item ∈ bodyItems (inBody t m) m.body, ∀ p, item.called? = some p → p ∈ m.params) :
    Hygienic t m name s := by
  intro faults out
  have hweight := MacroTable.weight_mark hm hx
  obtain ⟨hrest, hfaults, hout⟩ := expand_captureFree t.weight { table := t, faults } out hm hx
    (by omega) hcalls hfree rfl
  exact ⟨hrest, hfaults, hout⟩

/-- The body uses a parameter whose text leads back to itself through the texts of others. -/
def UsesKnot (t : MacroTable) (m : Macro) (s : Text) : Prop :=
  ∃ params, Knot t m s params ∧
    ∃ item ∈ bodyItems (inBody t m) m.body, ∃ param ∈ params, item.called? = some param

/-- **A call whose body uses a knot is not hygienic**, for the knot is reported. -/
theorem UsesKnot.not_hygienic (hknot : UsesKnot t m s) (hm : t.lookup name = some m)
    (hx : m.expanding = false)
    (hcalls : ∀ item ∈ bodyItems (inBody t m) m.body, ∀ p, item.called? = some p → p ∈ m.params)
    (hquiet : QuietCall t.contains m.params s) (hf : (readCall m.params.length s).fault = none) :
    ¬ Hygienic t m name s := by
  intro hhygienic
  obtain ⟨params, hknot, item, hitem, param, hparam, hcall⟩ := hknot
  have hmore := expand_knot t.weight { table := t } {} hm hx (Nat.le_refl _) hquiet hf
    hcalls hknot hitem hcall hparam rfl
  have heq := (hhygienic [] {}).faults
  rw [hf, Option.toList_none, List.append_nil] at heq
  exact absurd (congrArg List.length heq) (Nat.ne_of_gt hmore)

/-- With one parameter, a call that captures something uses a knot. -/
theorem usesKnot_of_single {p : String} (hp : m.params = [p]) (hren : Renamed t m m' ρ)
    (hmacros : MacroFree t m s) (h : ¬ CaptureFree t m s) :
    QuietCall t.contains m.params s ∧ (readCall m.params.length s).fault = none ∧
      UsesKnot t m s := by
  have hquiet : QuietCall t.contains m.params s := by
    have hknown : knowing t.contains m.params 0 = t.contains := by
      funext other
      simp [knowing]
    have harguments := hmacros.arguments
    rw [QuietCall]
    rw [hp, List.length_singleton] at harguments ⊢
    rw [hp] at hknown
    exact ⟨hknown.symm ▸ harguments.1, fun _ _ => trivial⟩
  have htexts : ¬ ((readCall m.params.length s).fault = none →
      ∀ item ∈ bodyItems (inBody t m) m.body, ∀ param, item.called? = some param →
        ∀ text, (bindings m s).lookup param = some text →
          Literal (bodyItems (inBody t m) text)) := fun htexts => h ⟨hquiet, htexts⟩
  simp only [Classical.not_forall] at htexts
  obtain ⟨hf, item, hitem, param, hcall, text, htext, hlit⟩ := htexts
  obtain rfl : param = p := by
    have hmem := hren.calls item hitem param hcall
    rwa [hp, List.mem_singleton] at hmem
  obtain ⟨next, hfirst⟩ := exists_firstCall hlit
  have hmem : text ∈ (readCall m.params.length s).texts := mem_of_lookup_zip htext
  obtain ⟨hknown, hunknown⟩ := hfirst.unknown
    (fun other ho => by rw [inBody, ho, Bool.true_or]) (hmacros.texts text hmem)
  obtain rfl : next = param := by
    rw [inBody, hunknown, hp] at hknown
    simpa using hknown
  refine ⟨hquiet, hf, [next], ?_, item, hitem, next, List.mem_singleton_self next, hcall⟩
  intro other ho
  obtain rfl := List.mem_singleton.1 ho
  exact ⟨text, htext, other, ho, hfirst⟩

/-- **Whether renaming the parameters of a macro can be observed in a call.**  It can exactly when
the call is not its body with the bound texts for the parameters.  That is what the call is
when nothing is captured, and not when the body uses a knot.  For a macro with one parameter
there is nothing in between. -/
theorem renaming_unobservable (hm : t.lookup name = some m) (hx : m.expanding = false)
    (hren : Renamed t m m' ρ) (hfresh : Fresh (m.params.map ρ) m s) (hmacros : MacroFree t m s) :
    (SameCall t (t.update name fun _ => m') name s ↔ Hygienic t m name s) ∧
      (CaptureFree t m s → Hygienic t m name s) ∧
      (QuietCall t.contains m.params s → (readCall m.params.length s).fault = none →
        UsesKnot t m s → ¬ Hygienic t m name s) ∧
      (m.params.length = 1 → (Hygienic t m name s ↔ CaptureFree t m s)) := by
  refine ⟨sameCall_iff_hygienic hm hren hfresh hmacros, ?_, ?_, ?_⟩
  · exact fun hfree => hfree.hygienic hm hx hren.calls
  · exact fun hquiet hf hknot => hknot.not_hygienic hm hx hren.calls hquiet hf
  · intro hlength
    obtain ⟨p, hp⟩ := List.length_eq_one_iff.1 hlength
    refine ⟨?_, fun hfree => hfree.hygienic hm hx hren.calls⟩
    intro hhygienic
    refine Classical.byContradiction ?_
    intro hfree
    -- The one parameter can only lead back to itself.
    obtain ⟨hquiet, hf, hknot⟩ := usesKnot_of_single hp hren hmacros hfree
    exact hknot.not_hygienic hm hx hren.calls hquiet hf hhygienic

/-! ### The identity macro

`#define M(x) x` stands for its argument, whatever the parameter is called, unless the argument
is the parameter itself.
-/

/-- A name is absent from a text that lacks one of its characters. -/
theorem absent_of_char {name : String} (c : Char) (hc : c ∈ name.toList)
    (hs : ∀ b ∈ s, Char.ofNat b.toNat ≠ c) : Absent name s := by
  intro w hw heq
  rw [← heq, Text.toName, String.toList_ofList] at hc
  obtain ⟨b, hb, hbc⟩ := List.mem_map.1 hc
  exact hs b (hw.subset hb) hbc

/-- The identity macro under that name for its parameter. -/
def identity (param : Byte) : Macro := { params := [Text.toName [param]], body := [param] }

/-- A table that holds nothing but the identity macro. -/
def identityTable : MacroTable := { MacroTable.empty with innermost := [("M", identity 120)] }

theorem identity_renamed :
    Renamed identityTable (identity 120) (identity 121) fun _ => "y" where
  injective := by decide
  params := by decide
  body := by decide +kernel
  calls := by decide +kernel
  idle := rfl

/-- The call `M(1)` or `M(x)`, from the parenthesis on. -/
def identityCall (arg : Byte) : Text := [openParen, arg, closeParen, newline]

theorem identityCall_texts : ∀ arg ∈ [49, 120],
    (readCall 1 (identityCall arg)).texts = [[arg]] := by
  decide +kernel

theorem identity_fresh {arg : Byte} (h : arg ∈ [49, 120]) :
    Fresh ((identity 120).params.map fun _ => "y") (identity 120) (identityCall arg) := by
  have hnames : ∀ name ∈ (identity 120).params.map fun _ => "y", name = "y" := by decide
  have htexts := identityCall_texts arg h
  refine ⟨?_, ?_⟩
  · intro name hn
    rw [hnames name hn]
    refine absent_of_char 'y' (by decide) ?_
    clear htexts
    revert arg
    decide +kernel
  · intro text ht name hn
    obtain rfl : text = [arg] := List.mem_singleton.1 (htexts ▸ ht)
    rw [hnames name hn]
    refine absent_of_char 'y' (by decide) ?_
    clear htexts ht
    revert arg
    decide +kernel

theorem identity_macroFree {arg : Byte} (h : arg ∈ [49, 120]) :
    MacroFree identityTable (identity 120) (identityCall arg) := by
  have htexts := identityCall_texts arg h
  refine ⟨⟨?_, fun _ _ => trivial⟩, ?_⟩
  · clear htexts
    revert arg
    decide +kernel
  · intro text ht
    obtain rfl : text = [arg] := List.mem_singleton.1 (htexts ▸ ht)
    clear htexts ht
    revert arg
    decide +kernel

/-- With a number for the argument nothing is captured. -/
theorem renaming_unobservable_number :
    SameCall identityTable (identityTable.update "M" fun _ => identity 121) "M"
      (identityCall 49) := by
  have harg : (49 : Byte) ∈ [49, 120] := by decide
  have hm : identityTable.lookup "M" = some (identity 120) := rfl
  obtain ⟨hexact, hfree, -, -⟩ := renaming_unobservable hm rfl identity_renamed
    (identity_fresh harg) (identity_macroFree harg)
  refine hexact.2 (hfree ⟨⟨?_, fun _ _ => trivial⟩, ?_⟩)
  · decide +kernel
  · intro _ item _ param _ text htext
    have ht : text ∈ (readCall 1 (identityCall 49)).texts := mem_of_lookup_zip htext
    rw [identityCall_texts 49 harg, List.mem_singleton] at ht
    subst ht
    decide +kernel

/-- **The name of a parameter shows when it is the argument.**  No macro is mentioned and the
new name is fresh, and still `M(x)` is not what it is after renaming. -/
theorem parameter_name_shows :
    Renamed identityTable (identity 120) (identity 121) (fun _ => "y") ∧
      Fresh ((identity 120).params.map fun _ => "y") (identity 120) (identityCall 120) ∧
      MacroFree identityTable (identity 120) (identityCall 120) ∧
      ¬ SameCall identityTable (identityTable.update "M" fun _ => identity 121) "M"
        (identityCall 120) := by
  have harg : (120 : Byte) ∈ [49, 120] := by decide
  refine ⟨identity_renamed, identity_fresh harg, identity_macroFree harg, ?_⟩
  intro hsame
  have hfaults := (hsame [] {}).2.2
  revert hfaults
  decide +kernel

end AsmPrep.Expansion
