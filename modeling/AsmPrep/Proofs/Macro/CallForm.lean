/-
The two forms of a call.

The arguments of a call stand in parentheses, or bare up to the end of the statement.  An
argument that is read the same in either form cannot tell them apart: a plain text whose commas
and parentheses are nested, or anything in angle brackets.  Then the two calls bind the same
texts, in the same state, and what is left is the scan of the same body.

One thing has to be asked of a bare list.  If it begins with a parenthesis, it is taken for a list
that stands in some.
-/
import AsmPrep.Proofs.Macro.Angled
import AsmPrep.Proofs.Macro.Call

namespace AsmPrep.Expansion

open Byte Text

/-- An argument as it is written in a call. -/
inductive CallArgument where
  | plain (ts : List Token)
  | angled (text : Text)

namespace CallArgument

def text : CallArgument → Text
  | plain ts => spell ts
  | angled text => Expansion.angled text

/-- The text that the argument is bound as. -/
def bound : CallArgument → Text
  | plain ts => trim (spell ts)
  | angled text => chomp text

/-- The argument stands for itself, with those names known. -/
def Fits (known : String → Bool) : CallArgument → Prop
  | plain ts => Argument known ts
  | angled text => Verbatim text

theorem Fits.taken {known : String → Bool} {arg : CallArgument} (h : arg.Fits known)
    (inParens : Bool) : Taken known inParens arg.text arg.bound := by
  cases arg with
  | plain ts => exact Argument.taken h inParens
  | angled text => exact angled_taken h

end CallArgument

/-- **Both forms of a call agree.**  A bare call and the call with the same arguments in
parentheses write the same, leave the same state with the same reports, and stop at the end of
the statement. -/
theorem scanCall_forms {budget : Nat} {name gap blanks tail : Text} {m : Macro}
    {args : List CallArgument} (st : State) (out : Buffer)
    (hname : Lexeme.name? name = some (name, []))
    (hm : st.table.lookup (toName name) = some m) (hx : m.expanding = false)
    (hne : m.params ≠ []) (hlength : args.length = m.params.length)
    (hargs : ∀ arg ∈ args, arg.Fits (inBody st.table m))
    (hopen : ∀ arg ∈ args.head?, (skipBlanks arg.text).head? ≠ some openParen)
    (htail : atEndOfStatement tail = true)
    (hgap : ∀ c ∈ gap, isBlank c = true)
    (hapart : gap = [] → Delimited (called false CallArgument.text args tail))
    (hblanks : ∀ c ∈ blanks, isBlank c = true) :
    ∃ p q,
      scanCall (expand (budget + 1)) (name ++ (gap ++ called false CallArgument.text args tail))
        st out = some p ∧
      scanCall (expand (budget + 1)) (name ++ (blanks ++ called true CallArgument.text args tail))
        st out = some q ∧
      p.out = q.out ∧ p.state = q.state ∧ p.rest = tail ∧ q.rest = tail := by
  have hargsne : args ≠ [] := by
    rw [← List.length_pos_iff, hlength, List.length_pos_iff]
    exact hne
  have hstart : blanks = [] → Delimited (called true CallArgument.text args tail) :=
    fun _ => delimited_parens _ _ _
  obtain ⟨p, hp, hprest, hpstate, hpout⟩ := scanCall_called false tail CallArgument.text
    CallArgument.bound args budget st out hname hm hx hargsne hlength
    (fun arg harg => (hargs arg harg).taken false) hgap hapart fun _ => ⟨htail, hopen⟩
  obtain ⟨q, hq, hqrest, hqstate, hqout⟩ := scanCall_called true tail CallArgument.text
    CallArgument.bound args budget st out hname hm hx hargsne hlength
    (fun arg harg => (hargs arg harg).taken true) hblanks hstart
    bareList_parens
  exact ⟨p, q, hp, hq, hpout.trans hqout.symm, hpstate.trans hqstate.symm, hprest, hqrest⟩

/-- A bare list with a parenthesis that is never closed, and one with a comma inside. -/
theorem scanCall_forms_twofold :
    ∃ p q,
      scanCall (expand 3) (ofString "M <(>, f(1,2) ;c")
        { table := { innermost := [("M", twofold)] } } {} = some p ∧
      scanCall (expand 3) (ofString "M(<(>, f(1,2) );c")
        { table := { innermost := [("M", twofold)] } } {} = some q ∧
      p.out = q.out ∧ p.state = q.state ∧ p.rest = ofString ";c" ∧ q.rest = ofString ";c" := by
  let table : MacroTable := { innermost := [("M", twofold)] }
  let pair : List Token :=
    [.byte 32, .name [102], .byte 40, .number [49], .byte 44, .number [50], .byte 41, .byte 32]
  have hname : Lexeme.name? (ofString "M") = some (ofString "M", []) := by decide +kernel
  have hm : table.lookup (toName (ofString "M")) = some twofold := by decide +kernel
  have hpair : Argument (inBody table twofold) pair := by
    refine ⟨by decide +kernel, fun text htext => ?_, by decide +kernel, by decide +kernel⟩
    obtain rfl : text = [102] := by simpa [pair] using htext
    decide +kernel
  have hangled : Verbatim [openParen] := by decide +kernel
  have hargs : ∀ arg ∈ [.angled [openParen], .plain pair],
      CallArgument.Fits (inBody table twofold) arg :=
    List.forall_mem_cons.2 ⟨hangled, List.forall_mem_singleton.2 hpair⟩
  have hgap : ∀ c ∈ [space], isBlank c = true := List.forall_mem_singleton.2 rfl
  have hblanks : ∀ c ∈ ([] : Text), isBlank c = true := fun c hc => absurd hc List.not_mem_nil
  have htail : atEndOfStatement (ofString ";c") = true := rfl
  exact scanCall_forms { table } {} hname hm rfl (by decide) rfl hargs (by decide +kernel) htail
    hgap (fun hnil => absurd hnil (by decide)) hblanks

end AsmPrep.Expansion
