/-
Expansions are nested no deeper than the table's weight.

A call can only be expanded while its macro is unmarked, and then it is the macro the name
means that gets the mark, whether a definition or a binding that hides one.  The mark takes
the weight of the macro off the table, one and one more for each parameter; binding the
arguments puts back at most one for each.  So an expansion inside another one starts from a
table that weighs less, and the depth of nesting that is handed down is never used up.
Depth and weight together never grow, which bounds the number of scopes.

The budget is only a way to write the recursion down: from the weight on, a larger one makes
no difference.
-/
import AsmPrep.Proofs.Macro.Balance

namespace AsmPrep.Expansion

/-- No call was left out so far, and there were never more than `most` scopes; the table has
`depth` scopes and weighs at most `weight`. -/
structure Within (most depth weight : Nat) (st : State) : Prop where
  starved : st.starved = false
  deepest : st.deepest ≤ most
  depth : st.table.depth = depth
  weight : st.table.weight ≤ weight

namespace Within

variable {most d w : Nat} {st : State}

theorem report (h : Within most d w st) (fault : Fault) : Within most d w (st.report fault) :=
  ⟨h.starved, h.deepest, h.depth, h.weight⟩

theorem bind (h : Within most d w st) (param : String) (body : Text) :
    Within most d (w + 1) (st.bind param body) where
  starved := h.starved
  deepest := h.deepest
  depth := (MacroTable.depth_bind _ _ _).trans h.depth
  weight := Nat.le_trans (MacroTable.weight_bind_le _ _ _) (Nat.succ_le_succ h.weight)

/-- Entering a macro takes its weight off the table. -/
theorem enter (h : Within most d w st) (hd : d + w ≤ most) {name : String} {m : Macro}
    (hm : st.table.lookup name = some m) (hx : m.expanding = false) :
    Within most (d + 1) (w - 1 - m.params.length) (st.enter name) := by
  have hmark := MacroTable.weight_mark hm hx
  have hdepth := h.depth
  have hweight := h.weight
  refine ⟨h.starved, ?_, ?_, ?_⟩
  · show max st.deepest ((st.table.update name _).pushScope).depth ≤ most
    rw [MacroTable.depth_pushScope, MacroTable.depth_update]
    have hdeepest := h.deepest
    omega
  · show ((st.table.update name _).pushScope).depth = d + 1
    rw [MacroTable.depth_pushScope, MacroTable.depth_update, hdepth]
  · show ((st.table.update name _).pushScope).weight ≤ w - 1 - m.params.length
    rw [MacroTable.weight_pushScope]
    omega

end Within

/-- An expansion stays within bounds that its table is within, when the expansions inside it
do, which are given one level of nesting less. -/
theorem Outcome.within {budget most d w : Nat} {name : String} {s rest : Text} {st st' : State}
    (h : Outcome budget name s st rest st') (hw : w ≤ budget) (hd : d + w ≤ most)
    (hst : Within most d w st)
    (he : ∀ b, budget = b + 1 → ∀ d w, w ≤ b → d + w ≤ most → ∀ name s st out,
      Within most d w st → Within most d w (Expansion.expand b name s st out).state) :
    Within most d w st' := by
  have htable : st'.table = st.table := h.table_eq fun b _ => expand_table b
  cases h with
  | unknown => exact hst
  | recursive => exact hst.report _
  | starved hm hx hb =>
    -- an unmarked macro weighs something, so some nesting is left
    have hmark := MacroTable.weight_mark hm hx
    have hweight := hst.weight
    omega
  | @opened m b n rest left bound made hm hx hb hn hbound hmade =>
    have hmark := MacroTable.weight_mark hm hx
    have hweight := hst.weight
    have hin := hst.enter hd hm hx
    have hbound : Within most (d + 1) (w - 1 - m.params.length + n) bound := by
      refine hbound.keeps (P := fun i now => i ≤ m.params.length →
        Within most (d + 1) (w - 1 - m.params.length + i) now) ?_ ?_ ?_ (fun _ => hin) hn
      · intro i name s now out hp hi
        exact he b hb _ _ (by omega) (by omega) name s now out (hp hi)
      · intro i now fault hp hi
        exact (hp hi).report fault
      · intro i now param body hp hi
        exact (hp (Nat.le_of_succ_le hi)).bind param body
    have hmade : Within most (d + 1) (w - 1 - m.params.length + n) made := by
      refine hmade.keeps (P := fun i now => i = 0 →
        Within most (d + 1) (w - 1 - m.params.length + n) now) ?_ ?_ ?_ (fun _ => hbound) rfl
      · intro i name s now out hp hi
        exact he b hb _ _ (by omega) (by omega) name s now out (hp hi)
      · intro i now fault hp hi
        exact (hp hi).report fault
      · intro i now param body _ hi
        exact absurd hi (Nat.succ_ne_zero i)
    exact ⟨hmade.starved, hmade.deepest, htable ▸ hst.depth, htable ▸ hst.weight⟩

/-- **An expansion that is given the weight of its table as budget leaves no call out**, and
opens no more scopes than depth and weight come to. -/
theorem expand_within {budget most d w : Nat} (hw : w ≤ budget) (hd : d + w ≤ most)
    (name : String) (s : Text) (st : State) (out : Buffer) (hst : Within most d w st) :
    Within most d w (Expansion.expand budget name s st out).state := by
  induction budget generalizing name s st out d w with
  | zero =>
    refine (expand_outcome 0 name s st out).within hw hd hst ?_
    intro b hb
    exact absurd hb (Nat.succ_ne_zero b).symm
  | succ budget ih =>
    refine (expand_outcome (budget + 1) name s st out).within hw hd hst ?_
    intro b hb d w hw hd name s st out hst
    obtain rfl := Nat.succ.inj hb
    exact ih hw hd name s st out hst

end AsmPrep.Expansion
