/-
The macro that a definition goes on with.

A table remembers it by its place.  Places are used again: after the macro is removed, another
one of the same name may stand there, or a binding, and a scope that is closed takes its places
along.  So a place that is not forgotten in time would lead to a macro that nobody meant.

To say that this does not happen, macros are told apart by numbers here.  Every macro that is
made gets the next number and keeps it for as long as it is there.  A stack of maps that hold
numbered macros needs no places: the macro that the latest definition made is the one with the
number given out for it, and when no map holds that number any more, it is gone.

The table and the stack do the same, operation by operation.  What carries this is that the
place remembered is, at all times, just the place of the number remembered.
-/
import AsmPrep.Proofs.Macro.Scopes

namespace AsmPrep

/-! ### The place remembered -/

namespace MacroTable

variable {mark : Nat × String}

theorem target_popScope_iff (t : MacroTable) :
    t.popScope.target = some mark ↔ t.target = some mark ∧ mark.1 < t.outer.length := by
  obtain ⟨innermost, outer, target, hle⟩ := t
  cases outer with
  | nil =>
    refine ⟨fun h => absurd h (by simp [popScope, empty]), fun h => ?_⟩
    exact absurd h.2 (Nat.not_lt_zero _)
  | cons next others =>
    show target.filter (fun mark => mark.1 != (next :: others).length) = some mark ↔ _
    rw [Option.filter_eq_some_iff, bne_iff_ne]
    refine ⟨fun h => ⟨h.1, ?_⟩, fun h => ⟨h.1, Nat.ne_of_lt h.2⟩⟩
    exact Nat.lt_of_le_of_ne (hle mark h.1) h.2

theorem length_maps_updateTarget (t : MacroTable) (f : Macro → Macro) :
    (t.updateTarget f).maps.length = t.maps.length := by
  rw [length_maps, length_maps]
  unfold updateTarget
  split
  · rfl
  · split
    · rfl
    · split
      · simp
      · rfl

@[simp] theorem target_bind (t : MacroTable) (name : String) (body : Text) :
    (t.bind name body).target = t.target := by
  unfold bind
  split
  · rfl
  · rfl

@[simp] theorem target_update (t : MacroTable) (name : String) (f : Macro → Macro) :
    (t.update name f).target = t.target := by
  unfold update
  split
  · rfl
  · rfl

theorem target_undefine_iff (t : MacroTable) (name : String) :
    (t.undefine name).target = some mark ↔
      t.target = some mark ∧ ((t.maps.top? name).isSome → mark ≠ (t.outer.length, name)) := by
  unfold undefine
  show (if (t.maps.top? name).isSome then _ else _ : MacroTable).target = some mark ↔ _
  split
  · rename_i hheld
    show t.target.filter (fun mark => mark != (t.outer.length, name)) = some mark ↔ _
    rw [Option.filter_eq_some_iff, bne_iff_ne]
    exact and_congr_right fun _ => ⟨fun h _ => h, fun h => h hheld⟩
  · rename_i hfree
    exact ⟨fun h => ⟨h, fun hheld => absurd hheld hfree⟩, And.left⟩

end MacroTable

/-! ### Numbered macros -/

/-- A macro, and how many were made before it. -/
structure Numbered where
  number : Nat
  value : Macro
  deriving DecidableEq

/-- Changes the macro, which keeps its number. -/
def Numbered.change (f : Macro → Macro) (entry : Numbered) : Numbered :=
  { entry with value := f entry.value }

/-- A stack of maps from names to numbered macros. -/
structure MapStack where
  maps : Maps Numbered := Maps.push []
  /-- How many macros were made, by definitions and by bindings. -/
  made : Nat := 0
  /-- The number of the macro that the latest successful definition made. -/
  latest? : Option Nat := none

namespace MapStack

open MacroTable (Operation)

variable {s s' : MapStack} {t : MacroTable}

/-- Makes a macro and puts it into the top map. -/
def add (s : MapStack) (name : String) (m : Macro) : MapStack :=
  { s with maps := s.maps.put name (some ⟨s.made, m⟩), made := s.made + 1 }

/-- The stack after an operation. -/
def apply (s : MapStack) : Operation → MapStack
  | .pushScope => { s with maps := s.maps.push }
  | .popScope => { s with maps := s.maps.pop }
  | .clear => { s with maps := Maps.push [] }
  | .define name fill =>
    if (s.maps.top? name).isSome then s
    else { s.add name (fill {}) with latest? := some s.made }
  | .bind name body => if (s.maps.top? name).isSome then s else s.add name { body }
  | .undefine name => { s with maps := s.maps.put name none }
  | .change name f => { s with maps := s.maps.change name (·.change f) }
  | .changeTarget f =>
    { s with
      maps := s.maps.mapEntries fun entry =>
        if s.latest? = some entry.number then entry.change f else entry }

theorem apply_define (s : MapStack) (name : String) (fill : Macro → Macro) :
    s.apply (.define name fill) =
      if (s.maps.top? name).isSome then s
      else { s.add name (fill {}) with latest? := some s.made } := rfl

theorem apply_bind (s : MapStack) (name : String) (body : Text) :
    s.apply (.bind name body) = if (s.maps.top? name).isSome then s else s.add name { body } := rfl

/-- The stack after some operations, one after the other. -/
def after (s : MapStack) (ops : List Operation) : MapStack := ops.foldl apply s

/-- The macros without their numbers. -/
def values (s : MapStack) : Maps Macro := s.maps.mapEntries Numbered.value

/-- The numbers without their macros. -/
def numbers (s : MapStack) : Maps Nat := s.maps.mapEntries Numbered.number

/-- The macro that the latest successful definition made is there, and this is what it is now. -/
def Latest (s : MapStack) (m : Macro) : Prop :=
  ∃ level name number, s.latest? = some number ∧ s.maps.at? level name = some ⟨number, m⟩

/-- The macro that the latest successful definition made is there, in that place. -/
def LatestAt (s : MapStack) (level : Nat) (name : String) : Prop :=
  ∃ number, s.latest? = some number ∧ s.numbers.at? level name = some number

/-! ### What operations do to the numbers -/

theorem numbers_popScope (s : MapStack) : (s.apply .popScope).numbers = s.numbers.pop :=
  Maps.mapEntries_pop _ _

theorem numbers_add (s : MapStack) (name : String) (m : Macro) :
    (s.add name m).numbers = s.numbers.put name (some s.made) :=
  Maps.mapEntries_put _ _ _ _

theorem numbers_undefine (s : MapStack) (name : String) :
    (s.apply (.undefine name)).numbers = s.numbers.put name none :=
  Maps.mapEntries_put _ _ _ _

theorem numbers_change (s : MapStack) (name : String) (f : Macro → Macro) :
    (s.apply (.change name f)).numbers = s.numbers := by
  have hkeep : ∀ entry : Numbered, (entry.change f).number = id entry.number := fun _ => rfl
  exact (Maps.mapEntries_change hkeep name s.maps).trans (Maps.change_id name _)

theorem numbers_changeTarget (s : MapStack) (f : Macro → Macro) :
    (s.apply (.changeTarget f)).numbers = s.numbers := by
  refine Maps.ext_at? (by simp [numbers, apply]) fun level name => ?_
  simp only [numbers, apply, Maps.at?_mapEntries, Option.map_map]
  refine congrArg (Option.map · _) (funext fun entry => ?_)
  show Numbered.number (if _ then _ else _) = _
  split
  · rfl
  · rfl

/-- Numbers tell macros apart. -/
structure Counted (s : MapStack) : Prop where
  latest_lt : ∀ {number}, s.latest? = some number → number < s.made
  number_lt : ∀ {level name number}, s.numbers.at? level name = some number → number < s.made
  /-- No number is there twice. -/
  distinct : ∀ {level name level' name' number}, s.numbers.at? level name = some number →
    s.numbers.at? level' name' = some number → level = level' ∧ name = name'

namespace Counted

theorem empty : Counted {} := by
  have hnone : ∀ level name number, (numbers {}).at? level name ≠ some number := by
    intro level name number h
    exact absurd ((Maps.at?_push [] level name).symm.trans h) (by simp [Maps.at?])
  exact ⟨fun h => absurd h (by simp), fun h => absurd h (hnone _ _ _),
    fun h _ => absurd h (hnone _ _ _)⟩

/-- Nothing is counted when entries only go. -/
theorem less (h : s.Counted) (hmade : s'.made = s.made) (hlatest : s'.latest? = s.latest?)
    (hless : ∀ level name number, s'.numbers.at? level name = some number →
      s.numbers.at? level name = some number) : s'.Counted where
  latest_lt hnumber := hmade ▸ h.latest_lt (hlatest ▸ hnumber)
  number_lt hnumber := hmade ▸ h.number_lt (hless _ _ _ hnumber)
  distinct hfirst hsecond := h.distinct (hless _ _ _ hfirst) (hless _ _ _ hsecond)

/-- A new macro has a number that no other one has. -/
theorem add (h : s.Counted) (name : String) (m : Macro) : (s.add name m).Counted where
  latest_lt hnumber := Nat.lt_succ_of_lt (h.latest_lt hnumber)
  number_lt hnumber := by
    rw [numbers_add, Maps.at?_put] at hnumber
    split at hnumber
    · obtain rfl := Option.some.inj hnumber
      exact Nat.lt_succ_self _
    · exact Nat.lt_succ_of_lt (h.number_lt hnumber)
  distinct hfirst hsecond := by
    rw [numbers_add, Maps.at?_put] at hfirst hsecond
    split at hfirst
    · rename_i hplace
      obtain rfl := Option.some.inj hfirst
      split at hsecond
      · rename_i hplace'
        exact ⟨Nat.succ.inj (hplace.1.trans hplace'.1.symm), hplace.2.symm.trans hplace'.2⟩
      · exact absurd (h.number_lt hsecond) (Nat.lt_irrefl _)
    · split at hsecond
      · obtain rfl := Option.some.inj hsecond
        exact absurd (h.number_lt hfirst) (Nat.lt_irrefl _)
      · exact h.distinct hfirst hsecond

theorem apply (h : s.Counted) (op : Operation) : (s.apply op).Counted := by
  cases op with
  | pushScope =>
    refine h.less rfl rfl fun level name number hnumber => ?_
    exact (Maps.at?_push _ _ _).symm.trans hnumber
  | popScope =>
    refine h.less rfl rfl fun level name number hnumber => ?_
    rw [numbers_popScope, Maps.at?_pop] at hnumber
    split at hnumber
    · exact hnumber
    · exact absurd hnumber (by simp)
  | clear =>
    refine h.less rfl rfl fun level name number hnumber => ?_
    exact absurd ((Maps.at?_push [] level name).symm.trans hnumber) (by simp [Maps.at?])
  | define name fill =>
    rw [apply_define]
    split
    · exact h
    · have hadd := h.add name (fill {})
      exact ⟨fun hnumber => Option.some.inj hnumber ▸ Nat.lt_succ_self _, hadd.number_lt,
        hadd.distinct⟩
  | bind name body =>
    rw [apply_bind]
    split
    · exact h
    · exact h.add name { body }
  | undefine name =>
    refine h.less rfl rfl fun level other number hnumber => ?_
    rw [numbers_undefine, Maps.at?_put] at hnumber
    split at hnumber
    · exact absurd hnumber (by simp)
    · exact hnumber
  | change name f =>
    refine h.less rfl rfl fun level other number hnumber => ?_
    rwa [numbers_change] at hnumber
  | changeTarget f =>
    refine h.less rfl rfl fun level other number hnumber => ?_
    rwa [numbers_changeTarget] at hnumber

end Counted

/-! ### Where the latest definition is -/

section

variable {level : Nat} {name other : String}

theorem latestAt_iff {entry : Numbered} (h : s.maps.at? level name = some entry) :
    s.LatestAt level name ↔ s.latest? = some entry.number := by
  unfold LatestAt numbers
  rw [Maps.at?_mapEntries, h]
  simp [eq_comm]

theorem latestAt_push : (s.apply .pushScope).LatestAt level name ↔ s.LatestAt level name := by
  show (∃ number, _ ∧ s.numbers.push.at? level name = some number) ↔ _
  rw [Maps.at?_push]
  rfl

theorem latestAt_pop :
    (s.apply .popScope).LatestAt level name ↔
      s.LatestAt level name ∧ level + 1 < s.numbers.length := by
  unfold LatestAt
  rw [numbers_popScope, Maps.at?_pop]
  split
  · rename_i hlt
    exact (and_iff_left hlt).symm
  · rename_i hge
    refine ⟨?_, fun h => absurd h.2 hge⟩
    rintro ⟨number, -, hnumber⟩
    exact absurd hnumber (by simp)

theorem not_latestAt_clear : ¬ (s.apply .clear).LatestAt level name := by
  rintro ⟨number, -, hnumber⟩
  exact absurd ((Maps.at?_push [] level name).symm.trans hnumber) (by simp [Maps.at?])

/-- A name that the top map lacks is not the place of anything. -/
theorem not_latestAt_free (hfree : (s.maps.top? name).isSome = false)
    (hlevel : level + 1 = s.numbers.length) : ¬ s.LatestAt level name := by
  rintro ⟨number, -, hnumber⟩
  have hnone : s.maps.top? name = none := by simpa using hfree
  have htop : s.numbers.top? name = none := by
    rw [numbers, Maps.top?_mapEntries, hnone, Option.map_none]
  rw [Maps.top?_eq, ← hlevel, Nat.add_sub_cancel] at htop
  exact absurd (htop.symm.trans hnumber) (by simp)

/-- What is defined is where the latest definition is. -/
theorem latestAt_define (hs : s.Counted) (m : Macro) :
    ({ s.add name m with latest? := some s.made } : MapStack).LatestAt level other ↔
      level + 1 = s.numbers.length ∧ name = other := by
  show (∃ number, some s.made = some number ∧
    (s.add name m).numbers.at? level other = some number) ↔ _
  rw [numbers_add, Maps.at?_put]
  constructor
  · rintro ⟨number, hmade, hnumber⟩
    obtain rfl := Option.some.inj hmade
    split at hnumber
    · rename_i hplace
      exact hplace
    · exact absurd (hs.number_lt hnumber) (Nat.lt_irrefl _)
  · intro hplace
    exact ⟨s.made, rfl, if_pos hplace⟩

/-- A binding is not a definition, and takes the place of none. -/
theorem latestAt_add (hs : s.Counted) (hfree : (s.maps.top? name).isSome = false) (m : Macro) :
    (s.add name m).LatestAt level other ↔ s.LatestAt level other := by
  by_cases hplace : level + 1 = s.numbers.length ∧ name = other
  · refine iff_of_false ?_ (hplace.2 ▸ not_latestAt_free hfree hplace.1)
    rintro ⟨number, hlatest, hnumber⟩
    rw [numbers_add, Maps.at?_put, if_pos hplace] at hnumber
    obtain rfl := Option.some.inj hnumber
    exact absurd (hs.latest_lt hlatest) (Nat.lt_irrefl _)
  · unfold LatestAt
    rw [numbers_add, Maps.at?_put, if_neg hplace]
    rfl

theorem latestAt_undefine :
    (s.apply (.undefine name)).LatestAt level other ↔
      s.LatestAt level other ∧ ¬ (level + 1 = s.numbers.length ∧ name = other) := by
  unfold LatestAt
  rw [numbers_undefine, Maps.at?_put]
  split
  · rename_i hplace
    refine ⟨?_, fun h => absurd hplace h.2⟩
    rintro ⟨number, -, hnumber⟩
    exact absurd hnumber (by simp)
  · rename_i hplace
    exact (and_iff_left hplace).symm

theorem latestAt_change (f : Macro → Macro) :
    (s.apply (.change name f)).LatestAt level other ↔ s.LatestAt level other := by
  unfold LatestAt
  rw [numbers_change]
  rfl

theorem latestAt_changeTarget (f : Macro → Macro) :
    (s.apply (.changeTarget f)).LatestAt level name ↔ s.LatestAt level name := by
  unfold LatestAt
  rw [numbers_changeTarget]
  rfl

end

/-! ### The stack and the table -/

/-- The stack holds the macros of the table, and the place that the table remembers is the one
of the latest definition. -/
structure Represents (s : MapStack) (t : MacroTable) : Prop where
  values : s.values = t.maps
  target : ∀ level name, t.target = some (level, name) ↔ s.LatestAt level name

namespace Represents

theorem empty : Represents {} .empty := by
  refine ⟨rfl, fun level name => iff_of_false (Option.some_ne_none _).symm ?_⟩
  rintro ⟨number, h, -⟩
  exact absurd h (by simp)

theorem length_numbers (h : s.Represents t) : s.numbers.length = t.outer.length + 1 := by
  rw [← t.length_maps, ← h.values, numbers, MapStack.values, Maps.length_mapEntries,
    Maps.length_mapEntries]

/-- Both top maps have the name or neither has. -/
theorem isSome_top? (h : s.Represents t) (name : String) :
    (s.maps.top? name).isSome = (t.maps.top? name).isSome := by
  rw [← h.values, MapStack.values, Maps.top?_mapEntries, Option.isSome_map]

theorem pushScope (h : s.Represents t) : (s.apply .pushScope).Represents t.pushScope where
  values := by
    rw [t.maps_pushScope, ← h.values]
    exact Maps.mapEntries_push _ _
  target level name := (h.target level name).trans latestAt_push.symm

theorem popScope (h : s.Represents t) : (s.apply .popScope).Represents t.popScope where
  values := by
    rw [t.maps_popScope, ← h.values]
    exact Maps.mapEntries_pop _ _
  target level name := by
    rw [t.target_popScope_iff, latestAt_pop, h.length_numbers, h.target, Nat.succ_lt_succ_iff]

theorem clear (s : MapStack) (t : MacroTable) : (s.apply .clear).Represents t.clear where
  values := by
    rw [t.maps_clear]
    exact Maps.mapEntries_push _ []
  target _ _ := iff_of_false (Option.some_ne_none _).symm not_latestAt_clear

theorem define (h : s.Represents t) (hs : s.Counted) (name : String) (m : Macro) :
    ({ s.add name m with latest? := some s.made } : MapStack).Represents (t.withMacro name m) where
  values := by
    rw [t.maps_withMacro, ← h.values]
    exact Maps.mapEntries_put _ _ _ _
  target level other := by
    rw [latestAt_define hs, h.length_numbers, Nat.succ_inj]
    show some (t.outer.length, name) = some (level, other) ↔ _
    rw [Option.some_inj, Prod.mk.injEq, eq_comm]

theorem bind (h : s.Represents t) (hs : s.Counted) (name : String) (body : Text) :
    (s.apply (.bind name body)).Represents (t.bind name body) := by
  rw [apply_bind]
  split
  · rename_i hheld
    refine ⟨?_, fun level other => ?_⟩
    · rw [t.maps_bind, ← h.isSome_top?, if_pos hheld]
      exact h.values
    · rw [t.target_bind]
      exact h.target level other
  · rename_i hfree
    refine ⟨?_, fun level other => ?_⟩
    · rw [t.maps_bind, ← h.isSome_top?, if_neg hfree, ← h.values]
      exact Maps.mapEntries_put _ _ _ _
    · rw [t.target_bind, latestAt_add hs (by simpa using hfree)]
      exact h.target level other

theorem undefine (h : s.Represents t) (name : String) :
    (s.apply (.undefine name)).Represents (t.undefine name) where
  values := by
    rw [t.maps_undefine, ← h.values]
    exact Maps.mapEntries_put _ _ _ _
  target level other := by
    rw [t.target_undefine_iff, latestAt_undefine, h.target]
    refine and_congr_right fun hlatest => ?_
    have hplace : (level, other) ≠ (t.outer.length, name) ↔
        ¬ (level + 1 = s.numbers.length ∧ name = other) := by
      rw [h.length_numbers, Nat.succ_inj, ne_eq, Prod.mk.injEq, eq_comm (a := other)]
    rw [← hplace, ← h.isSome_top?]
    cases hheld : (s.maps.top? name).isSome with
    | true => simp
    | false =>
      refine iff_of_true (fun h => absurd h (by simp)) (hplace.2 fun hthere => ?_)
      exact not_latestAt_free hheld hthere.1 (hthere.2 ▸ hlatest)

theorem change (h : s.Represents t) (name : String) (f : Macro → Macro) :
    (s.apply (.change name f)).Represents (t.update name f) where
  values := by
    have hvalue : ∀ entry : Numbered, (entry.change f).value = f entry.value := fun _ => rfl
    rw [t.maps_update, ← h.values]
    exact Maps.mapEntries_change hvalue name s.maps
  target level other := by
    rw [t.target_update, latestAt_change]
    exact h.target level other

theorem changeTarget (h : s.Represents t) (f : Macro → Macro) :
    (s.apply (.changeTarget f)).Represents (t.updateTarget f) where
  values := by
    refine Maps.ext_at? ?_ fun level name => ?_
    · rw [t.length_maps_updateTarget, ← h.values]
      simp [MapStack.values, MapStack.apply]
    · rw [t.at?_updateTarget, ← h.values]
      simp only [MapStack.values, MapStack.apply, Maps.at?_mapEntries]
      cases hentry : s.maps.at? level name with
      | none => simp
      | some entry =>
        have htarget := (h.target level name).trans (latestAt_iff hentry)
        by_cases hlatest : s.latest? = some entry.number
        · rw [if_pos (htarget.2 hlatest)]
          simp [hlatest, Numbered.change]
        · rw [if_neg (mt htarget.1 hlatest)]
          simp [hlatest]
  target level name := by
    rw [t.target_updateTarget, latestAt_changeTarget]
    exact h.target level name

/-- One operation. -/
theorem apply (h : s.Represents t) (hs : s.Counted) (op : Operation) :
    (s.apply op).Represents (op.apply t) := by
  cases op with
  | pushScope => exact h.pushScope
  | popScope => exact h.popScope
  | clear => exact clear s t
  | define name fill =>
    rw [apply_define, MacroTable.Operation.apply_define, h.isSome_top?]
    split
    · exact h
    · exact h.define hs name (fill {})
  | bind name body => exact h.bind hs name body
  | undefine name => exact h.undefine name
  | change name f => exact h.change name f
  | changeTarget f => exact h.changeTarget f

/-- All operations, one after the other. -/
theorem after (h : s.Represents t) (hs : s.Counted) (ops : List Operation) :
    (s.after ops).Represents (t.after ops) ∧ (s.after ops).Counted := by
  induction ops generalizing s t with
  | nil => exact ⟨h, hs⟩
  | cons op ops ih => exact ih (h.apply hs op) (hs.apply op)

/-- What a definition goes on with is the macro that the latest one made. -/
theorem targetMacro?_iff (h : s.Represents t) (m : Macro) :
    t.targetMacro? = some m ↔ s.Latest m := by
  rw [t.targetMacro?_eq, Option.bind_eq_some_iff, ← h.values]
  simp only [Prod.exists, h.target, MapStack.values, Maps.at?_mapEntries,
    Option.map_eq_some_iff]
  constructor
  · rintro ⟨level, name, hlatest, ⟨number, value⟩, hentry, rfl⟩
    exact ⟨level, name, number, (latestAt_iff hentry).1 hlatest, hentry⟩
  · rintro ⟨level, name, number, hlatest, hentry⟩
    exact ⟨level, name, (latestAt_iff hentry).2 hlatest, _, hentry, rfl⟩

end Represents

end MapStack

/-! ### Tables -/

namespace MacroTable

/-- A name means the entry of the innermost scope that has it, to look at and to change; a name
that no scope has means nothing, either way. -/
theorem lookup_and_update (t : MacroTable) (name : String) :
    (∃ level m, t.maps.Uppermost name level m ∧ t.lookup name = some m ∧
      ∀ f place other, (t.update name f).maps.at? place other =
        if place = level ∧ other = name then some (f m) else t.maps.at? place other) ∨
    (∀ level, t.maps.at? level name = none) ∧ t.lookup name = none ∧
      ∀ f, t.update name f = t := by
  cases hm : t.lookup name with
  | some m =>
    rw [lookup_maps] at hm
    obtain ⟨level, hupper⟩ := Maps.lookup_eq_some_iff.1 hm
    refine .inl ⟨level, m, hupper, rfl, fun f place other => ?_⟩
    rw [maps_update]
    exact hupper.at?_change f place other
  | none =>
    refine .inr ⟨Maps.lookup_eq_none_iff.1 (t.lookup_maps name ▸ hm), rfl, fun f => ?_⟩
    exact update_eq_self fun n hn => absurd (hm.symm.trans hn) (by simp)

/-- **A table is a stack of maps with one target.**  However a table has come about, it is the
stack of maps that the same operations make of numbered macros, which is never without a map.  A
name means the entry of the innermost scope that has it, to look at and to change.  No two macros
have one number, and what a definition goes on with is the macro with the number of the latest
definition, for as long as it is there.  And where scopes are opened and closed again and no macro
is changed, all scopes below are as they were, so that when the first one is closed last every
name means what it meant. -/
theorem stack_of_maps_with_one_target (ops : List Operation) :
    let t := empty.after ops
    let s := MapStack.after {} ops
    (s.maps ≠ [] ∧ t.maps = s.values) ∧
    (∀ name,
      (∃ level m, t.maps.Uppermost name level m ∧ t.lookup name = some m ∧
        ∀ f place other, (t.update name f).maps.at? place other =
          if place = level ∧ other = name then some (f m) else t.maps.at? place other) ∨
      (∀ level, t.maps.at? level name = none) ∧ t.lookup name = none ∧
        ∀ f, t.update name f = t) ∧
    (s.Counted ∧ ∀ m, t.targetMacro? = some m ↔ s.Latest m) ∧
    ∀ inner : List Operation, (∀ op ∈ inner, op.changes = false) →
      (∀ k, t.depth < (t.after (.pushScope :: inner.take k)).depth) →
      let u := t.after (.pushScope :: inner ++ [.popScope])
      (∃ opened, u.scopes = opened ++ t.scopes) ∧
        (u.depth = t.depth → ∀ name, u.lookup name = t.lookup name) := by
  intro t s
  obtain ⟨hrepresents, hcounted⟩ := MapStack.Represents.empty.after .empty ops
  have hmaps : s.maps ≠ [] := by
    intro hnone
    have hlength := hrepresents.length_numbers
    rw [MapStack.numbers, Maps.length_mapEntries, show (MapStack.after {} ops).maps = [] from hnone]
      at hlength
    exact absurd hlength (by simp)
  refine ⟨⟨hmaps, hrepresents.values.symm⟩, t.lookup_and_update,
    ⟨hcounted, hrepresents.targetMacro?_iff⟩, ?_⟩
  intro inner hinner hdepth u
  exact ⟨t.scopes_enclosed hinner hdepth, t.lookup_enclosed hinner hdepth⟩

/-- A definition, and in a scope above it a binding of its name with a line appended to it. -/
def hidingBinding : List Operation :=
  [.define "A" (·.setBody (Text.ofString "1")), .pushScope, .bind "A" (Text.ofString "2"),
    .change "A" (·.appendLine (Text.ofString "3"))]

/-- In a scope above them a definition that is removed again, while another scope with a binding
comes and goes. -/
def passingScopes : List Operation :=
  [.define "B" id, .pushScope, .bind "A" (Text.ofString "4"), .undefine "A", .popScope,
    .undefine "B"]

/-- The definition goes on with the macro that is hidden, and the name means the binding before
and after. -/
theorem binding_hides_target :
    let t := empty.after hidingBinding
    let u := t.after (.pushScope :: passingScopes ++ [.popScope])
    (∀ op ∈ passingScopes, op.changes = false) ∧
      (∀ k, t.depth < (t.after (.pushScope :: passingScopes.take k)).depth) ∧
      u.depth = t.depth ∧ t.targetMacro? = some { body := Text.ofString "1" } ∧
      u.lookup "A" = some { body := Text.ofString "2\n3" } := by
  intro t u
  have hinner : ∀ op ∈ passingScopes, op.changes = false := by decide
  have hdepth : ∀ k, t.depth < (t.after (.pushScope :: passingScopes.take k)).depth := by
    have hmost : ∀ k < 7,
        t.depth < (t.after (.pushScope :: passingScopes.take k)).depth := by decide +kernel
    intro k
    rcases Nat.lt_or_ge k 7 with hlt | hge
    · exact hmost k hlt
    · rw [List.take_of_length_le (Nat.le_of_succ_le hge)]
      exact hmost 6 (by decide)
  have hend : u.depth = t.depth := by decide +kernel
  obtain ⟨-, -, ⟨-, htarget⟩, henclosed⟩ := stack_of_maps_with_one_target hidingBinding
  refine ⟨hinner, hdepth, hend, (htarget _).2 ⟨0, "A", 0, by decide +kernel, by decide +kernel⟩, ?_⟩
  rw [(henclosed passingScopes hinner hdepth).2 hend "A"]
  decide +kernel

end MacroTable

end AsmPrep
