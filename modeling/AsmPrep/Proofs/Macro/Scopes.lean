/-
The scopes of a table as maps, one on top of the other.

How a scope keeps its macros is no concern of those who use a table: a scope is a map from
names to macros, and a table is a stack of such maps.  An entry of the stack has a place,
which is the number of maps below its own and its name; it keeps that place while maps come
and go on top.

Each operation on a table is an operation on the stack.  Reading and changing a macro go to
the uppermost map that has the name.  All else is done to the top map, so what lies below a
scope that is opened is there as it was when that scope is closed.
-/
import AsmPrep.Proofs.Macro.Table
import Mathlib.Logic.Function.Basic

namespace AsmPrep

/-- Maps from names, one on top of the other, the top one first. -/
abbrev Maps (α : Type) := List (String → Option α)

namespace Maps

variable {α β : Type} {maps : Maps α} {name : String} {level : Nat} {entry : α}

/-- What the map that has `level` maps below it says of a name. -/
def at? : Maps α → Nat → String → Option α
  | [], _, _ => none
  | map :: maps, level, name => if level = maps.length then map name else at? maps level name

/-- What the uppermost map that has the name says of it. -/
def lookup (maps : Maps α) (name : String) : Option α := maps.findSome? (· name)

/-- What the top map says of a name. -/
def top? (maps : Maps α) (name : String) : Option α := maps.head?.bind (· name)

/-- A map with nothing in it comes on top. -/
def push (maps : Maps α) : Maps α := (fun _ => none) :: maps

/-- Drops the top map.  The last one is emptied instead. -/
def pop : Maps α → Maps α
  | _ :: next :: others => next :: others
  | _ => push []

/-- Lets the top map say something else of a name. -/
def put (maps : Maps α) (name : String) (said : Option α) : Maps α :=
  maps.modifyHead (Function.update · name said)

/-- Changes what the uppermost map that has the name says of it. -/
def change (name : String) (f : α → α) : Maps α → Maps α
  | [] => []
  | map :: maps =>
    match map name with
    | some entry => Function.update map name (some (f entry)) :: maps
    | none => map :: change name f maps

/-- Takes every entry to another one. -/
def mapEntries (f : α → β) (maps : Maps α) : Maps β := maps.map fun map name => (map name).map f

/-- The map with `level` maps below it has the name, and none above it has. -/
structure Uppermost (maps : Maps α) (name : String) (level : Nat) (entry : α) : Prop where
  held : maps.at? level name = some entry
  free : ∀ higher, level < higher → maps.at? higher name = none

/-! ### Entries -/

theorem at?_top (map : String → Option α) (maps : Maps α) (name : String) :
    at? (map :: maps) maps.length name = map name := if_pos rfl

theorem at?_below (map : String → Option α) (h : level < maps.length) (name : String) :
    at? (map :: maps) level name = maps.at? level name := if_neg (Nat.ne_of_lt h)

theorem at?_of_length_le (h : maps.length ≤ level) (name : String) :
    maps.at? level name = none := by
  induction maps with
  | nil => rfl
  | cons map maps ih =>
    rw [List.length_cons] at h
    rw [at?, if_neg (by omega), ih (by omega)]

theorem level_lt (h : maps.at? level name = some entry) : level < maps.length := by
  by_contra hge
  rw [at?_of_length_le (Nat.le_of_not_lt hge)] at h
  exact absurd h (by simp)

/-- Stacks that say the same of all places are the same. -/
theorem ext_at? {maps' : Maps α} (hlength : maps.length = maps'.length)
    (h : ∀ level name, maps.at? level name = maps'.at? level name) : maps = maps' := by
  induction maps generalizing maps' with
  | nil => exact (List.eq_nil_of_length_eq_zero hlength.symm).symm
  | cons map maps ih =>
    cases maps' with
    | nil => exact absurd hlength (by simp)
    | cons map' maps' =>
      have hlower : maps.length = maps'.length := Nat.succ.inj hlength
      have hmap : map = map' := by
        funext name
        have hsame := h maps.length name
        rwa [at?_top, hlower, at?_top] at hsame
      have hmaps : maps = maps' := by
        refine ih hlower fun level name => ?_
        by_cases hlt : level < maps.length
        · have hsame := h level name
          rwa [at?_below map hlt, at?_below map' (hlower ▸ hlt)] at hsame
        · rw [at?_of_length_le (Nat.le_of_not_lt hlt),
            at?_of_length_le (Nat.le_of_not_lt (hlower ▸ hlt))]
      rw [hmap, hmaps]

theorem at?_push (maps : Maps α) (level : Nat) (name : String) :
    maps.push.at? level name = maps.at? level name := by
  unfold push
  rw [at?]
  split
  · rename_i h
    rw [at?_of_length_le (Nat.le_of_eq h.symm)]
  · rfl

/-- What the top map said is gone, and all else is there. -/
theorem at?_pop (maps : Maps α) (level : Nat) (name : String) :
    maps.pop.at? level name =
      if level + 1 < maps.length then maps.at? level name else none := by
  match maps with
  | [] => exact (at?_push [] level name).trans (if_neg (Nat.not_lt_zero _)).symm
  | [map] =>
    rw [if_neg (by simp)]
    exact at?_push [] level name
  | map :: next :: others =>
    show at? (next :: others) level name = _
    rw [List.length_cons]
    split
    · rename_i h
      rw [at?_below map (Nat.lt_of_succ_lt_succ h)]
    · rename_i h
      rw [at?_of_length_le (by omega)]

theorem at?_put (maps : Maps α) (name : String) (said : Option α) (level : Nat)
    (other : String) :
    (maps.put name said).at? level other =
      if level + 1 = maps.length ∧ name = other then said else maps.at? level other := by
  cases maps with
  | nil => exact (if_neg (by simp)).symm
  | cons map maps =>
    show at? (Function.update map name said :: maps) level other = _
    rw [at?, at?, List.length_cons, Function.update_apply]
    by_cases hl : level = maps.length
    · by_cases hn : name = other
      · simp [hl, hn]
      · simp [hl, hn, Ne.symm hn]
    · simp [hl]

theorem top?_eq (maps : Maps α) (name : String) :
    maps.top? name = maps.at? (maps.length - 1) name := by
  cases maps with
  | nil => rfl
  | cons map maps => exact (at?_top map maps name).symm

@[simp] theorem length_put (maps : Maps α) (name : String) (said : Option α) :
    (maps.put name said).length = maps.length := List.length_modifyHead

/-! ### The uppermost entry of a name -/

theorem uppermost_cons {map : String → Option α} :
    Uppermost (map :: maps) name level entry ↔
      level = maps.length ∧ map name = some entry ∨
        map name = none ∧ Uppermost maps name level entry := by
  constructor
  · intro h
    rcases Nat.lt_or_ge level maps.length with hlt | hge
    · refine .inr ⟨?_, ?_, fun higher hhigher => ?_⟩
      · exact (at?_top map maps name).symm.trans (h.free _ hlt)
      · exact (at?_below map hlt name).symm.trans h.held
      · rcases Nat.lt_or_ge higher maps.length with hlow | hhigh
        · exact (at?_below map hlow name).symm.trans (h.free higher hhigher)
        · exact at?_of_length_le hhigh name
    · obtain rfl : level = maps.length := by
        have hlt := level_lt h.held
        rw [List.length_cons] at hlt
        omega
      exact .inl ⟨rfl, (at?_top map maps name).symm.trans h.held⟩
  · rintro (⟨rfl, hmap⟩ | ⟨hmap, h⟩)
    · refine ⟨(at?_top map maps name).trans hmap, fun higher hhigher => ?_⟩
      exact at?_of_length_le hhigher name
    · have hlt := level_lt h.held
      refine ⟨(at?_below map hlt name).trans h.held, fun higher hhigher => ?_⟩
      rw [at?]
      split
      · exact hmap
      · exact h.free higher hhigher

/-- **A name means what the uppermost map that has it says.** -/
theorem lookup_eq_some_iff :
    maps.lookup name = some entry ↔ ∃ level, Uppermost maps name level entry := by
  induction maps with
  | nil =>
    refine ⟨fun h => absurd h (by simp [lookup]), ?_⟩
    rintro ⟨level, h⟩
    exact absurd h.held (by simp [at?])
  | cons map maps ih =>
    simp only [uppermost_cons, exists_or, exists_eq_left, exists_and_left]
    rw [← ih]
    unfold lookup
    rw [List.findSome?_cons]
    cases map name with
    | some first => simp
    | none => simp

theorem lookup_eq_none_iff : maps.lookup name = none ↔ ∀ level, maps.at? level name = none := by
  induction maps with
  | nil => simp [lookup, at?]
  | cons map maps ih =>
    unfold lookup at ih ⊢
    rw [List.findSome?_cons]
    constructor
    · intro h level
      cases hm : map name with
      | some first => simp [hm] at h
      | none =>
        rw [at?]
        split
        · exact hm
        · exact ih.1 (by simpa [hm] using h) level
    · intro h
      have hm : map name = none := (at?_top map maps name).symm.trans (h _)
      rw [hm]
      refine ih.2 fun level => ?_
      rcases Nat.lt_or_ge level maps.length with hlt | hge
      · exact (at?_below map hlt name).symm.trans (h level)
      · exact at?_of_length_le hge name

@[simp] theorem length_change (name : String) (f : α → α) (maps : Maps α) :
    (maps.change name f).length = maps.length := by
  induction maps with
  | nil => rfl
  | cons map maps ih =>
    rw [change]
    split
    · rfl
    · rw [List.length_cons, ih, List.length_cons]

/-- A change is made to the uppermost entry of the name and to no other. -/
theorem Uppermost.at?_change (h : Uppermost maps name level entry) (f : α → α) (place : Nat)
    (other : String) :
    (maps.change name f).at? place other =
      if place = level ∧ other = name then some (f entry) else maps.at? place other := by
  induction maps with
  | nil => exact absurd h.held (by simp [at?])
  | cons map maps ih =>
    rcases uppermost_cons.1 h with ⟨rfl, hmap⟩ | ⟨hmap, hlower⟩
    · simp only [change, hmap, at?, Function.update_apply]
      by_cases hp : place = maps.length
      · simp [hp]
      · simp [hp]
    · have hlt := level_lt hlower.held
      simp only [change, hmap, at?, length_change, ih hlower]
      by_cases hp : place = maps.length
      · simp [hp, Nat.ne_of_gt hlt]
      · simp [hp]

/-! ### Entries taken to other ones -/

@[simp] theorem length_mapEntries (f : α → β) (maps : Maps α) :
    (maps.mapEntries f).length = maps.length := List.length_map _

theorem at?_mapEntries (f : α → β) (maps : Maps α) (level : Nat) (name : String) :
    (maps.mapEntries f).at? level name = (maps.at? level name).map f := by
  induction maps with
  | nil => rfl
  | cons map maps ih =>
    show (if level = (mapEntries f maps).length then _ else at? (mapEntries f maps) _ _) = _
    rw [at?, length_mapEntries, ih]
    split
    · rfl
    · rfl

theorem top?_mapEntries (f : α → β) (maps : Maps α) (name : String) :
    (maps.mapEntries f).top? name = (maps.top? name).map f := by
  rw [top?_eq, top?_eq, at?_mapEntries, length_mapEntries]

theorem mapEntries_push (f : α → β) (maps : Maps α) :
    maps.push.mapEntries f = (maps.mapEntries f).push := rfl

theorem mapEntries_pop (f : α → β) (maps : Maps α) :
    maps.pop.mapEntries f = (maps.mapEntries f).pop := by
  match maps with
  | [] => rfl
  | [map] => rfl
  | map :: next :: others => rfl

theorem mapEntries_put (f : α → β) (maps : Maps α) (name : String) (said : Option α) :
    (maps.put name said).mapEntries f = (maps.mapEntries f).put name (said.map f) := by
  refine ext_at? (by simp) fun level other => ?_
  simp only [at?_mapEntries, at?_put, length_mapEntries, apply_ite (Option.map f)]

/-- A change of entries, seen through what they are taken to. -/
theorem mapEntries_change {f : α → β} {g : α → α} {g' : β → β}
    (h : ∀ entry, f (g entry) = g' (f entry)) (name : String) (maps : Maps α) :
    (maps.change name g).mapEntries f = (maps.mapEntries f).change name g' := by
  induction maps with
  | nil => rfl
  | cons map maps ih =>
    show _ = change name g' ((fun other => (map other).map f) :: mapEntries f maps)
    rw [change, change]
    cases hm : map name with
    | some entry =>
      refine congrArg (· :: mapEntries f maps) ?_
      funext other
      simp only [Function.update_apply, apply_ite (Option.map f), Option.map_some, h]
    | none => exact congrArg (List.cons _) ih

theorem change_id (name : String) (maps : Maps α) : maps.change name id = maps := by
  induction maps with
  | nil => rfl
  | cons map maps ih =>
    rw [change]
    split
    · rename_i entry hm
      rw [id_eq, ← hm, Function.update_eq_self]
    · rw [ih]

end Maps

/-! ### A scope as a map -/

namespace Scope

theorem find?_insert_eq (scope : Scope) (name : String) (m : Macro) :
    (scope.insert name m).find? = Function.update scope.find? name (some m) := by
  funext other
  rw [find?_insert, Function.update_apply]
  simp only [eq_comm]

theorem find?_erase (scope : Scope) (name : String) :
    (scope.erase name).find? = Function.update scope.find? name none := by
  funext other
  rw [Function.update_apply]
  induction scope with
  | nil => simp [erase, find?]
  | cons entry others ih =>
    unfold erase at ih ⊢
    by_cases he : entry.1 = name
    · rw [List.filter_cons_of_neg (by simp [he]), ih, find?_cons]
      by_cases ho : other = name
      · simp [ho]
      · simp [he, ho, Ne.symm ho]
    · rw [List.filter_cons_of_pos (by simp [he]), find?_cons, find?_cons, ih]
      by_cases ho : other = name
      · simp [ho, he]
      · simp [ho]

theorem find?_update_eq (scope : Scope) (name : String) (f : Macro → Macro) :
    (update name f scope).find? = Function.update scope.find? name ((scope.find? name).map f) := by
  funext other
  rw [find?_update, Function.update_apply]
  by_cases h : other = name
  · simp [h]
  · simp [h, Ne.symm h]

end Scope

/-! ### The scopes of a table -/

namespace MacroTable

variable {t u : MacroTable} {name : String}

/-- The scopes as maps. -/
def maps (t : MacroTable) : Maps Macro := t.scopes.map Scope.find?

@[simp] theorem length_maps (t : MacroTable) : t.maps.length = t.outer.length + 1 :=
  List.length_map _

theorem lookup_maps (t : MacroTable) (name : String) : t.lookup name = t.maps.lookup name := by
  unfold maps Maps.lookup
  rw [List.findSome?_map]
  rfl

theorem maps_pushScope (t : MacroTable) : t.pushScope.maps = t.maps.push := rfl

theorem outer_popScope (t : MacroTable) : t.popScope.outer = t.outer.tail := by
  obtain ⟨innermost, outer, target, hle⟩ := t
  cases outer with
  | nil => rfl
  | cons next others => rfl

theorem scopes_popScope (h : t.outer ≠ []) : t.popScope.scopes = t.outer := by
  obtain ⟨innermost, outer, target, hle⟩ := t
  cases outer with
  | nil => exact absurd rfl h
  | cons next others => rfl

theorem maps_popScope (t : MacroTable) : t.popScope.maps = t.maps.pop := by
  obtain ⟨innermost, outer, target, hle⟩ := t
  cases outer with
  | nil => rfl
  | cons next others => rfl

theorem maps_clear (t : MacroTable) : t.clear.maps = Maps.push [] := rfl

theorem maps_withMacro (t : MacroTable) (name : String) (m : Macro) :
    (t.withMacro name m).maps = t.maps.put name (some m) :=
  congrArg (· :: t.outer.map Scope.find?) (t.innermost.find?_insert_eq name m)

theorem define?_eq (t : MacroTable) (name : String) :
    t.define? name =
      if (t.maps.top? name).isSome then none else some (t.withMacro name {}) := rfl

theorem maps_bind (t : MacroTable) (name : String) (body : Text) :
    (t.bind name body).maps =
      if (t.maps.top? name).isSome then t.maps else t.maps.put name (some { body }) := by
  rw [← maps_withMacro]
  unfold bind
  show (if (t.maps.top? name).isSome then _ else _ : MacroTable).maps = _
  split
  · rfl
  · rfl

theorem maps_undefine (t : MacroTable) (name : String) :
    (t.undefine name).maps = t.maps.put name none := by
  unfold undefine
  split
  · exact congrArg (· :: t.outer.map Scope.find?) (t.innermost.find?_erase name)
  · rename_i hfree
    have hnone : t.innermost.find? name = none := by simpa [Scope.contains] using hfree
    refine congrArg (· :: t.outer.map Scope.find?) ?_
    exact (hnone ▸ Function.update_eq_self name t.innermost.find?).symm

theorem maps_update (t : MacroTable) (name : String) (f : Macro → Macro) :
    (t.update name f).maps = t.maps.change name f := by
  have hscopes : (t.update name f).scopes = updateFirst name f t.scopes := by
    unfold update scopes
    rw [updateFirst]
    split
    · rfl
    · rfl
  unfold maps
  rw [hscopes]
  generalize t.scopes = scopes
  induction scopes with
  | nil => rfl
  | cons scope others ih =>
    rw [updateFirst, List.map_cons, Maps.change]
    cases hm : scope.find? name with
    | some m =>
      rw [if_pos (Scope.contains_of_find? hm), List.map_cons, Scope.find?_update_eq, hm]
      rfl
    | none =>
      rw [if_neg (by simp [Scope.contains, hm])]
      exact congrArg (List.cons _) ih

/-! ### The target of a table -/

theorem at?_scopes (scopes : List Scope) (level : Nat) (name : String) :
    (scopes.reverse[level]?).bind (·.find? name) =
      Maps.at? (scopes.map Scope.find?) level name := by
  induction scopes with
  | nil => rfl
  | cons scope others ih =>
    rw [List.reverse_cons, List.getElem?_append, List.length_reverse, List.map_cons, Maps.at?,
      List.length_map]
    rcases Nat.lt_trichotomy level others.length with hlt | rfl | hgt
    · rw [if_pos hlt, if_neg (Nat.ne_of_lt hlt), ih]
    · rw [if_neg (Nat.lt_irrefl _), if_pos rfl, Nat.sub_self]
      rfl
    · rw [if_neg (Nat.not_lt_of_gt hgt), if_neg (Nat.ne_of_gt hgt),
        List.getElem?_eq_none (by rw [List.length_singleton]; omega),
        Maps.at?_of_length_le (by rw [List.length_map]; exact Nat.le_of_lt hgt)]
      rfl

theorem targetMacro?_eq (t : MacroTable) :
    t.targetMacro? = t.target.bind fun mark => t.maps.at? mark.1 mark.2 :=
  congrArg t.target.bind (funext fun mark => at?_scopes t.scopes mark.1 mark.2)

theorem at?_modify {scopes : List Scope} {level : Nat} (h : level < scopes.length)
    (f : Macro → Macro) (name : String) (place : Nat) (other : String) :
    Maps.at? ((scopes.modify (scopes.length - 1 - level) (Scope.update name f)).map Scope.find?)
        place other =
      if level = place ∧ name = other then
        (Maps.at? (scopes.map Scope.find?) place other).map f
      else Maps.at? (scopes.map Scope.find?) place other := by
  induction scopes with
  | nil => exact absurd h (Nat.not_lt_zero _)
  | cons scope others ih =>
    rw [List.length_cons] at h ⊢
    by_cases hl : level = others.length
    · rw [show others.length + 1 - 1 - level = 0 by omega, List.modify_zero_cons, List.map_cons,
        List.map_cons, Maps.at?, Maps.at?, Scope.find?_update, List.length_map]
      by_cases hp : place = others.length
      · simp [hp, hl]
      · simp [hp, hl, Ne.symm hp]
    · rw [show others.length + 1 - 1 - level = (others.length - 1 - level) + 1 by omega,
        List.modify_succ_cons, List.map_cons, List.map_cons, Maps.at?, Maps.at?,
        List.length_map, List.length_map, List.length_modify, ih (by omega)]
      by_cases hp : place = others.length
      · simp [hp, hl]
      · simp [hp]

/-- What a definition goes on with is changed in its place, and nothing else is. -/
theorem at?_updateTarget (t : MacroTable) (f : Macro → Macro) (level : Nat) (name : String) :
    (t.updateTarget f).maps.at? level name =
      if t.target = some (level, name) then (t.maps.at? level name).map f
      else t.maps.at? level name := by
  cases ht : t.target with
  | none =>
    unfold updateTarget
    simp [ht]
  | some mark =>
    obtain ⟨place, target⟩ := mark
    have hle := t.target_le (place, target) ht
    have hscopes : (t.updateTarget f).scopes =
        t.scopes.modify (t.scopes.length - 1 - place) (Scope.update target f) := by
      unfold updateTarget scopes
      simp only [ht, List.length_cons]
      by_cases hplace : place = t.outer.length
      · rw [if_pos hplace, show t.outer.length + 1 - 1 - place = 0 by omega]
        rfl
      · have hlt : place < t.outer.length := Nat.lt_of_le_of_ne hle hplace
        rw [if_neg hplace, if_pos hlt,
          show t.outer.length + 1 - 1 - place = (t.outer.length - 1 - place) + 1 by omega]
        rfl
    unfold maps
    rw [hscopes, at?_modify (Nat.lt_succ_of_le hle)]
    simp only [Option.some.injEq, Prod.mk.injEq]

/-! ### Operations -/

/-- What can be done with a table.  A definition may fill the macro that it makes, and to append
to a macro is to change it. -/
inductive Operation where
  | pushScope
  | popScope
  | clear
  | define (name : String) (fill : Macro → Macro)
  | bind (name : String) (body : Text)
  | undefine (name : String)
  | change (name : String) (f : Macro → Macro)
  | changeTarget (f : Macro → Macro)

namespace Operation

/-- The table after an operation.  A definition that is refused does nothing. -/
def apply : Operation → MacroTable → MacroTable
  | pushScope, t => t.pushScope
  | popScope, t => t.popScope
  | clear, t => t.clear
  | define name fill, t =>
    match t.define? name with
    | none => t
    | some made => made.updateTarget fill
  | bind name body, t => t.bind name body
  | undefine name, t => t.undefine name
  | change name f, t => t.update name f
  | changeTarget f, t => t.updateTarget f

/-- Whether the operation may change a macro that is there already. -/
def changes : Operation → Bool
  | change _ _ | changeTarget _ => true
  | _ => false

theorem apply_define (t : MacroTable) (name : String) (fill : Macro → Macro) :
    (define name fill).apply t =
      if (t.maps.top? name).isSome then t else t.withMacro name (fill {}) := by
  show (match t.define? name with | none => t | some made => made.updateTarget fill) = _
  rw [define?_eq]
  by_cases h : (t.maps.top? name).isSome
  · rw [if_pos h, if_pos h]
  · rw [if_neg h, if_neg h]
    exact updateTarget_withMacro t name {} fill

end Operation

/-- The table after some operations, one after the other. -/
def after (t : MacroTable) (ops : List Operation) : MacroTable :=
  ops.foldl (fun t op => op.apply t) t

theorem after_append (t : MacroTable) (ops more : List Operation) :
    t.after (ops ++ more) = (t.after ops).after more := List.foldl_append

/-! ### What is done above other scopes -/

/-- The scopes of `t` are there as they were, under at least one more. -/
def Above (t u : MacroTable) : Prop := ∃ upper, u.outer = upper ++ t.scopes

theorem above_pushScope (t : MacroTable) : Above t t.pushScope := ⟨[], rfl⟩

theorem Above.apply (h : Above t u) {op : Operation} (hop : op.changes = false)
    (hdepth : t.depth < (op.apply u).depth) : Above t (op.apply u) := by
  obtain ⟨upper, houter⟩ := h
  cases op with
  | pushScope => exact ⟨u.innermost :: upper, congrArg (u.innermost :: ·) houter⟩
  | popScope =>
    replace hdepth : t.outer.length + 1 < u.popScope.outer.length + 1 := hdepth
    show ∃ upper, u.popScope.outer = upper ++ t.scopes
    rw [outer_popScope, houter] at hdepth ⊢
    -- The depth says that the scope dropped was not the last one above.
    cases upper with
    | nil => exact absurd hdepth (by simp [scopes])
    | cons scope upper => exact ⟨upper, rfl⟩
  | clear => exact absurd hdepth (Nat.not_lt.2 (Nat.le_add_left 1 _))
  | define name fill =>
    rw [Operation.apply_define]
    split
    · exact ⟨upper, houter⟩
    · exact ⟨upper, houter⟩
  | bind name body =>
    refine ⟨upper, Eq.trans ?_ houter⟩
    show (u.bind name body).outer = u.outer
    unfold MacroTable.bind
    split
    · rfl
    · rfl
  | undefine name =>
    refine ⟨upper, Eq.trans ?_ houter⟩
    show (u.undefine name).outer = u.outer
    unfold MacroTable.undefine
    split
    · rfl
    · rfl
  | change name f => exact absurd hop (by simp [Operation.changes])
  | changeTarget f => exact absurd hop (by simp [Operation.changes])

theorem Above.after (h : Above t u) {ops : List Operation}
    (hops : ∀ op ∈ ops, op.changes = false)
    (hdepth : ∀ k, t.depth < (u.after (ops.take k)).depth) : Above t (u.after ops) := by
  induction ops generalizing u with
  | nil => exact h
  | cons op ops ih =>
    have hfirst := h.apply (hops op List.mem_cons_self) (hdepth 1)
    exact ih hfirst (fun later hlater => hops later (List.mem_cons_of_mem _ hlater))
      fun k => hdepth (k + 1)

/-- Opening a scope, and closing one in the end, leaves those below as they were, whatever was
done in between, as long as no macro was changed and it was done to the scopes above. -/
theorem scopes_enclosed (t : MacroTable) {inner : List Operation}
    (hinner : ∀ op ∈ inner, op.changes = false)
    (hdepth : ∀ k, t.depth < (t.after (.pushScope :: inner.take k)).depth) :
    ∃ opened, (t.after (.pushScope :: inner ++ [.popScope])).scopes = opened ++ t.scopes := by
  obtain ⟨upper, houter⟩ := t.above_pushScope.after hinner hdepth
  refine ⟨upper, ?_⟩
  have hlast : t.after (.pushScope :: inner ++ [.popScope]) = (t.pushScope.after inner).popScope :=
    after_append t (.pushScope :: inner) [.popScope]
  have hsome : (t.pushScope.after inner).outer ≠ [] := by
    rw [houter]
    exact List.append_ne_nil_of_right_ne_nil _ (List.cons_ne_nil _ _)
  rw [hlast, scopes_popScope hsome, houter]

/-- When the scope closed last is the one opened first, names mean what they meant before. -/
theorem lookup_enclosed (t : MacroTable) {inner : List Operation}
    (hinner : ∀ op ∈ inner, op.changes = false)
    (hdepth : ∀ k, t.depth < (t.after (.pushScope :: inner.take k)).depth)
    (hend : (t.after (.pushScope :: inner ++ [.popScope])).depth = t.depth) (name : String) :
    (t.after (.pushScope :: inner ++ [.popScope])).lookup name = t.lookup name := by
  obtain ⟨opened, hscopes⟩ := t.scopes_enclosed hinner hdepth
  have hlength : opened.length + t.scopes.length = t.scopes.length := by
    rw [← List.length_append, ← hscopes]
    exact hend
  have hnone : opened = [] := List.eq_nil_of_length_eq_zero (by omega)
  rw [hnone, List.nil_append] at hscopes
  unfold lookup
  rw [hscopes]

end MacroTable

end AsmPrep
