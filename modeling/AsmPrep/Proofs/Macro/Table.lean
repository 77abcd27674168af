/-
The table of macros, as its users see it.

Changing a macro twice is one change, and a change that leaves a macro as it was leaves
the table as it was.  Opening a scope and closing it again gives the table back, whatever
was bound in between; that the target lies in a scope of the table is what this needs,
for closing a scope forgets a target in it.

The weight of a table is what the expansions that can still be opened count for.  Marking
a macro takes its own weight off, a binding adds one, and an empty scope weighs nothing.
-/
import AsmPrep.Macro.Table

namespace AsmPrep

namespace Scope

theorem find?_cons (entry : String × Macro) (scope : Scope) (name : String) :
    find? (entry :: scope) name = if entry.1 = name then some entry.2 else scope.find? name := by
  unfold find?
  rw [List.lookup_cons]
  by_cases h : entry.1 = name
  · simp [h]
  · rw [if_neg h, beq_false_of_ne (Ne.symm h)]

theorem find?_insert (scope : Scope) (name other : String) (m : Macro) :
    (scope.insert name m).find? other = if name = other then some m else scope.find? other :=
  find?_cons (name, m) scope other

theorem find?_update (name other : String) (f : Macro → Macro) (scope : Scope) :
    (update name f scope).find? other =
      if name = other then (scope.find? other).map f else scope.find? other := by
  induction scope with
  | nil => simp [update, find?]
  | cons entry others ih =>
    rw [update]
    by_cases h : entry.1 = name
    · rw [if_pos h, find?_cons, find?_cons]
      by_cases ho : name = other
      · simp [h, ho]
      · simp [h, ho]
    · rw [if_neg h, find?_cons, find?_cons, ih]
      by_cases ho : name = other
      · have hne : entry.1 ≠ other := ho ▸ h
        simp [ho, hne]
      · simp [ho]

@[simp] theorem contains_update (name other : String) (f : Macro → Macro) (scope : Scope) :
    (update name f scope).contains other = scope.contains other := by
  unfold contains
  rw [find?_update]
  split
  · rw [Option.isSome_map]
  · rfl

theorem contains_of_find? {scope : Scope} {name : String} {m : Macro}
    (h : scope.find? name = some m) : scope.contains name = true := by
  simp [contains, h]

/-- Two changes of one macro are one. -/
theorem update_update (name : String) (f g : Macro → Macro) (scope : Scope) :
    update name g (update name f scope) = update name (fun m => g (f m)) scope := by
  induction scope with
  | nil => rfl
  | cons entry others ih =>
    by_cases h : entry.1 = name
    · simp [update, h]
    · simp [update, h, ih]

/-- A change that does nothing to the macro does nothing to the scope. -/
theorem update_eq_self {name : String} {f : Macro → Macro} {scope : Scope}
    (h : ∀ m, scope.find? name = some m → f m = m) : update name f scope = scope := by
  induction scope with
  | nil => rfl
  | cons entry others ih =>
    rw [update]
    simp only [find?_cons] at h
    by_cases hn : entry.1 = name
    · rw [if_pos hn, h entry.2 (by simp [hn])]
    · rw [if_neg hn, ih fun m hm => h m (by simpa [hn] using hm)]

theorem weight_cons (entry : String × Macro) (scope : Scope) :
    weight (entry :: scope) = entry.2.weight + scope.weight := rfl

/-- A change moves the weight of the scope by what it moves the weight of the macro. -/
theorem weight_update {name : String} {f : Macro → Macro} {scope : Scope} {m : Macro}
    (h : scope.find? name = some m) :
    (update name f scope).weight + m.weight = scope.weight + (f m).weight := by
  induction scope with
  | nil => simp [find?] at h
  | cons entry others ih =>
    rw [find?_cons] at h
    rw [update]
    by_cases hn : entry.1 = name
    · rw [if_pos hn] at h ⊢
      obtain rfl := Option.some.inj h
      simp only [weight_cons]
      omega
    · rw [if_neg hn] at h ⊢
      have := ih h
      simp only [weight_cons]
      omega

end Scope

namespace MacroTable

/-! ### Looking up -/

theorem lookup_eq (t : MacroTable) (name : String) :
    t.lookup name = (t.innermost.find? name).or (t.outer.findSome? (·.find? name)) := by
  unfold lookup scopes
  rw [List.findSome?_cons]
  cases t.innermost.find? name <;> rfl

/-- The innermost scope goes first. -/
theorem lookup_of_find? {t : MacroTable} {name : String} {m : Macro}
    (h : t.innermost.find? name = some m) : t.lookup name = some m := by
  rw [lookup_eq, h]
  rfl

theorem findSome?_updateFirst (name other : String) (f : Macro → Macro) (scopes : List Scope) :
    (updateFirst name f scopes).findSome? (·.find? other) =
      if name = other then (scopes.findSome? (·.find? other)).map f
      else scopes.findSome? (·.find? other) := by
  induction scopes with
  | nil => simp [updateFirst]
  | cons scope others ih =>
    rw [updateFirst]
    by_cases h : scope.contains name = true
    · rw [if_pos h, List.findSome?_cons, List.findSome?_cons, Scope.find?_update]
      by_cases ho : name = other
      · obtain ⟨m, hm⟩ := Option.isSome_iff_exists.1 h
        subst ho
        simp [hm]
      · rw [if_neg ho, if_neg ho]
    · rw [if_neg h, List.findSome?_cons, List.findSome?_cons, ih]
      by_cases ho : name = other
      · subst ho
        have hnone : scope.find? name = none := by simpa [Scope.contains] using h
        simp [hnone]
      · rw [if_neg ho, if_neg ho]

theorem lookup_update (t : MacroTable) (name other : String) (f : Macro → Macro) :
    (t.update name f).lookup other =
      if name = other then (t.lookup other).map f else t.lookup other := by
  rw [lookup_eq, lookup_eq]
  unfold update
  by_cases h : t.innermost.contains name = true
  · rw [if_pos h]
    dsimp only
    rw [Scope.find?_update]
    by_cases ho : name = other
    · subst ho
      obtain ⟨m, hm⟩ := Option.isSome_iff_exists.1 h
      simp [hm]
    · rw [if_neg ho, if_neg ho]
  · rw [if_neg h]
    dsimp only
    rw [findSome?_updateFirst]
    by_cases ho : name = other
    · subst ho
      have hnone : t.innermost.find? name = none := by simpa [Scope.contains] using h
      simp [hnone]
    · rw [if_neg ho, if_neg ho]

@[simp] theorem contains_update (t : MacroTable) (name other : String) (f : Macro → Macro) :
    (t.update name f).contains other = t.contains other := by
  unfold contains
  rw [lookup_update]
  split
  · rw [Option.isSome_map]
  · rfl

@[simp] theorem lookup_pushScope (t : MacroTable) (name : String) :
    t.pushScope.lookup name = t.lookup name := rfl

@[simp] theorem contains_pushScope (t : MacroTable) (name : String) :
    t.pushScope.contains name = t.contains name := rfl

/-- A binding hides what its name meant, unless the innermost scope has the name. -/
theorem lookup_bind (t : MacroTable) (name other : String) (body : Text) :
    (t.bind name body).lookup other =
      if name = other ∧ t.innermost.contains name = false then some { body }
      else t.lookup other := by
  unfold bind
  cases h : t.innermost.contains name with
  | true => rw [if_pos rfl, if_neg (by simp)]
  | false =>
    rw [if_neg (by simp), lookup_eq, lookup_eq]
    dsimp only
    rw [Scope.find?_insert]
    by_cases ho : name = other
    · rw [if_pos ho, if_pos ⟨ho, rfl⟩]
      rfl
    · rw [if_neg ho, if_neg fun hand => ho hand.1]

theorem contains_bind (t : MacroTable) (name other : String) (body : Text) :
    (t.bind name body).contains other = (t.contains other || other == name) := by
  unfold contains
  rw [lookup_bind]
  by_cases ho : name = other
  · subst ho
    cases h : t.innermost.contains name with
    | true =>
      obtain ⟨m, hm⟩ := Option.isSome_iff_exists.1 h
      simp [lookup_of_find? hm]
    | false => simp
  · rw [if_neg fun hand => ho hand.1, beq_false_of_ne (Ne.symm ho), Bool.or_false]

theorem contains_innermost_bind (t : MacroTable) (name other : String) (body : Text) :
    (t.bind name body).innermost.contains other =
      (t.innermost.contains other || other == name) := by
  unfold bind
  cases h : t.innermost.contains name with
  | true =>
    rw [if_pos rfl]
    by_cases ho : name = other
    · subst ho
      rw [h, Bool.true_or]
    · rw [beq_false_of_ne (Ne.symm ho), Bool.or_false]
  | false =>
    rw [if_neg (by simp)]
    dsimp only
    rw [Scope.contains, Scope.find?_insert]
    by_cases ho : name = other
    · simp [ho]
    · rw [if_neg ho, beq_false_of_ne (Ne.symm ho), Bool.or_false]
      rfl

/-! ### Changing and changing back -/

theorem updateFirst_updateFirst (name : String) (f g : Macro → Macro) (scopes : List Scope) :
    updateFirst name g (updateFirst name f scopes) =
      updateFirst name (fun m => g (f m)) scopes := by
  induction scopes with
  | nil => rfl
  | cons scope others ih =>
    by_cases h : scope.contains name = true
    · simp [updateFirst, h, Scope.update_update]
    · simp [updateFirst, h, ih]

theorem updateFirst_eq_self {name : String} {f : Macro → Macro} {scopes : List Scope}
    (h : ∀ m, scopes.findSome? (·.find? name) = some m → f m = m) :
    updateFirst name f scopes = scopes := by
  induction scopes with
  | nil => rfl
  | cons scope others ih =>
    rw [updateFirst]
    cases hs : scope.find? name with
    | some m =>
      rw [if_pos (Scope.contains_of_find? hs)]
      rw [Scope.update_eq_self fun n hn => h n (by simpa [hs] using hn)]
    | none =>
      rw [if_neg (by simp [Scope.contains, hs])]
      rw [ih fun m hm => h m (by simpa [hs] using hm)]

theorem update_update (t : MacroTable) (name : String) (f g : Macro → Macro) :
    (t.update name f).update name g = t.update name (fun m => g (f m)) := by
  by_cases h : t.innermost.contains name = true
  · simp [update, h, Scope.update_update]
  · simp [update, h, updateFirst_updateFirst]

theorem update_eq_self {t : MacroTable} {name : String} {f : Macro → Macro}
    (h : ∀ m, t.lookup name = some m → f m = m) : t.update name f = t := by
  unfold update
  cases hs : t.innermost.find? name with
  | some m =>
    rw [if_pos (Scope.contains_of_find? hs)]
    have hsame : t.innermost.update name f = t.innermost :=
      Scope.update_eq_self fun n hn => h n (lookup_of_find? hn)
    simp only [hsame]
  | none =>
    rw [if_neg (by simp [Scope.contains, hs])]
    have hsame : updateFirst name f t.outer = t.outer :=
      updateFirst_eq_self fun m hm => h m (by rw [lookup_eq, hs, hm]; rfl)
    simp only [hsame]

/-- Taking back a mark that was set on an unmarked macro restores the table. -/
theorem update_mark_unmark {t : MacroTable} {name : String} {m : Macro}
    (hm : t.lookup name = some m) (hx : m.expanding = false) :
    (t.update name (·.setExpanding true)).update name (·.setExpanding false) = t := by
  rw [update_update]
  refine update_eq_self fun n hn => ?_
  obtain rfl : m = n := Option.some.inj (hm.symm.trans hn)
  cases m
  simp_all [Macro.setExpanding]

/-- A scope that is opened and closed leaves no trace. -/
theorem popScope_pushScope (t : MacroTable) : t.pushScope.popScope = t := by
  have hkeep : (t.target.filter fun mark => mark.1 != t.outer.length + 1) = t.target := by
    cases ht : t.target with
    | none => rfl
    | some mark =>
      have hle := t.target_le mark ht
      exact Option.filter_some_pos (by simp only [bne_iff_ne, ne_eq]; omega)
  ext1
  · rfl
  · rfl
  · exact hkeep

/-- What is bound in the innermost scope goes with it. -/
@[simp] theorem popScope_bind (t : MacroTable) (name : String) (body : Text) :
    (t.bind name body).popScope = t.popScope := by
  unfold bind
  split <;> rfl

/-! ### Depth and weight -/

theorem depth_pushScope (t : MacroTable) : t.pushScope.depth = t.depth + 1 := rfl

@[simp] theorem depth_update (t : MacroTable) (name : String) (f : Macro → Macro) :
    (t.update name f).depth = t.depth := by
  unfold update depth
  split
  · rfl
  · dsimp only
    rw [length_updateFirst]

@[simp] theorem depth_bind (t : MacroTable) (name : String) (body : Text) :
    (t.bind name body).depth = t.depth := by
  unfold bind
  split <;> rfl

theorem weight_eq (t : MacroTable) :
    t.weight = t.innermost.weight + t.outer.foldr (fun scope total => scope.weight + total) 0 := rfl

@[simp] theorem weight_pushScope (t : MacroTable) : t.pushScope.weight = t.weight :=
  Nat.zero_add _

theorem weight_updateFirst {name : String} {f : Macro → Macro} {scopes : List Scope} {m : Macro}
    (h : scopes.findSome? (·.find? name) = some m) :
    (updateFirst name f scopes).foldr (fun scope total => scope.weight + total) 0 + m.weight =
      scopes.foldr (fun scope total => scope.weight + total) 0 + (f m).weight := by
  induction scopes with
  | nil => simp at h
  | cons scope others ih =>
    rw [updateFirst]
    cases hs : scope.find? name with
    | some n =>
      obtain rfl : n = m := by simpa [hs] using h
      rw [if_pos (Scope.contains_of_find? hs)]
      have := Scope.weight_update (f := f) hs
      simp only [List.foldr_cons]
      omega
    | none =>
      rw [if_neg (by simp [Scope.contains, hs])]
      have := ih (by simpa [hs] using h)
      simp only [List.foldr_cons]
      omega

theorem weight_update {t : MacroTable} {name : String} {f : Macro → Macro} {m : Macro}
    (h : t.lookup name = some m) :
    (t.update name f).weight + m.weight = t.weight + (f m).weight := by
  unfold update
  cases hs : t.innermost.find? name with
  | some n =>
    obtain rfl : n = m := Option.some.inj ((lookup_of_find? hs).symm.trans h)
    rw [if_pos (Scope.contains_of_find? hs)]
    have := Scope.weight_update (f := f) hs
    simp only [weight_eq]
    omega
  | none =>
    rw [if_neg (by simp [Scope.contains, hs])]
    rw [lookup_eq, hs, Option.none_or] at h
    have := weight_updateFirst (f := f) h
    simp only [weight_eq]
    omega

/-- Marking a macro takes off what expanding it can open: itself and a binding for each
parameter. -/
theorem weight_mark {t : MacroTable} {name : String} {m : Macro}
    (hm : t.lookup name = some m) (hx : m.expanding = false) :
    (t.update name (·.setExpanding true)).weight + 1 + m.params.length = t.weight := by
  have hupdate := weight_update (f := (·.setExpanding true)) hm
  have hmarked : (m.setExpanding true).weight = 0 := rfl
  have hopen : m.weight = 1 + m.params.length := by simp [Macro.weight, hx]
  omega

theorem weight_bind_le (t : MacroTable) (name : String) (body : Text) :
    (t.bind name body).weight ≤ t.weight + 1 := by
  unfold bind
  split
  · exact Nat.le_succ _
  · simp only [weight_eq, Scope.insert, Scope.weight_cons, Macro.weight]
    simp
    omega

/-- Binds texts to names in order. -/
def bindAll (t : MacroTable) (bindings : List (String × Text)) : MacroTable :=
  bindings.foldl (fun t binding => t.bind binding.1 binding.2) t

theorem weight_bindAll_le (t : MacroTable) (bindings : List (String × Text)) :
    (t.bindAll bindings).weight ≤ t.weight + bindings.length := by
  induction bindings generalizing t with
  | nil => exact Nat.le_refl _
  | cons binding others ih =>
    have hfirst := weight_bind_le t binding.1 binding.2
    have hothers := ih (t.bind binding.1 binding.2)
    show ((t.bind binding.1 binding.2).bindAll others).weight ≤ _
    rw [List.length_cons]
    omega

/-- In a scope that was just opened a name means the first text bound to it. -/
theorem lookup_bindAll (t : MacroTable) (bindings : List (String × Text)) (name : String) :
    (t.bindAll bindings).lookup name =
      if t.innermost.contains name then t.lookup name
      else match bindings.lookup name with
        | some body => some { body }
        | none => t.lookup name := by
  induction bindings generalizing t with
  | nil => simp [bindAll]
  | cons binding others ih =>
    obtain ⟨param, body⟩ := binding
    show ((t.bind param body).bindAll others).lookup name = _
    rw [ih, contains_innermost_bind, lookup_bind, List.lookup_cons]
    cases hin : t.innermost.contains name with
    | true =>
      have hfirst : ¬ (param = name ∧ t.innermost.contains param = false) := by
        rintro ⟨rfl, hfalse⟩
        exact absurd (hin.symm.trans hfalse) (by simp)
      rw [Bool.true_or, if_pos rfl, if_pos rfl, if_neg hfirst]
    | false =>
      by_cases hp : param = name
      · subst hp
        simp [hin]
      · have hne : (name == param) = false := beq_false_of_ne (Ne.symm hp)
        simp [hne, hp]

/-! ### A new macro -/

theorem innermost_le (t : MacroTable) (name : String) :
    ∀ mark ∈ some (t.outer.length, name), mark.1 ≤ t.outer.length :=
  fun _ hmark => Option.some.inj hmark ▸ Nat.le_refl _

/-- The table with a new macro in the innermost scope, the one a definition goes on with. -/
def withMacro (t : MacroTable) (name : String) (m : Macro) : MacroTable :=
  { t with
    innermost := t.innermost.insert name m
    target := some (t.outer.length, name)
    target_le := t.innermost_le name }

section

variable {t : MacroTable} {name : String}

theorem define?_of_free (h : t.contains name = false) :
    t.define? name = some (t.withMacro name {}) := by
  have hinner : t.innermost.contains name = false := by
    cases hfound : t.innermost.find? name with
    | none => rw [Scope.contains, hfound, Option.isSome_none]
    | some m =>
      rw [contains, lookup_of_find? hfound] at h
      exact absurd h (by simp)
  rw [define?, hinner, if_neg Bool.false_ne_true]
  rfl

theorem updateTarget_of_innermost (ht : t.target = some (t.outer.length, name))
    (f : Macro → Macro) :
    t.updateTarget f = { t with innermost := Scope.update name f t.innermost } := by
  unfold updateTarget
  simp only [ht, if_true]

theorem target_updateTarget (t : MacroTable) (f : Macro → Macro) :
    (t.updateTarget f).target = t.target := by
  unfold updateTarget
  split
  · rfl
  · split
    · rfl
    · split
      · rfl
      · rfl

theorem scopeAt?_eq (t : MacroTable) (level : Nat) :
    t.scopeAt? level =
      if level < t.outer.length then t.outer[t.outer.length - 1 - level]?
      else if level = t.outer.length then some t.innermost else none := by
  unfold scopeAt? scopes
  rw [List.reverse_cons, List.getElem?_append, List.length_reverse]
  split
  · rename_i hlt
    rw [List.getElem?_reverse hlt]
  · split
    · rename_i heq
      rw [heq, Nat.sub_self]
      rfl
    · rename_i hlt hne
      exact List.getElem?_eq_none (by simp; omega)

/-- Changing the macro that a definition goes on with changes that macro. -/
theorem targetMacro?_updateTarget (t : MacroTable) (f : Macro → Macro) :
    (t.updateTarget f).targetMacro? = t.targetMacro?.map f := by
  unfold targetMacro?
  rw [target_updateTarget]
  cases ht : t.target with
  | none => rfl
  | some mark =>
    obtain ⟨level, name⟩ := mark
    have hscope : (t.updateTarget f).scopeAt? level =
        (t.scopeAt? level).map (Scope.update name f) := by
      have hle := t.target_le (level, name) ht
      rw [scopeAt?_eq, scopeAt?_eq]
      unfold updateTarget
      simp only [ht]
      by_cases hlevel : level = t.outer.length
      · simp [hlevel]
      · have hlt : level < t.outer.length := Nat.lt_of_le_of_ne hle hlevel
        simp [hlevel, hlt]
    rw [Option.bind_some, Option.bind_some, hscope]
    cases t.scopeAt? level with
    | none => rfl
    | some scope => exact (Scope.find?_update _ _ _ _).trans (if_pos rfl)

theorem updateTarget_withMacro (t : MacroTable) (name : String) (m : Macro) (f : Macro → Macro) :
    (t.withMacro name m).updateTarget f = t.withMacro name (f m) := by
  have hupdate : Scope.update name f (t.innermost.insert name m) =
      t.innermost.insert name (f m) := by
    rw [Scope.insert, Scope.update, if_pos rfl]
    rfl
  rw [updateTarget_of_innermost (t := t.withMacro name m) rfl]
  unfold withMacro
  rw [hupdate]

theorem targetMacro?_withMacro (t : MacroTable) (name : String) (m : Macro) :
    (t.withMacro name m).targetMacro? = some m := by
  have hscope : (t.withMacro name m).scopeAt? t.outer.length = some (t.innermost.insert name m) := by
    rw [scopeAt?_eq]
    simp [withMacro]
  show ((t.withMacro name m).scopeAt? t.outer.length).bind _ = _
  rw [hscope, Option.bind_some, Scope.find?_insert, if_pos rfl]

theorem lookup_withMacro (t : MacroTable) (name other : String) (m : Macro) :
    (t.withMacro name m).lookup other = if name = other then some m else t.lookup other := by
  rw [lookup_eq, lookup_eq]
  show ((t.innermost.insert name m).find? other).or _ = _
  rw [Scope.find?_insert]
  split
  · rfl
  · rfl

end

end MacroTable

end AsmPrep
