/-
Macros, and the table of scopes that holds them.

User definitions live in the bottom scope.  Each expansion opens a scope for its
parameters and closes it when done, so a parameter is visible only while its expansion
runs.  Looking up a name goes from the innermost scope outwards, and a table always has
an innermost scope: the bottom one can be emptied but not removed.

The table also remembers the macro a continued definition goes on with: the one most
recently defined, as long as it is still there.
-/
import AsmPrep.Text.Basic

namespace AsmPrep

structure Macro where
  params : List String := []
  /-- What a call stands for; the lines of a continued definition are joined by newlines. -/
  body : Text := []
  /-- Whether an expansion of the macro is under way. -/
  expanding : Bool := false
  deriving DecidableEq, Repr

namespace Macro

/-- Adds a line at the end of the body, after a newline when there is something before it. -/
def appendLine (m : Macro) (line : Text) : Macro :=
  { m with body := if m.body.isEmpty then line else m.body ++ Byte.newline :: line }

def addParams (m : Macro) (params : List String) : Macro :=
  { m with params := m.params ++ params }

def setBody (m : Macro) (body : Text) : Macro := { m with body }

def setExpanding (m : Macro) (expanding : Bool) : Macro := { m with expanding }

/-- What an expansion of the macro can open: itself and a binding for each parameter.
Nothing, once it is under way. -/
def weight (m : Macro) : Nat := if m.expanding then 0 else 1 + m.params.length

end Macro

/-- The macros of one scope, each name once. -/
abbrev Scope := List (String × Macro)

namespace Scope

def find? (scope : Scope) (name : String) : Option Macro := List.lookup name scope

def contains (scope : Scope) (name : String) : Bool := (scope.find? name).isSome

def insert (scope : Scope) (name : String) (m : Macro) : Scope := (name, m) :: scope

def erase (scope : Scope) (name : String) : Scope := scope.filter fun entry => entry.1 != name

/-- Changes the macro of that name. -/
def update (name : String) (f : Macro → Macro) : Scope → Scope
  | [] => []
  | entry :: others =>
    if entry.1 = name then (entry.1, f entry.2) :: others else entry :: update name f others

def weight (scope : Scope) : Nat := scope.foldr (fun entry total => entry.2.weight + total) 0

end Scope

@[ext]
structure MacroTable where
  innermost : Scope := []
  /-- The other scopes, nearest first. -/
  outer : List Scope := []
  /-- Where the macro most recently defined is: the number of scopes below its own, and its
  name. -/
  target : Option (Nat × String) := none
  /-- That scope is one of the table's. -/
  target_le : ∀ mark ∈ target, mark.1 ≤ outer.length := by
    exact fun mark h => absurd h (Option.not_mem_none mark)

namespace MacroTable

/-- The bottom scope alone, with no macro in it. -/
def empty : MacroTable := {}

/-- All scopes, innermost first. -/
def scopes (t : MacroTable) : List Scope := t.innermost :: t.outer

def depth (t : MacroTable) : Nat := t.outer.length + 1

/-! ### Scopes -/

def pushScope (t : MacroTable) : MacroTable :=
  { t with
    innermost := []
    outer := t.innermost :: t.outer
    target_le := fun mark h => Nat.le_succ_of_le (t.target_le mark h) }

/-- Drops the innermost scope and all in it.  The bottom scope is emptied instead. -/
def popScope (t : MacroTable) : MacroTable :=
  match h : t.outer with
  | [] => empty
  | next :: others =>
    { innermost := next
      outer := others
      target := t.target.filter fun mark => mark.1 != t.outer.length
      target_le := fun mark hm => by
        obtain ⟨hm, hne⟩ := Option.mem_filter_iff.1 hm
        have hle := t.target_le mark hm
        rw [h, List.length_cons] at hle hne
        simp only [bne_iff_ne, ne_eq] at hne
        omega }

/-- Drops every scope but the bottom one and empties that. -/
def clear (_ : MacroTable) : MacroTable := empty

/-! ### Macros -/

/-- The macro a name means: the innermost one of that name. -/
def lookup (t : MacroTable) (name : String) : Option Macro :=
  t.scopes.findSome? (·.find? name)

def contains (t : MacroTable) (name : String) : Bool := (t.lookup name).isSome

/-- Changes the first entry of that name in a list of scopes. -/
def updateFirst (name : String) (f : Macro → Macro) : List Scope → List Scope
  | [] => []
  | scope :: others =>
    if scope.contains name then Scope.update name f scope :: others
    else scope :: updateFirst name f others

theorem length_updateFirst (name : String) (f : Macro → Macro) (scopes : List Scope) :
    (updateFirst name f scopes).length = scopes.length := by
  induction scopes with
  | nil => rfl
  | cons scope others ih =>
    rw [updateFirst]
    split
    · rfl
    · rw [List.length_cons, ih, List.length_cons]

/-- Changes the macro a name means. -/
def update (t : MacroTable) (name : String) (f : Macro → Macro) : MacroTable :=
  if t.innermost.contains name then { t with innermost := Scope.update name f t.innermost }
  else { t with
    outer := updateFirst name f t.outer
    target_le := by simpa only [length_updateFirst] using t.target_le }

/-- Makes an empty macro in the innermost scope, the one a continued definition goes on with.
A name that the innermost scope has already is refused; one of an outer scope is hidden. -/
def define? (t : MacroTable) (name : String) : Option MacroTable :=
  if t.innermost.contains name then none
  else some { t with
    innermost := t.innermost.insert name {}
    target := some (t.outer.length, name)
    target_le := by simp }

/-- Makes a parameter stand for a text in the innermost scope.  The first binding of a name
stays, and a definition is never continued by a binding. -/
def bind (t : MacroTable) (name : String) (body : Text) : MacroTable :=
  if t.innermost.contains name then t
  else { t with innermost := t.innermost.insert name { body } }

/-- Removes a name from the innermost scope, where it is there. -/
def undefine (t : MacroTable) (name : String) : MacroTable :=
  if t.innermost.contains name then
    { t with
      innermost := t.innermost.erase name
      target := t.target.filter fun mark => mark != (t.outer.length, name)
      target_le := fun mark h => t.target_le mark (Option.mem_filter_iff.1 h).1 }
  else t

/-! ### The macro a continued definition goes on with -/

/-- The scope with that many scopes below it. -/
def scopeAt? (t : MacroTable) (level : Nat) : Option Scope := t.scopes.reverse[level]?

def targetMacro? (t : MacroTable) : Option Macro :=
  t.target.bind fun mark => (t.scopeAt? mark.1).bind (·.find? mark.2)

def updateTarget (t : MacroTable) (f : Macro → Macro) : MacroTable :=
  match t.target with
  | none => t
  | some (level, name) =>
    if level = t.outer.length then { t with innermost := Scope.update name f t.innermost }
    else if level < t.outer.length then
      { t with
        outer := t.outer.modify (t.outer.length - 1 - level) (Scope.update name f)
        target_le := by simpa only [List.length_modify] using t.target_le }
    else t

/-- What the expansions that can still be opened weigh together. -/
def weight (t : MacroTable) : Nat := t.scopes.foldr (fun scope total => scope.weight + total) 0

end MacroTable

end AsmPrep
