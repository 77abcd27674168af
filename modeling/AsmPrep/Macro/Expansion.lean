/-
Macro calls.

A call is a name that the table holds, and for a macro with parameters the arguments
after it.  Expanding it opens a scope, binds the arguments, runs the body back through
the same scan and closes the scope again.  While a macro is expanded it is marked, and
meeting it once more is reported instead of followed.

That mark is why expanding ends.  An expansion takes the weight of its macro, which is
one and one more for each parameter, from what the table can still open, and puts back
at most one for each parameter.  So expansions are nested no deeper than the table's
weight.  The depth is an argument here, `budget`, and each scan below is given what
expands a call one level further down.  An expansion that ran out of it would say so in
`starved`.

Every scan answers with what is left of its text, and the answer holds the proof that
this is less, or no more, than it was given.
-/
import AsmPrep.Diagnostic
import AsmPrep.Macro.Table
import AsmPrep.Text.Scan

namespace AsmPrep.Expansion

open Byte

/-- What expanding reads and changes beside the text and the buffer. -/
structure State where
  table : MacroTable
  /-- What was reported, oldest first. -/
  faults : List Fault := []
  /-- The most scopes there were at once, counted whenever one is opened. -/
  deepest : Nat := 0
  /-- Whether an expansion was left out because it was nested too deep. -/
  starved : Bool := false

namespace State

def report (st : State) (fault : Fault) : State := { st with faults := st.faults ++ [fault] }

/-- Marks the macro and opens a scope for its parameters. -/
def enter (st : State) (name : String) : State :=
  let table := (st.table.update name (·.setExpanding true)).pushScope
  { st with table, deepest := max st.deepest table.depth }

/-- Closes the scope and takes the mark off the macro. -/
def leave (st : State) (name : String) : State :=
  { st with table := st.table.popScope.update name (·.setExpanding false) }

def bind (st : State) (param : String) (body : Text) : State :=
  { st with table := st.table.bind param body }

end State

/-- What a scanner that matched at the start of `s` made of it. -/
structure Progress (s : Text) where
  rest : Text
  state : State
  out : Buffer
  shorter : rest.length < s.length

/-- What expanding a macro made of the text `s` after its name. -/
structure Expanded (s : Text) where
  rest : Text
  state : State
  out : Buffer
  le : rest.length ≤ s.length

/-- What collecting arguments from the start of `s` came to.  A fault means that the
expansion is to be dropped. -/
structure Gathered (s : Text) where
  rest : Text
  state : State
  text : Buffer := {}
  fault : Option Fault := none
  le : rest.length ≤ s.length

/-- Expands the macro of that name, taking its arguments from the text. -/
abbrev Expander := String → (s : Text) → State → Buffer → Expanded s

namespace Progress

/-- The same progress, seen from a longer text. -/
def widen {s t : Text} (p : Progress s) (h : s.length ≤ t.length) : Progress t :=
  ⟨p.rest, p.state, p.out, Nat.lt_of_lt_of_le p.shorter h⟩

/-- A literal scanner's match. -/
def ofScan (scanner : Scan)
    (lt : ∀ {s rest out out'}, scanner s out = some (rest, out') → rest.length < s.length)
    (s : Text) (st : State) (out : Buffer) : Option (Progress s) :=
  match h : scanner s out with
  | none => none
  | some (rest, out') => some ⟨rest, st, out', lt h⟩

def number := ofScan Scan.number Scan.number_lt

def quoted := ofScan Scan.quoted Scan.quoted_lt

def paste := ofScan Scan.paste Scan.paste_lt

end Progress

namespace Gathered

/-- The same arguments, seen from a longer text. -/
def widen {s t : Text} (g : Gathered s) (h : s.length ≤ t.length) : Gathered t :=
  ⟨g.rest, g.state, g.text, g.fault, Nat.le_trans g.le h⟩

end Gathered

/-! ### Calls and their spelling -/

/-- A name at the start of the text: expanded when the table holds it, copied otherwise.  A
name with a sigil matches only when it or what follows its sigil is a macro; in the second
case the sigil stays in front of the expansion. -/
def scanCall (expand : Expander) (s : Text) (st : State) (out : Buffer) : Option (Progress s) :=
  match h : Lexeme.name? s with
  | none => none
  | some (name, rest) =>
    have lt := Lexeme.name?_lt h
    let call (called : Text) (out : Buffer) : Progress s :=
      let made := expand (Text.toName called) rest st out
      ⟨made.rest, made.state, made.out, Nat.lt_of_le_of_lt made.le lt⟩
    if st.table.contains (Text.toName name) then some (call name out)
    else match name with
      | [] => none
      | c :: bare =>
        if !isSigil c then some ⟨rest, st, out.append name, lt⟩
        else if st.table.contains (Text.toName bare) then some (call bare (out.push c))
        else none

/-- A text in double quotes, with a backslash before each quote in it. -/
def spelling (text : Text) : Text :=
  doubleQuote :: text.flatMap (fun c => if c = doubleQuote then [backslash, c] else [c])
    ++ [doubleQuote]

/-- `#` before a call or a number: the spelling of what that gives. -/
def stringize (expand : Expander) (s : Text) (st : State) (out : Buffer) : Option (Progress s) :=
  match s with
  | [] => none
  | c :: r =>
    if c = hash then
      let token := Text.skipBlanks r
      ((scanCall expand token st {}).or (Progress.number token st {})).map fun p =>
        ⟨p.rest, p.state, out.append (spelling p.out.toText),
          Nat.lt_succ_of_lt (Nat.lt_of_lt_of_le p.shorter (Text.length_skipBlanks_le r))⟩
    else none

/-! ### Bodies -/

/-- A token of a body.  Calls come before numbers here. -/
def bodyToken (expand : Expander) (s : Text) (st : State) (out : Buffer) : Option (Progress s) :=
  (scanCall expand s st out).or <| (Progress.number s st out).or <|
    (Progress.quoted s st out).or <| (Progress.paste s st out).or <| stringize expand s st out

/-- Scans a body to its end.  A byte that begins no token is copied. -/
def rescan (expand : Expander) (s : Text) (st : State) (out : Buffer) : State × Buffer :=
  match s with
  | [] => (st, out)
  | c :: r =>
    match bodyToken expand (c :: r) st out with
    | some p => rescan expand p.rest p.state p.out
    | none => rescan expand r st (out.push c)
termination_by s.length
decreasing_by
  · exact p.shorter
  · exact Nat.lt_succ_self _

/-! ### Arguments -/

/-- A token of an argument.  Numbers come before calls here. -/
def argumentToken (expand : Expander) (s : Text) (st : State) (out : Buffer) :
    Option (Progress s) :=
  (Progress.number s st out).or <| (scanCall expand s st out).or <|
    (Progress.quoted s st out).or <| (Progress.paste s st out).or <| stringize expand s st out

/-- The number of parentheses open after a byte. -/
def depthAfter (depth : Nat) (c : Byte) : Nat :=
  if c = openParen then depth + 1 else if c = closeParen then depth - 1 else depth

/-- Scans an argument up to a comma or a closing parenthesis of its own level, or to the end
of the statement.  `depth` is the number of parentheses open. -/
def scanArgument (expand : Expander) (s : Text) (st : State) (out : Buffer) (depth : Nat) :
    Gathered s :=
  if Text.atEndOfStatement s then
    ⟨s, st, out, if depth = 0 then none else some .unclosedParen, Nat.le_refl _⟩
  else
    match argumentToken expand s st out with
    | some p => (scanArgument expand p.rest p.state p.out depth).widen (Nat.le_of_lt p.shorter)
    | none =>
      match s with
      | [] => ⟨[], st, out, none, Nat.le_refl _⟩
      | c :: r =>
        if depth = 0 && (c = closeParen || c = comma) then ⟨c :: r, st, out, none, Nat.le_refl _⟩
        else
          (scanArgument expand r st (out.push c) (depthAfter depth c)).widen (Nat.le_succ _)
termination_by s.length
decreasing_by
  · exact p.shorter
  · exact Nat.lt_succ_self _

/-- Takes the text after an opening angle bracket as it stands, up to the closing one. -/
def angleArgument (s : Text) (st : State) : Gathered s :=
  match h : Lexeme.angleText s with
  | (text, c :: rest) =>
    have le : rest.length + 1 ≤ s.length := by simpa [h] using Lexeme.angleText_le s
    if c = closeAngle then ⟨rest, st, Buffer.ofText text, none, Nat.le_of_succ_le le⟩
    else ⟨c :: rest, st, {}, some .unclosedAngle, le⟩
  | (_, []) => ⟨[], st, {}, some .unclosedAngle, Nat.zero_le _⟩

/-- One argument, from its first byte that is not blank. -/
def collectArgument (expand : Expander) (s : Text) (st : State) : Gathered s :=
  match s with
  | [] => scanArgument expand [] st {} 0
  | c :: r =>
    if c = openAngle then (angleArgument r st).widen (Nat.le_succ _)
    else scanArgument expand (c :: r) st {} 0

/-- Whether nothing stands where an argument is expected. -/
def isEmptyArgument (inParens : Bool) (s : Text) : Bool :=
  s.head? == some comma || (inParens && s.head? == some closeParen)
    || (!inParens && Text.atEndOfStatement s)

/-- The argument at the start of the text, which may be empty. -/
def argument (expand : Expander) (inParens : Bool) (s : Text) (st : State) : Gathered s :=
  if isEmptyArgument inParens s then ⟨s, st, {}, none, Nat.le_refl _⟩
  else collectArgument expand s st

/-- Binds an argument to each parameter, in order. -/
def bindArguments (expand : Expander) (inParens : Bool) :
    List String → (s : Text) → State → Gathered s
  | [], s, st => ⟨s, st, {}, none, Nat.le_refl _⟩
  | param :: others, s, st =>
    let got := argument expand inParens (Text.skipBlanks s) st
    have le := Nat.le_trans got.le (Text.length_skipBlanks_le s)
    match got.fault with
    | some fault => ⟨got.rest, got.state, {}, some fault, le⟩
    | none =>
      let next := Text.skipBlanks got.rest
      have le := Nat.le_trans (Text.length_skipBlanks_le got.rest) le
      let st := got.state.bind param got.text.chomp.toText
      if others.isEmpty then ⟨next, st, {}, none, le⟩
      else if next.head? = some comma then
        (bindArguments expand inParens others next.tail st).widen
          (Nat.le_trans (List.tail_sublist next).length_le le)
      else ⟨next, st, {}, some .missingArguments, le⟩

/-- Drops surplus arguments with the parenthesis that closes their list. -/
def skipSurplus (s : Text) (depth : Nat) : Text :=
  if Text.atEndOfStatement s then s
  else
    match h : Lexeme.quoted? s with
    | some (_, rest) => skipSurplus rest depth
    | none =>
      match s with
      | [] => []
      | c :: r =>
        if c = openParen then skipSurplus r (depth + 1)
        else if c = closeParen then if depth = 0 then r else skipSurplus r (depth - 1)
        else skipSurplus r depth
termination_by s.length
decreasing_by
  · exact Lexeme.quoted?_lt h
  all_goals exact Nat.lt_succ_self _

theorem skipSurplus_le (s : Text) (depth : Nat) : (skipSurplus s depth).length ≤ s.length := by
  fun_induction skipSurplus s depth with
  | case1 => exact Nat.le_refl _
  | case2 _ _ _ _ _ h ih => exact Nat.le_of_lt (Nat.lt_of_le_of_lt ih (Lexeme.quoted?_lt h))
  | case3 => exact Nat.le_refl _
  | case5 => exact Nat.le_succ _
  | case4 | case6 | case7 => exact Nat.le_succ_of_le (by assumption)

/-- Ends an argument list whose parameters are all bound.  A surplus or a missing parenthesis
is reported, and the expansion goes on. -/
def closeArguments (inParens : Bool) (s : Text) (st : State) : Gathered s :=
  if inParens then
    match s with
    | [] => ⟨[], st.report .unclosedParen, {}, none, Nat.le_refl _⟩
    | c :: r =>
      if c = closeParen then ⟨r, st, {}, none, Nat.le_succ _⟩
      else if c = comma then
        ⟨skipSurplus (c :: r) 0, st.report .extraArguments, {}, none, skipSurplus_le _ _⟩
      else ⟨c :: r, st.report .unclosedParen, {}, none, Nat.le_refl _⟩
  else if Text.atEndOfStatement s then ⟨s, st, {}, none, Nat.le_refl _⟩
  else ⟨s, st.report .extraArguments, {}, none, Nat.le_refl _⟩

/-- Where the arguments of a call start, and whether they stand in parentheses. -/
def openArguments (s : Text) : Bool × Text :=
  match Text.skipBlanks s with
  | [] => (false, [])
  | c :: r => if c = openParen then (true, Text.skipBlanks r) else (false, c :: r)

theorem openArguments_le (s : Text) : (openArguments s).2.length ≤ s.length := by
  refine Nat.le_trans ?_ (Text.length_skipBlanks_le s)
  unfold openArguments
  generalize Text.skipBlanks s = t
  cases t with
  | nil => exact Nat.le_refl _
  | cons c r =>
    dsimp only
    split
    · exact Nat.le_succ_of_le (Text.length_skipBlanks_le r)
    · exact Nat.le_refl _

/-- Binds the arguments of a call in the innermost scope.  They stand in parentheses or run to
the end of the statement. -/
def collectArguments (expand : Expander) (params : List String) (s : Text) (st : State) :
    Gathered s :=
  let inParens := (openArguments s).1
  let bound := bindArguments expand inParens params (openArguments s).2 st
  match bound.fault with
  | some _ => bound.widen (openArguments_le s)
  | none =>
    (closeArguments inParens bound.rest bound.state).widen
      (Nat.le_trans bound.le (openArguments_le s))

/-- The arguments of a call, if its macro has parameters at all. -/
def takeArguments (expand : Expander) (params : List String) (s : Text) (st : State) : Gathered s :=
  if params.isEmpty then ⟨s, st, {}, none, Nat.le_refl _⟩ else collectArguments expand params s st

/-! ### Expansion -/

/-- Expands the macro of that name.  Expansions are nested at most `budget` deep. -/
def expand (budget : Nat) : Expander := fun name s st out =>
  match st.table.lookup name with
  | none => ⟨s, st, out, Nat.le_refl _⟩
  | some m =>
    if m.expanding then ⟨s, st.report (.macroRecursion name), out, Nat.le_refl _⟩
    else
      match budget with
      | 0 => ⟨s, { st with starved := true }, out, Nat.le_refl _⟩
      | budget + 1 =>
        let bound := takeArguments (expand budget) m.params s (st.enter name)
        match bound.fault with
        | some fault => ⟨bound.rest, (bound.state.report fault).leave name, out, bound.le⟩
        | none =>
          let made := rescan (expand budget) m.body bound.state out
          ⟨bound.rest, made.1.leave name, made.2, bound.le⟩

/-- Expands with as much nesting as the table allows for. -/
def full (table : MacroTable) : Expander := expand table.weight

end AsmPrep.Expansion
