/-
Options and their values.

Options and input names may be mixed.  A long option takes its value after an equals
sign or as the next argument, a short one directly after its letter, with or without an
equals sign, or as the next argument; short ones without a value can share a dash.
After a lone double dash everything is an input name, and a single dash always is a
value or a name.

An option's value is looked at when the next option or name is, or at the end.  The
first thing found wrong in that order is what parsing stops with.
-/
namespace AsmPrep.CommandLine

inductive Flag where
  | includePath
  | define
  | outfile
  | listing
  | errorFile
  | verbose
  | help
  | version
  deriving DecidableEq, Repr

namespace Flag

def takesValue : Flag → Bool
  | includePath | define | outfile | listing | errorFile => true
  | verbose | help | version => false

/-- Long names are not abbreviated. -/
def ofLong? : String → Option Flag
  | "include-path" => some includePath
  | "define" => some define
  | "outfile" => some outfile
  | "listing" => some listing
  | "error-file" => some errorFile
  | "verbose" => some verbose
  | "help" => some help
  | "version" => some version
  | _ => none

def ofShort? : Char → Option Flag
  | 'I' => some includePath
  | 'D' => some define
  | 'o' => some outfile
  | 'i' => some listing
  | 'e' => some errorFile
  | 'v' => some verbose
  | 'h' => some help
  | 'V' => some version
  | _ => none

end Flag

/-- What the arguments ask for, before it is checked. -/
structure Arguments where
  includePath : List String := []
  defines : List String := []
  outfile : Option String := none
  listing : Option String := none
  errorFile : Option String := none
  verbose : Bool := false
  inputs : List String := []
  deriving DecidableEq, Repr

/-- What parsing can stop with. -/
inductive Stop where
  | unknownArgument
  /-- A value is missing, or empty where a path is expected. -/
  | invalidValue
  /-- An option is given twice that can be given once. -/
  | argumentConflict
  /-- An option without a value is given one. -/
  | tooManyValues
  | displayHelp
  | displayVersion
  deriving DecidableEq, Repr

/-- The arguments looked at so far. -/
structure Parse where
  args : Arguments := {}
  /-- An option that waits for its value, or whose value has not been looked at. -/
  pending : Option (Flag × Option String) := none
  /-- Whether a double dash was met. -/
  namesOnly : Bool := false

/-- A path that an option sets once. -/
def setPath (old : Option String) (value : String) : Except Stop (Option String) :=
  if old.isSome then .error .argumentConflict
  else if value.isEmpty then .error .invalidValue
  else .ok (some value)

namespace Arguments

/-- Gives an option its value. -/
def set (a : Arguments) (flag : Flag) (value : String) : Except Stop Arguments :=
  match flag with
  | .includePath =>
    if value.isEmpty then .error .invalidValue
    else .ok { a with includePath := a.includePath ++ [value] }
  | .define => .ok { a with defines := a.defines ++ [value] }
  | .outfile => (setPath a.outfile value).map fun outfile => { a with outfile }
  | .listing => (setPath a.listing value).map fun listing => { a with listing }
  | .errorFile => (setPath a.errorFile value).map fun errorFile => { a with errorFile }
  | .verbose | .help | .version => .error .tooManyValues

/-- Obeys an option without a value. -/
def switch (a : Arguments) (flag : Flag) : Except Stop Arguments :=
  match flag with
  | .verbose => if a.verbose then .error .argumentConflict else .ok { a with verbose := true }
  | .help => .error .displayHelp
  | .version => .error .displayVersion
  | .includePath | .define | .outfile | .listing | .errorFile => .error .invalidValue

end Arguments

namespace Parse

/-- Looks at the value of the option before this one. -/
def settle (p : Parse) : Except Stop Parse :=
  match p.pending with
  | none => .ok p
  | some (_, none) => .error .invalidValue
  | some (flag, some value) => do
    return { p with args := ← p.args.set flag value, pending := none }

/-- An option, with the value that is attached to it, if one is. -/
def option (p : Parse) (flag : Flag) (attached : Option String) : Except Stop Parse := do
  if flag.takesValue then
    let p ← p.settle
    match attached with
    | none => return { p with pending := some (flag, none) }
    | some value => return { p with args := ← p.args.set flag value }
  else
    match attached with
    | some _ => .error .tooManyValues
    | none =>
      let p ← p.settle
      return { p with args := ← p.args.switch flag }

/-- Short options behind one dash. -/
def cluster (p : Parse) : List Char → Except Stop Parse
  | [] => .ok p
  | c :: rest =>
    match Flag.ofShort? c with
    | none => .error .unknownArgument
    | some flag =>
      if flag.takesValue then
        match rest with
        | [] => p.option flag none
        | d :: value =>
          p.option flag (some (String.ofList (if d = '=' then value else d :: value)))
      else do (← p.option flag none).cluster rest

/-- A long option, with a value after the first equals sign. -/
def long (p : Parse) (text : List Char) : Except Stop Parse :=
  let name := text.takeWhile (· != '=')
  match Flag.ofLong? (String.ofList name) with
  | none => .error .unknownArgument
  | some flag =>
    p.option flag (if name.length < text.length then
      some (String.ofList (text.drop (name.length + 1))) else none)

/-- An input name. -/
def name (p : Parse) (text : String) : Except Stop Parse := do
  let p ← p.settle
  return { p with args := { p.args with inputs := p.args.inputs ++ [text] } }

/-- The next argument. -/
def argument (p : Parse) (text : String) : Except Stop Parse :=
  if p.namesOnly then p.name text
  else match text.toList with
    | ['-', '-'] => .ok { p with namesOnly := true }
    | '-' :: '-' :: rest => p.long rest
    | '-' :: c :: rest => p.cluster (c :: rest)
    | _ =>
      match p.pending with
      | some (flag, none) => .ok { p with pending := some (flag, some text) }
      | _ => p.name text

end Parse

/-- What the arguments ask for, or what parsing them stops with. -/
def parse (arguments : List String) : Except Stop Arguments := do
  let p ← arguments.foldlM Parse.argument {}
  return (← p.settle).args

end AsmPrep.CommandLine
