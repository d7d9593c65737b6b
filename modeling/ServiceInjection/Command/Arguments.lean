import ServiceInjection.Command.Help
import ServiceInjection.Role.Basic
import ServiceInjection.Text.Digits

/-!
# Command.Arguments

The command line. Without arguments the language server runs. `refactor` takes a
file and options, in any order; an option has its value behind an equals sign or as
the next argument, and only `--service` may come more than once. Behind `--`, all
arguments are files.
-/

namespace ServiceInjection

structure RefactorOptions where
  file : String
  services : List String := []
  role : Option Role := none
  /-- A line of the class, counted from one. -/
  line : Option Nat := none
  workspace : Option String := none
  /-- Whether the file is written instead of printing the edits. -/
  write : Bool := false
  deriving DecidableEq, Repr

inductive Invocation where
  | serve
  | version
  | help (topic : HelpTopic)
  | refactor (options : RefactorOptions)
  deriving DecidableEq, Repr

namespace Arguments

/-- The options read so far. -/
structure Draft where
  file : Option String := none
  services : List String := []
  role : Option Role := none
  line : Option Nat := none
  workspace : Option String := none
  write : Bool := false

/-- A line number: digits with an optional sign, of 32 bits. -/
def lineNumber? (text : String) : Option Nat :=
  let (negative, digits) := match text.toList with
    | '-' :: cs => (true, cs)
    | '+' :: cs => (false, cs)
    | cs => (false, cs)
  let number := Text.natOfDigits 10 digits
  if digits.isEmpty || !digits.all Char.isDigit || (negative && number != 0) ||
      0xFFFFFFFF < number then none
  else some number

/-- Whether an argument is an option and not a value. A lone dash is a value. -/
def isOption (argument : String) : Bool :=
  argument.toList.head? == some '-' && argument != "-"

/-- The name of an option that takes a value, and the value behind an equals sign. -/
def splitOption (argument : String) : String × Option String :=
  let cs := argument.toList
  match cs.dropWhile (· != '=') with
  | _ :: value => (String.ofList (cs.takeWhile (· != '=')), some (String.ofList value))
  | [] => (argument, none)

/-- Sets an option that takes a value; only `--service` may be set again. -/
def setOption (draft : Draft) (name value : String) : Option Draft :=
  match name with
  | "--service" => some { draft with services := draft.services ++ [value] }
  | "--role" =>
    if draft.role.isSome then none else some { draft with role := some (Role.ofTag value) }
  | "--line" => do
    guard draft.line.isNone
    some { draft with line := some (← lineNumber? value) }
  | "--workspace" =>
    if draft.workspace.isSome || value.isEmpty then none
    else some { draft with workspace := some value }
  | _ => none

def setFile (draft : Draft) (file : String) : Option Draft :=
  if draft.file.isSome || file.isEmpty then none else some { draft with file := some file }

/-- What the arguments of `refactor` ask for. -/
def finish (draft : Draft) : Option Invocation := do
  let file ← draft.file
  some (.refactor ⟨file, draft.services, draft.role, draft.line, draft.workspace, draft.write⟩)

/-- Whether an argument is a short option with a letter; what follows the letter is
not looked at. -/
def isShort (letter : Char) (argument : String) : Bool :=
  ['-', letter].isPrefixOf argument.toList

def refactor (draft : Draft) : List String → Option Invocation
  | [] => finish draft
  | "--" :: files => do finish (← files.foldlM setFile draft)
  | argument :: rest =>
    if argument == "--help" || isShort 'h' argument then some (.help .refactor)
    else if argument == "--write" then
      if draft.write then none else refactor { draft with write := true } rest
    else if isOption argument then
      match splitOption argument with
      | (name, some value) =>
        match setOption draft name value with
        | some draft => refactor draft rest
        | none => none
      | (name, none) =>
        match rest with
        | value :: rest =>
          if isOption value then none
          else match setOption draft name value with
            | some draft => refactor draft rest
            | none => none
        | [] => none
    else
      match setFile draft argument with
      | some draft => refactor draft rest
      | none => none

/-- Reads the arguments of `help`: the command that is asked about. `help` has no
commands of its own, and neither has `refactor`. -/
def help : List String → Option Invocation
  | [] => some (.help .program)
  | ["refactor"] => some (.help .refactor)
  | ["help"] => some (.help .help)
  | _ => none

/-- What the command line asks for, or none if it cannot be understood. -/
def parse : List String → Option Invocation
  | [] => some .serve
  | ["--"] => some .serve
  | "refactor" :: rest => refactor {} rest
  | "help" :: rest => help rest
  | argument :: _ =>
    if argument == "--version" || isShort 'V' argument then some .version
    else if argument == "--help" then some (.help .program)
    else if isShort 'h' argument then some (.help .summary)
    else none

end Arguments

end ServiceInjection
