import ServiceInjection.Call.Basic
import ServiceInjection.Call.Shortcut
import ServiceInjection.Source.Basic
import ServiceInjection.Source.Expressions
import ServiceInjection.Text.Units

/-!
# Call.Detect

Finding the static calls of a source. Each line is searched for the shapes of
call in turn, on its raw text, since a service id is the content of a string
literal; a match counts only if it starts in code. A variable that was assigned
the container counts as the container until the braces around the assignment are
closed. A call that spans several lines is not found.
-/

namespace ServiceInjection.StaticCall

open Text

/-! ### Shapes of call -/

/-- Reads `\Drupal::` with or without its backslash. -/
def drupalClass (cs : List Char) : Option (List Char) := literal "Drupal::" (skipChar '\\' cs)

/-- Reads `\Drupal::getContainer()`. -/
def containerExpr (cs : List Char) : Option (List Char) := do
  let cs ← drupalClass cs
  let cs ← literal "getContainer(" cs
  literal ")" (blanks cs)

/-- Reads `\Drupal::service('id')`. -/
def directCall (cs : List Char) : Option (List Char × List Char) := do
  let cs ← drupalClass cs
  let cs ← literal "service" cs
  quotedCall cs

/-- Reads `\Drupal::getContainer()->get('id')`. -/
def containerCall (cs : List Char) : Option (List Char × List Char) := do
  let cs ← containerExpr cs
  let cs ← arrowTo cs
  let cs ← literal "get" cs
  quotedCall cs

/-- Reads `\Drupal::method(arguments)` with no parentheses in the arguments. -/
def shortcutCall (cs : List Char) : Option ((List Char × List Char) × List Char) := do
  let cs ← drupalClass cs
  let (method, cs) ← word cs
  let cs ← literal "(" cs
  let isArgument := fun c => c != '(' && c != ')'
  let rest ← literal ")" (cs.dropWhile isArgument)
  some ((method, cs.takeWhile isArgument), rest)

/-- Reads `$variable = \Drupal::getContainer();` and gives the variable. -/
def containerAssignment (cs : List Char) : Option (List Char × List Char) := do
  let (name, cs) ← variableExpr cs
  let cs ← literal "=" (blanks cs)
  let cs ← containerExpr (blanks cs)
  let cs ← literal ";" (blanks cs)
  some (name, cs)

/-! ### One line -/

/-- Whether a match at index `i` refers to the global class: it starts in code and
continues no longer name. -/
def isDrupalReference (line : Line) (i : Nat) : Bool :=
  line.isCodeAt i &&
    match i with
    | 0 => true
    | before + 1 =>
      match line.raw[before]? with
      | some c => !(isAlphanumeric c || c == '_' || c == '\\' || c == '$')
      | none => true

def ofMatch {α : Type} (n : Nat) (line : Line) (m : Match α) (serviceId : String)
    (shape : CallShape) (accessor : Option Accessor) : StaticCall :=
  { serviceId, line := n, shape, accessor
    startColumn := width16 (line.raw.take m.start)
    endColumn := width16 (line.raw.take m.stop)
    text := String.ofList ((line.raw.take m.stop).drop m.start) }

/-- The service id that a quoted text names, if any. -/
def idOfQuoted (content : List Char) : Option String :=
  match trim content with
  | [] => none
  | id => some (String.ofList id)

/-- The calls of a line that name their service in quotes. -/
def quotedCalls (recognize : List Char → Option (List Char × List Char)) (shape : CallShape)
    (n : Nat) (line : Line) : List StaticCall :=
  (allMatches recognize line.raw).filterMap fun m =>
    if isDrupalReference line m.start then
      (idOfQuoted m.value).map (ofMatch n line m · shape none)
    else none

/-- The calls of a line through a named helper. The arguments have to be empty
unless the helper passes them on, and may not be empty if it does. -/
def shortcutCalls (n : Nat) (line : Line) : List StaticCall :=
  (allMatches shortcutCall line.raw).filterMap fun m => do
    guard (isDrupalReference line m.start)
    let entry ← Shortcut.find? (String.ofList m.value.1)
    let arguments := trim m.value.2
    guard (arguments.isEmpty != entry.forwardsArguments)
    let accessor := entry.accessor.map (⟨·, String.ofList arguments⟩)
    some (ofMatch n line m entry.serviceId .namedShortcut accessor)

/-- A variable that holds the container, and the brace depth at the start of the
line that assigned it. -/
structure ContainerVariable where
  name : List Char
  depth : Int
  deriving DecidableEq, Repr

/-- What is known between two lines: the brace depth, and the variables that hold
the container. -/
structure ScanState where
  depth : Int := 0
  containers : List ContainerVariable := []

/-- Adds the variables that a line assigns the container to. -/
def assignVariables (line : Line) (state : ScanState) : List ContainerVariable :=
  (allMatches containerAssignment line.raw).foldl
    (fun containers m =>
      if line.isCodeAt m.start then
        containers.filter (·.name != m.value) ++ [⟨m.value, state.depth⟩]
      else containers)
    state.containers

/-- The calls of `get` on the given variables in a line. -/
def variableCalls (containers : List ContainerVariable) (n : Nat) (line : Line) : List StaticCall :=
  (allMatches containerGet line.raw).filterMap fun m =>
    if line.isCodeAt m.start && containers.any (·.name == m.value.container) then
      (idOfQuoted m.value.serviceId).map (ofMatch n line m · .containerIndirect none)
    else none

/-- Keeps the first of successive calls that start at the same column. -/
def dropSameStart : List StaticCall → List StaticCall
  | [] => []
  | call :: rest =>
    match dropSameStart rest with
    | [] => [call]
    | next :: others =>
      if call.startColumn == next.startColumn then call :: others else call :: next :: others

/-- Orders the calls of a line by column and keeps the first at each column. -/
def orderCalls (calls : List StaticCall) : List StaticCall :=
  dropSameStart (calls.mergeSort (fun a b => a.startColumn ≤ b.startColumn))

/-- The calls of one line, and what is known behind it. A variable is forgotten
once the depth falls below the one that it was assigned at. -/
def detectLine (state : ScanState) (n : Nat) (line : Line) : List StaticCall × ScanState :=
  let locator :=
    quotedCalls directCall .directLocator n line ++
      quotedCalls containerCall .containerIndirect n line ++ shortcutCalls n line
  let containers := assignVariables line state
  let calls := orderCalls (locator ++ variableCalls containers n line)
  let depth := state.depth + line.braceBalance
  (calls, ⟨depth, containers.filter (·.depth ≤ depth)⟩)

/-- The calls of successive lines, the first of which has number `n`. -/
def detectLines (state : ScanState) (n : Nat) : List Line → List StaticCall
  | [] => []
  | line :: rest =>
    let (calls, next) := detectLine state n line
    calls ++ detectLines next (n + 1) rest

/-- Every static call of a source, ordered by line and column. -/
def detect (source : Source) : List StaticCall := detectLines {} 0 source.lines

end ServiceInjection.StaticCall
