import ServiceInjection.Outline.Statements
import ServiceInjection.Outline.Params
import ServiceInjection.Source.Basic
import ServiceInjection.Source.Commas

/-!
# Outline.Methods

What a constructor and a factory method look like and wire up, read from the
places of their brackets.
-/

namespace ServiceInjection

open Text

structure MethodLayout where
  paramsOpen : Spot
  paramsClose : Spot
  bodyOpen : Spot
  bodyClose : Spot
  deriving DecidableEq, Repr

/-- The layout of the method whose parameters open at `paramsOpen`; nothing for a
method without a body. -/
def MethodLayout.at? (source : Source) (paramsOpen : Spot) : Option MethodLayout := do
  let paramsClose ← source.matchingClose paramsOpen '(' ')'
  let glyph ← source.firstOf paramsClose.next ['{', ';']
  guard (glyph.char == '{')
  let bodyClose ← source.matchingClose glyph.spot '{' '}'
  some ⟨paramsOpen, paramsClose, glyph.spot, bodyClose⟩

/-- The entries of the list between two brackets. -/
def Source.entriesBetween (source : Source) (opening closing : Spot) : EntryList :=
  .ofCells (source.between opening closing)

/-! ### Constructor -/

/-- The body between two braces: its text if both stand on one line and there is
any, the lines between them otherwise. -/
def bodyLines (source : Source) (opening closing : Spot) : List String :=
  if opening.line == closing.line then
    match trim (source.between opening closing).raw with
    | [] => []
    | text => [String.ofList text]
  else
    (Source.span (opening.line + 1) (closing.line - 1)).map fun n => (source.line n).text

def Constructor.ofLayout (source : Source) (layout : MethodLayout) (doc : Option LineSpan) :
    Constructor :=
  let list := source.entriesBetween layout.paramsOpen layout.paramsClose
  { startLine := layout.paramsOpen.line
    openBraceLine := layout.bodyOpen.line
    endLine := layout.bodyClose.line
    params := list.entries.filterMap fun entry => Param.of? entry.text entry.masked
    body := bodyLines source layout.bodyOpen layout.bodyClose
    doc
    multilineParams := layout.paramsOpen.line != layout.paramsClose.line
    trailingComma := list.trailingComma
    signatureStart :=
      String.ofList ((source.raw layout.paramsOpen.line).take (layout.paramsOpen.col + 1))
    signatureEnd := (source.slice layout.paramsClose layout.bodyOpen.next).text }

/-! ### Factory -/

/-- The name of the first parameter, or `container` without one. -/
def containerVarOf (list : EntryList) : String :=
  match list.entries with
  | entry :: _ =>
    match Param.of? entry.text entry.masked with
    | some param => param.name
    | none => "container"
  | [] => "container"

/-- The ids of the services that a line fetches from the container. -/
def fetchedOn (containerVar : String) (line : Line) : List String :=
  (allMatches containerGet line.raw).filterMap fun m =>
    if line.isCodeAt m.start && String.ofList m.value.container == containerVar then
      some (String.ofList m.value.serviceId)
    else none

/-- The properties of `instanceVar` that a line fills from the container. -/
def assignmentsOn (instanceVar containerVar : String) (line : Line) : List Assignment :=
  (allMatches instanceAssignment line.raw).filterMap fun m =>
    if String.ofList m.value.owner == instanceVar &&
        String.ofList m.value.fetch.container == containerVar then
      some ⟨String.ofList m.value.field, String.ofList m.value.fetch.serviceId⟩
    else none

/-- Whether a line of code returns the variable. -/
def returnsVariable (name : String) (code : List Char) : Bool :=
  match firstWordMatch returnVariable code with
  | some m => String.ofList m.value == name
  | none => false

/-- Collects assignments up to the line that returns the variable. -/
def instanceShape (source : Source) (instanceVar containerVar : String) :
    List Assignment → List Nat → FactoryShape
  | _, [] => .unrecognized
  | found, n :: rest =>
    let found := found ++ assignmentsOn instanceVar containerVar (source.line n)
    if returnsVariable instanceVar (source.code n) then .instanceAssign instanceVar found n
    else instanceShape source instanceVar containerVar found rest

/-- The first of the given lines on which `find` succeeds, and what it gives. -/
def firstLine {α : Type} (numbers : List Nat) (find : Nat → Option α) : Option (Nat × α) :=
  numbers.findSome? fun n => (find n).map (n, ·)

/-- How the body on the given lines builds its object. -/
def FactoryShape.ofBody (source : Source) (containerVar : String) (opening closing : Spot) :
    FactoryShape :=
  let numbers := Source.span opening.line closing.line
  match firstLine numbers fun n => firstWordMatch returnNew (source.code n) with
  | some (n, m) =>
    let paren : Spot := ⟨n, m.stop - 1⟩
    match source.matchingClose paren '(' ')' with
    | none => .unrecognized
    | some close =>
      let list := source.entriesBetween paren close
      .newStatic m.value (list.entries.map (String.ofList ·.text)) list.trailingComma n close.line
  | none =>
    match firstLine numbers fun n => firstMatch parentCreate (source.code n) with
    | none => .unrecognized
    | some (n, m) =>
      instanceShape source (String.ofList m.value) containerVar [] (Source.span n closing.line)

def Factory.ofLayout (source : Source) (layout : MethodLayout) (doc : Option LineSpan) : Factory :=
  let containerVar := containerVarOf (source.entriesBetween layout.paramsOpen layout.paramsClose)
  let body := Source.span layout.bodyOpen.line layout.bodyClose.line
  { startLine := layout.paramsOpen.line
    openBraceLine := layout.bodyOpen.line
    endLine := layout.bodyClose.line
    containerVar
    serviceIds := body.flatMap fun n => fetchedOn containerVar (source.line n)
    shape := .ofBody source containerVar layout.bodyOpen layout.bodyClose
    doc }

end ServiceInjection
