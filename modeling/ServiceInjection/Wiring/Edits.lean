import ServiceInjection.Wiring.Bind
import ServiceInjection.Wiring.CallSites
import ServiceInjection.Wiring.Render

/-!
# Wiring.Edits

Where new text goes in a class: imports behind the last import, the marker
interface at the end of the header, properties behind the trait uses or in front
of the first property, and the two wiring methods beside each other.
-/

namespace ServiceInjection

/-- The class of the container that factories receive. -/
def containerInterface : String := "Symfony\\Component\\DependencyInjection\\ContainerInterface"

/-! ### Imports -/

/-- The edit that imports classes. Without any import to follow, a named class gets
them in front of its comments, and a file with an anonymous class behind its
namespace. -/
def importEdit (subject : Subject) (names : List String) : Option Edit :=
  let outline := subject.outline
  let new := names.filter (!outline.hasImport ·)
  if new.isEmpty then none
  else
    let text := Render.imports new
    let description := "Import " ++ ", ".intercalate (new.map Text.shortName)
    some <| match outline.lastImportLine with
      | some last => .insert description last (subject.lineEnd last) ("\n" ++ text)
      | none =>
        if outline.decl.kind == .anonymousClass then
          let line := outline.namespaceLine.getD 0
          .insert description line (subject.lineEnd line) ("\n\n" ++ text)
        else .insert description outline.decl.leadingLine 0 (text ++ "\n\n")

/-! ### Marker interface -/

/-- Whether a class needs the marker interface of its role: it neither declares nor
is known to have it, and its parent does not bring it. -/
def needsMarker (subject : Subject) (knownInterfaces : List String) : Bool :=
  let marker := Text.shortName subject.conventions.markerInterface
  let decl := subject.outline.decl
  let declared := decl.interfaces.any (Text.shortName · == marker)
  let inherited := decl.parent.any fun parent =>
    subject.conventions.markedParents.contains (Text.shortName parent)
  !(declared || knownInterfaces.contains marker || inherited)

/-- The masked text of a header line, up to the first brace on the line that opens
the body. -/
def headerPart (subject : Subject) (n : Nat) : List Char :=
  let line := subject.source.line n
  let cells :=
    if n == subject.outline.decl.openBraceLine then line.takeWhile (·.code != '{') else line
  Line.masked cells

/-- The last line of the header that holds code. -/
def headerEnd? (subject : Subject) : Option Nat :=
  let decl := subject.outline.decl
  (Source.span decl.line decl.openBraceLine).reverse.find? fun n =>
    !Text.isBlankLine (headerPart subject n)

/-- The edit that adds the marker interface, the class to import for it, and the
names reserved. -/
def markerEdit (subject : Subject) (knownInterfaces : List String) (reserved : Reservations) :
    Option (Edit × Option String) := do
  guard (needsMarker subject knownInterfaces)
  let line ← headerEnd? subject
  let column := Text.width16 (Text.trimEnd (headerPart subject line))
  let marker := subject.conventions.markerInterface
  let (hint, _) := typeRef subject.outline reserved marker
  let lead := if subject.outline.decl.interfaces.isEmpty then " implements " else ", "
  some (.insert ("Implement " ++ Text.shortName marker) line column (lead ++ hint.text),
    hint.importName)

/-! ### Properties -/

/-- Whether a member stands directly behind a line. -/
def memberFollows (subject : Subject) (n : Nat) : Bool :=
  n + 1 < subject.outline.decl.closeBraceLine && !subject.isBlankLine (n + 1)

/-- The first line of what belongs to a member: its doc comment, and comments and
attributes in front. -/
def memberStart (subject : Subject) (line leadingLine : Nat) : Nat :=
  min (subject.source.leadingLine line) leadingLine

def fieldEdit (subject : Subject) (bindings : List Binding) : Option Edit :=
  let outline := subject.outline
  let new := bindings.filter fun binding =>
    !binding.promoted && (outline.field? binding.field).isNone
  if new.isEmpty then none
  else
    let block := Render.fields subject.style new
    let description := "Add " ++ ", ".intercalate (new.map ("$" ++ ·.field))
    some <| match outline.traitUses.getLast? with
      | some traitUse =>
        let last := traitUse.last
        let trailer := if memberFollows subject last then "\n" else ""
        .insert description last (subject.lineEnd last) ("\n\n" ++ block ++ trailer)
      | none =>
        match outline.fields.find? (!·.promoted) with
        | some first =>
          .insert description (memberStart subject first.line first.leadingLine) 0 (block ++ "\n\n")
        | none =>
          let brace := outline.decl.openBraceLine
          let blankFollows :=
            brace + 1 < outline.decl.closeBraceLine && subject.isBlankLine (brace + 1)
          let text :=
            if blankFollows then "\n\n" ++ block
            else if memberFollows subject brace then "\n" ++ block ++ "\n"
            else "\n" ++ block
          .insert description brace (subject.lineEnd brace) text

/-! ### Wiring methods -/

/-- The edit that adds a method: behind line `after` if that is given, else in
front of the first method, else at the end of the body. There it gets a blank line
in front unless there is one already; `leads` tells whether no other new method
comes before it. -/
def methodEdit (subject : Subject) (description : String) (after : Option Nat) (leads : Bool)
    (text : String) : Edit :=
  match after with
  | some line => .insert description line (subject.lineEnd line) ("\n\n" ++ text)
  | none =>
    match subject.outline.methods with
    | first :: _ =>
      let line := memberStart subject first.span.first first.leadingLine
      .insert description line 0 (text ++ "\n\n")
    | [] =>
      let close := subject.outline.decl.closeBraceLine
      let blankBefore := 0 < close && subject.isBlankLine (close - 1)
      let before := if blankBefore && leads then "" else "\n"
      .insert description close 0 (before ++ text ++ "\n")

def constructorEdit (subject : Subject) (plan : MethodPlan) (bindings : List Binding)
    (patches : List Replacement) : Option Edit :=
  let outline := subject.outline
  match plan.constructor with
  | .keep => none
  | .create =>
    let text :=
      Render.freshConstructor subject.style outline.decl.name subject.conventions bindings
    let after := if plan.factory == .create then none else outline.factory.map (·.endLine)
    some (methodEdit subject "Add constructor" after true text)
  | .merge =>
    outline.constructor.map fun ctor =>
      let text := Render.mergedConstructor subject.style subject.source ctor bindings
        (patchedBody ctor patches)
      .replaceLines "Inject services through the constructor" ctor.leadingLine ctor.endLine
        (subject.lineEnd ctor.endLine) text

/-- The arguments of a new factory: the leading ones, the services of the existing
parameters, and the new services. -/
def freshArguments (subject : Subject) (wiring : ExistingWiring) (bindings : List Binding) :
    Except ShapeProblem (List String) := do
  let fetch := fetchExpression "container"
  let existing ←
    if subject.outline.constructor.isSome then
      wiring.paramServices.mapM fun
        | some id => .ok (fetch id)
        | none => .error .unknownParamService
    else .ok []
  .ok (subject.conventions.leadingParams.map (·.expression) ++ existing ++
    bindings.map (fetch ·.serviceId))

/-- What follows the last semicolon of a line. -/
def afterLastSemicolon (line : Line) : String :=
  let behind := line.reverse.takeWhile (·.code != ';')
  if behind.length == line.length then "" else String.ofList (Line.raw behind).reverse

/-- The edit that passes new services from an existing factory. -/
def mergedFactory (subject : Subject) (factory : Factory) (bindings : List Binding) :
    Option Edit :=
  let fetch := fetchExpression factory.containerVar
  match factory.shape with
  | .newStatic keyword arguments trailingComma returnLine returnEndLine =>
    let all := arguments ++ bindings.map (fetch ·.serviceId)
    let statement := Render.returnNew (subject.indentOf returnLine) subject.style.unit keyword all
      trailingComma
    let text := statement ++ afterLastSemicolon (subject.source.line returnEndLine)
    some (.replaceLines "Pass services from create()" returnLine returnEndLine
      (subject.lineEnd returnEndLine) text)
  | .instanceAssign instanceVar _ returnLine =>
    let indent := subject.indentOf returnLine
    let assign := fun (binding : Binding) =>
      indent ++ "$" ++ instanceVar ++ "->" ++ binding.field ++ " = " ++
        fetch binding.serviceId ++ ";\n"
    some (.insert "Set services in create()" returnLine 0 (String.join (bindings.map assign)))
  | .unrecognized => none

def factoryEdit (subject : Subject) (plan : MethodPlan) (wiring : ExistingWiring)
    (containerType : String) (bindings : List Binding) : Except ShapeProblem (Option Edit) :=
  match plan.factory with
  | .keep => .ok none
  | .create => do
    let arguments ← freshArguments subject wiring bindings
    let text := Render.freshFactory subject.style subject.conventions containerType arguments
    let extending := plan.constructor != .create
    let after := if extending then subject.outline.constructor.map (·.endLine) else none
    .ok (some (methodEdit subject "Add create() factory" after extending text))
  | .merge => .ok (subject.outline.factory.bind (mergedFactory subject · bindings))

end ServiceInjection
