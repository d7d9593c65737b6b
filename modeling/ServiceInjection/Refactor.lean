import ServiceInjection.Edit.Batch
import ServiceInjection.Role.Classify
import ServiceInjection.Service.Builtin
import ServiceInjection.Wiring.Edits

/-!
# Refactor

Injecting services into a class: finding the static calls in its body, choosing
which services are new, and gathering the edits that declare, wire and use them.
-/

namespace ServiceInjection

/-- A request to inject services into a class of a text. -/
structure Request where
  text : String
  role : Role
  /-- The services to inject; none means all that the class fetches statically. -/
  services : List String := []
  /-- A line of the class; without one the first class is meant. -/
  cursorLine : Option Nat := none
  /-- Interfaces that the class is known to have. -/
  knownInterfaces : List String := []
  deriving Repr

namespace Request

/-- The request to inject all services into the class around a line, with the role
that its declaration suggests. -/
def ofHierarchy (text : String) (line : Option Nat) (hierarchy : Hierarchy) : Request :=
  { text, role := hierarchy.role, cursorLine := line, knownInterfaces := hierarchy.interfaces }

end Request

/-- The static calls in the body of a class, without those of classes inside it. -/
def Subject.calls (subject : Subject) : List StaticCall :=
  (StaticCall.detect subject.source).filter fun call =>
    subject.outline.bodyContains call.line &&
      subject.source.enclosingDeclaration call.line == some subject.outline.decl.line

/-- Each entry once, in order of first occurrence. -/
def distinct (ids : List String) : List String :=
  ids.foldl (fun seen id => if seen.contains id then seen else seen ++ [id]) []

/-- The services to inject or to use. -/
def requestedIds (knowledge : Knowledge) (services : List String) (calls : List StaticCall) :
    List String :=
  let ids := if services.isEmpty then StaticCall.serviceIds calls else distinct services
  if knowledge.options.strictServices then ids.filter knowledge.knows else ids

/-- The class that a request is about. -/
def Request.subject (request : Request) (options : Options) : Except RefactorError Subject := do
  let conventions ← match request.role.conventions? with
    | some conventions => .ok conventions
    | none => .error (.unsupportedRole request.role.tag)
  let source := Source.ofText request.text
  let found := match request.cursorLine with
    | some line => Outline.at? source line
    | none => Outline.first? source
  let outline ← match found with
    | some outline => .ok outline
    | none => .error .noEnclosingClass
  let kind := outline.decl.kind
  if kind != .namedClass && kind != .anonymousClass then
    .error (.unsupportedShape (.notAClass outline.decl.name))
  else if outline.decl.openBraceLine == outline.decl.closeBraceLine then
    .error (.unsupportedShape .singleLineBody)
  else
    .ok ⟨source, outline, conventions, CodeStyle.detect outline source options.indent⟩

/-! ### Draft -/

/-- How the requested services get into a class, before it is spelled out as edits. -/
structure Draft where
  wiring : ExistingWiring
  /-- The services to wire up. -/
  bindings : List Binding
  /-- The short names that the bindings take. -/
  reserved : Reservations
  plan : MethodPlan
  /-- The calls that can be replaced, in text order. -/
  replacements : List Replacement

namespace Draft

/-- The draft for a class. A plan is made only if there is a service to wire up. -/
def of (knowledge : Knowledge) (services : List String) (subject : Subject) :
    Except RefactorError Draft := do
  let outline := subject.outline
  let requested := requestedIds knowledge services subject.calls
  let wiring := ExistingWiring.of knowledge.directory subject
  let new := requested.filter (!wiring.ids.contains ·)
  let (bindings, reserved) := bindAll knowledge outline (Promotion.of subject) [] [] new
  let leading := subject.conventions.leadingParams.map (·.expression)
  let plan ←
    if bindings.isEmpty then .ok ⟨.keep, .keep⟩
    else (planMethods outline leading).mapError .unsupportedShape
  let replacements := (subject.calls.filter (requested.contains ·.serviceId)).filterMap
    (replacementOf outline wiring bindings)
  .ok ⟨wiring, bindings, reserved, plan, replacements⟩

/-- Whether a call lies in a constructor that is written anew. -/
def isPatch (draft : Draft) (outline : Outline) (replacement : Replacement) : Bool :=
  outline.inConstructor replacement.call.line && draft.plan.constructor == .merge

/-- The calls that are replaced in the text of a new constructor. -/
def patches (draft : Draft) (outline : Outline) : List Replacement :=
  draft.replacements.filter (draft.isPatch outline)

/-- The calls that get an edit of their own. -/
def loose (draft : Draft) (outline : Outline) : List Replacement :=
  draft.replacements.filter (!draft.isPatch outline ·)

/-- The type of the container in a new factory, and the names reserved behind it. -/
def containerType (draft : Draft) (outline : Outline) : TypeRef × Reservations :=
  if draft.plan.factory == .create then typeRef outline draft.reserved containerInterface
  else (⟨Text.shortName containerInterface, none⟩, draft.reserved)

/-- The edit that adds the marker interface, which goes with a new factory, and the
class to import for it. -/
def marker (draft : Draft) (subject : Subject) (knownInterfaces : List String) :
    Option (Edit × Option String) :=
  if draft.plan.factory == .create then
    markerEdit subject knownInterfaces (draft.containerType subject.outline).2
  else none

/-- The classes to import, in order and each once. -/
def importNames (draft : Draft) (subject : Subject) (knownInterfaces : List String) :
    List String :=
  let names := (draft.containerType subject.outline).1.importName.toList ++
    ((draft.marker subject knownInterfaces).bind (·.2)).toList ++
    draft.bindings.filterMap (·.importName)
  (names.mergeSort fun a b => decide (a ≤ b)).eraseDups

/-- The edits that wire new services up. -/
def wiringEdits (draft : Draft) (subject : Subject) (knownInterfaces : List String) :
    Except ShapeProblem (List Edit) := do
  let factory ← factoryEdit subject draft.plan draft.wiring
    (draft.containerType subject.outline).1.text draft.bindings
  .ok ((importEdit subject (draft.importNames subject knownInterfaces)).toList ++
    ((draft.marker subject knownInterfaces).map (·.1)).toList ++
    (fieldEdit subject draft.bindings).toList ++
    (constructorEdit subject draft.plan draft.bindings (draft.patches subject.outline)).toList ++
    factory.toList)

/-- The edits of a draft in the order of their emission. -/
def edits (draft : Draft) (subject : Subject) (knownInterfaces : List String) :
    Except RefactorError (List Edit) := do
  let wired ←
    if draft.bindings.isEmpty then .ok []
    else (draft.wiringEdits subject knownInterfaces).mapError .unsupportedShape
  .ok (wired ++ (draft.loose subject.outline).map (·.edit))

end Draft

/-! ### Refactoring -/

/-- The edits of a refactoring in the order of their emission. -/
def refactorEdits (knowledge : Knowledge) (request : Request) (subject : Subject) :
    Except RefactorError (List Edit) := do
  let draft ← Draft.of knowledge request.services subject
  draft.edits subject request.knownInterfaces

/-- The batch that injects the requested services, or the reason why there is
none. -/
def refactor (knowledge : Knowledge) (request : Request) : Except RefactorError Batch := do
  let subject ← request.subject knowledge.options
  let edits ← refactorEdits knowledge request subject
  if edits.isEmpty then .error .nothingToInject else .ok (Batch.assemble edits)

/-- The batch that injects the requested services, empty if there is none. -/
def refactorOrEmpty (knowledge : Knowledge) (request : Request) : Batch :=
  match refactor knowledge request with
  | .ok batch => batch
  | .error _ => {}

end ServiceInjection
