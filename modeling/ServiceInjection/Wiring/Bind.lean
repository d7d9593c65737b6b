import ServiceInjection.Wiring.Binding
import ServiceInjection.Wiring.Subject

/-!
# Wiring.Bind

Choosing names for new services: a type that means the right interface in the
file, a property and a parameter. A type is written with its short name where it
is imported or can be imported under that name, and in full otherwise.
-/

namespace ServiceInjection

/-- The short names that new imports take, and the classes they stand for; the
latest reservation of a name comes first. -/
abbrev Reservations := List (String × String)

/-- A type as it is written, and the class to import for it. -/
structure TypeRef where
  text : String
  importName : Option String
  deriving DecidableEq, Repr

/-- Whether a short name stands for another class already: one that is imported,
the class itself, or one that is about to be imported. -/
def nameTaken (outline : Outline) (reserved : Reservations) (short name : String) : Bool :=
  (outline.importOfLocalName? short).isSome || short == outline.decl.name ||
    (reserved.lookup short).any (!Text.sameName · name)

/-- How a class is written in the file, and the names reserved behind that. -/
def typeRef (outline : Outline) (reserved : Reservations) (name : String) :
    TypeRef × Reservations :=
  let short := Text.shortName name
  match outline.imports.find? (Text.sameName ·.name name) with
  | some entry => (⟨entry.localName, none⟩, reserved)
  | none =>
    if nameTaken outline reserved short name then (⟨"\\" ++ name, none⟩, reserved)
    else (⟨short, some name⟩, (short, name) :: reserved)

def bindRow (outline : Outline) (reserved : Reservations) (row : ServiceRow) :
    Binding × Reservations :=
  let (hint, reserved) := typeRef outline reserved row.interface
  ({ serviceId := row.serviceId
     field := row.field
     param := Text.snakeCase row.field
     typeHint := some hint.text
     docType := "\\" ++ row.interface
     description := row.description
     importName := hint.importName
     promoted := false
     readonly := false }, reserved)

/-- The binding of a service without a known interface: its property has no type,
and the doc comment names its class. -/
def bindUntyped (serviceId : String) (className : Option String) : Binding :=
  let field := Text.camelCase serviceId
  { serviceId
    field
    param := Text.snakeCase field
    typeHint := none
    docType := match className with
      | some name => "\\" ++ name
      | none => "object"
    description := Text.humanName serviceId
    importName := none
    promoted := false
    readonly := false }

def bindService (knowledge : Knowledge) (outline : Outline) (reserved : Reservations)
    (serviceId : String) : Binding × Reservations :=
  match knowledge.directory.lookup? serviceId with
  | some row => bindRow outline reserved row
  | none => (bindUntyped serviceId (knowledge.classOf? serviceId), reserved)

/-- How new parameters are declared. -/
structure Promotion where
  /-- Whether a parameter declares its property. -/
  promoted : Bool
  readonly : Bool
  deriving DecidableEq, Repr

/-- New parameters are promoted if all parameters behind the leading ones are, and
there are any. -/
def Promotion.of (subject : Subject) : Promotion :=
  match subject.outline.constructor with
  | none => ⟨false, false⟩
  | some ctor =>
    let own := ctor.params.drop subject.conventions.leadingParams.length
    let promoted := !own.isEmpty && own.all (·.promoted)
    let readonly := ctor.params.any fun param => Text.containsText "readonly" param.text.toList
    ⟨promoted, promoted && readonly⟩

/-- A promoted parameter has the name of its property. -/
def Promotion.adjust (promotion : Promotion) (binding : Binding) : Binding :=
  if promotion.promoted then
    { binding with promoted := true, readonly := promotion.readonly, param := binding.field }
  else binding

/-- Gives a binding a property that no other has: its own, else one named for its
id; there is none if both are taken. -/
def distinctField (bindings : List Binding) (binding : Binding) : Option Binding :=
  let taken := fun field => bindings.any (·.field == field)
  if !taken binding.field then some binding
  else
    let field := Text.camelCase binding.serviceId
    if taken field then none else some { binding with field, param := Text.snakeCase field }

/-- Binds services one after the other. A service without a free property name is
left out, but keeps its reservation of a short name. -/
def bindAll (knowledge : Knowledge) (outline : Outline) (promotion : Promotion) :
    Reservations → List Binding → List String → List Binding × Reservations
  | reserved, bindings, [] => (bindings, reserved)
  | reserved, bindings, id :: rest =>
    let (binding, reserved) := bindService knowledge outline reserved id
    match distinctField bindings binding with
    | some binding =>
      bindAll knowledge outline promotion reserved (bindings ++ [promotion.adjust binding]) rest
    | none => bindAll knowledge outline promotion reserved bindings rest

end ServiceInjection
