import ServiceInjection.Wiring.Subject

/-!
# Wiring.Existing

The services that a class already receives. A factory names them; without one
they are read off the types of the constructor parameters.
-/

namespace ServiceInjection

/-- The services that a class already receives. -/
structure ExistingWiring where
  ids : List String := []
  /-- Services and the properties that hold them. -/
  fields : List (String × String) := []
  /-- Services and the constructor parameters that bring them in. -/
  params : List (String × String) := []
  /-- The services of the constructor parameters behind the leading ones, for a
  class without a factory. -/
  paramServices : List (Option String) := []
  deriving DecidableEq, Repr

namespace ExistingWiring

/-- The last entry for a service. -/
def entryFor (entries : List (String × String)) (serviceId : String) : Option String :=
  entries.reverse.lookup serviceId

def fieldOf? (wiring : ExistingWiring) (serviceId : String) : Option String :=
  entryFor wiring.fields serviceId

def paramOf? (wiring : ExistingWiring) (serviceId : String) : Option String :=
  entryFor wiring.params serviceId

/-- The services that the arguments of a factory pass, and the parameters at their
places. -/
def paramsOfArguments (arguments : List String) (params : List Param) : List (String × String) :=
  (arguments.zip params).filterMap fun (argument, param) =>
    (containerGetId argument).map (·, param.name)

/-- The property of a service that the factory names: the one that the code stores
it in, or else a declared one of the name that the directory gives. -/
def knownField (directory : Directory) (outline : Outline) (serviceId : String) : Option String :=
  match outline.fieldForService? serviceId with
  | some field => some field
  | none =>
    match directory.lookup? serviceId with
    | some row => if (outline.field? row.field).isSome then some row.field else none
    | none => none

def ofFactory (directory : Directory) (outline : Outline) (factory : Factory) : ExistingWiring :=
  let params := match outline.constructor with
    | some ctor => ctor.params
    | none => []
  { ids := factory.serviceIds
    fields := factory.serviceIds.filterMap fun id => (knownField directory outline id).map (id, ·)
    params := match factory.shape with
      | .newStatic _ arguments _ _ _ => paramsOfArguments arguments params
      | _ => [] }

/-- The service that a parameter receives, by its type. -/
def serviceOfParam (directory : Directory) (outline : Outline) (param : Param) : Option String := do
  let hint ← param.typeHint
  let name := outline.resolveTypeName (String.ofList (hint.toList.dropWhile (· == '?')))
  let row ← directory.findByInterface? name
  some row.serviceId

/-- The wiring of a class with a constructor and no factory, whose first `leading`
parameters are no services. -/
def ofConstructor (directory : Directory) (outline : Outline) (ctor : Constructor)
    (leading : Nat) : ExistingWiring :=
  let services := (ctor.params.drop leading).map fun param =>
    (serviceOfParam directory outline param, param)
  let known := services.filterMap fun (id, param) => id.map (·, param)
  { ids := known.map (·.1)
    fields := known.filterMap fun (id, param) =>
      (outline.fieldForParam? param.name).map (id, ·)
    params := known.map fun (id, param) => (id, param.name)
    paramServices := services.map (·.1) }

/-- The services that a class already receives. -/
def of (directory : Directory) (subject : Subject) : ExistingWiring :=
  match subject.outline.factory, subject.outline.constructor with
  | some factory, _ => ofFactory directory subject.outline factory
  | none, some ctor =>
    ofConstructor directory subject.outline ctor subject.conventions.leadingParams.length
  | none, none => {}

end ExistingWiring

end ServiceInjection
