/-!
# Wiring.Binding

A service that is to be injected: the property that will hold it, the constructor
parameter that brings it in, and how both are declared.
-/

namespace ServiceInjection

/-- A service to inject. -/
structure Binding where
  serviceId : String
  field : String
  /-- The constructor parameter that brings it in. -/
  param : String
  typeHint : Option String
  /-- The type as doc comments spell it. -/
  docType : String
  description : String
  /-- The class to import for the type. -/
  importName : Option String := none
  /-- Whether the parameter declares the property. -/
  promoted : Bool
  readonly : Bool
  deriving DecidableEq, Repr

namespace Binding

def declaration (binding : Binding) : String :=
  let hint := match binding.typeHint with
    | some hint => hint ++ " "
    | none => ""
  let modifiers :=
    if binding.promoted then (if binding.readonly then "protected readonly " else "protected ")
    else ""
  modifiers ++ hint ++ "$" ++ binding.param

/-- The statement that stores the parameter in the property. -/
def assignment (binding : Binding) (indent : String) : String :=
  indent ++ "$this->" ++ binding.field ++ " = $" ++ binding.param ++ ";"

end Binding

/-- The expression that fetches a service from a variable that holds the
container. -/
def fetchExpression (containerVar serviceId : String) : String :=
  "$" ++ containerVar ++ "->get('" ++ serviceId ++ "')"

end ServiceInjection
