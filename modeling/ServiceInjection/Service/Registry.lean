import ServiceInjection.Text.Names

/-!
# Service.Registry

The services that exist without a known interface, and the classes behind them.
-/

namespace ServiceInjection

/-- A service that is declared somewhere, and its class if that is known. -/
structure ServiceDefinition where
  id : String
  className : Option String
  deriving DecidableEq, Repr

/-- The definition of a service; backslashes in front of the class are dropped. -/
def ServiceDefinition.of (id : String) (className : Option String) : ServiceDefinition :=
  ⟨id, className.map Text.unrooted⟩

/-- Declared services with at most one definition for an id. -/
structure Registry where
  definitions : List ServiceDefinition := []
  deriving Repr

namespace Registry

/-- Replaces the definition with the same id, or adds the definition at the end. -/
def put (definition : ServiceDefinition) : List ServiceDefinition → List ServiceDefinition
  | [] => [definition]
  | other :: rest =>
    if other.id == definition.id then definition :: rest else other :: put definition rest

def insert (registry : Registry) (definition : ServiceDefinition) : Registry :=
  ⟨put definition registry.definitions⟩

def lookup? (registry : Registry) (id : String) : Option ServiceDefinition :=
  registry.definitions.find? (·.id == id)

def contains (registry : Registry) (id : String) : Bool := (registry.lookup? id).isSome

def size (registry : Registry) : Nat := registry.definitions.length

end Registry

end ServiceInjection
