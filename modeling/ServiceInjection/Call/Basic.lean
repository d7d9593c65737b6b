/-!
# Call.Basic

A place in the source that fetches a service through the global accessor instead
of having it injected, and the services that a list of such calls asks for.
-/

namespace ServiceInjection

/-- How a call fetches its service. -/
inductive CallShape where
  /-- `\Drupal::service('renderer')`. -/
  | directLocator
  /-- `\Drupal::getContainer()->get('renderer')`, or `get` on a variable that
  holds the container. -/
  | containerIndirect
  /-- `\Drupal::state()` and the like. -/
  | namedShortcut
  deriving DecidableEq, Repr

def CallShape.name : CallShape → String
  | .directLocator => "direct-locator"
  | .containerIndirect => "container-indirect"
  | .namedShortcut => "named-shortcut"

/-- A call on the fetched service that belongs to the fetching expression. -/
structure Accessor where
  method : String
  arguments : String
  deriving DecidableEq, Repr

/-- A static call that fetches a service. Columns count UTF-16 units; the call
stands on one line. -/
structure StaticCall where
  serviceId : String
  line : Nat
  startColumn : Nat
  endColumn : Nat
  text : String
  shape : CallShape
  accessor : Option Accessor
  deriving DecidableEq, Repr

namespace StaticCall

/-- The ids that calls ask for, each once, in order of first occurrence. -/
def serviceIds (calls : List StaticCall) : List String :=
  calls.foldl
    (fun ids call => if ids.contains call.serviceId then ids else ids ++ [call.serviceId]) []

/-- The calls of each service, services in order of first occurrence and calls in
their order. -/
def groupByService (calls : List StaticCall) : List (String × List StaticCall) :=
  (serviceIds calls).map fun id => (id, calls.filter (·.serviceId == id))

end StaticCall

end ServiceInjection
