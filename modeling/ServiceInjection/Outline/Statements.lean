import ServiceInjection.Source.Expressions

/-!
# Outline.Statements

The statements that wire services up: assigning a property from a parameter or
from the container, and returning the finished object.
-/

namespace ServiceInjection

open Text

/-- The service id of an argument that fetches a service and does nothing else. -/
def containerGetId (argument : String) : Option String :=
  match containerGet (trim argument.toList) with
  | some (fetch, []) => some (String.ofList fetch.serviceId)
  | _ => none

/-- Reads `$this->field = $param;` and gives the field and the parameter. -/
def fieldAssignment (cs : List Char) : Option ((List Char × List Char) × List Char) := do
  let cs ← literal "$this" cs
  let cs ← arrowTo cs
  let (field, cs) ← word cs
  let cs ← literal "=" (blanks cs)
  let (param, cs) ← variableExpr (blanks cs)
  let cs ← literal ";" (blanks cs)
  some ((field, param), cs)

/-- The property that a line assigns the parameter to. -/
def assignedField (line : String) (param : String) : Option String :=
  ((allMatches fieldAssignment line.toList).find? fun m => String.ofList m.value.2 == param).map
    fun m => String.ofList m.value.1

structure InstanceAssignment where
  owner : List Char
  field : List Char
  fetch : ContainerGet
  deriving DecidableEq, Repr

/-- Reads `$owner->field = $container->get('id')`. -/
def instanceAssignment (cs : List Char) : Option (InstanceAssignment × List Char) := do
  let (owner, cs) ← variableExpr cs
  let cs ← arrowTo cs
  let (field, cs) ← word cs
  let cs ← literal "=" (blanks cs)
  let (fetch, cs) ← containerGet (blanks cs)
  some (⟨owner, field, fetch⟩, cs)

/-- Reads `return new static(` or `return new self(`, and gives the keyword. -/
def returnNew (cs : List Char) : Option (String × List Char) := do
  let cs ← literal "return" cs
  let cs ← someBlanks cs
  let cs ← literal "new" cs
  let cs ← someBlanks cs
  let (keyword, cs) ← oneOf ["static", "self"] cs
  let cs ← literal "(" (blanks cs)
  some (keyword, cs)

/-- Reads `$name = parent::create(`. -/
def parentCreate (cs : List Char) : Option (List Char × List Char) := do
  let (name, cs) ← variableExpr cs
  let cs ← literal "=" (blanks cs)
  let cs ← literal "parent::create" (blanks cs)
  let cs ← literal "(" (blanks cs)
  some (name, cs)

/-- Reads `return $name;`. -/
def returnVariable (cs : List Char) : Option (List Char × List Char) := do
  let cs ← literal "return" cs
  let cs ← someBlanks cs
  let (name, cs) ← variableExpr cs
  let cs ← literal ";" (blanks cs)
  some (name, cs)

end ServiceInjection
