import ServiceInjection.Text.Recognize

/-!
# Source.Expressions

The expressions that fetch a service by its id: variables, method calls with one
quoted argument, and `get` on a variable.
-/

namespace ServiceInjection

open Text

/-- Reads `$name`. -/
def variableExpr (cs : List Char) : Option (List Char × List Char) := do
  let cs ← literal "$" cs
  word cs

/-- Reads `->member` with blanks around the arrow. -/
def arrowTo (cs : List Char) : Option (List Char) := (literal "->" (blanks cs)).map blanks

/-- Reads `('id')` behind the name of a method, and gives the id as quoted. -/
def quotedCall (cs : List Char) : Option (List Char × List Char) := do
  let cs ← literal "(" cs
  let (id, cs) ← quoted (blanks cs)
  let cs ← literal ")" (blanks cs)
  some (id, cs)

structure ContainerGet where
  container : List Char
  serviceId : List Char
  deriving DecidableEq, Repr

/-- Reads `$container->get('id')`. -/
def containerGet (cs : List Char) : Option (ContainerGet × List Char) := do
  let (container, cs) ← variableExpr cs
  let cs ← arrowTo cs
  let cs ← literal "get" cs
  let (id, cs) ← quotedCall cs
  some (⟨container, id⟩, cs)

end ServiceInjection
