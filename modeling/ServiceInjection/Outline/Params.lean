import ServiceInjection.Outline.Basic
import ServiceInjection.Text.Recognize

/-!
# Outline.Params

Variable declarations: modifiers, an optional type and a name. Parameters and
properties share the form and differ in the modifiers they take. Modifiers are
read greedily, but one of them is taken as the type after all if the rest cannot
be read otherwise.
-/

namespace ServiceInjection

open Text

/-- A declared variable: the text of its modifiers, its type and its name. -/
structure VariableDecl where
  modifiers : List Char
  typeHint : Option (List Char)
  name : List Char
  deriving DecidableEq, Repr

/-- Skips attributes, `#[…]`, with the blanks behind them. -/
def skipAttributes (cs : List Char) : List Char :=
  match (literal "#[" cs).bind (upTo ']') with
  | none => cs
  | some (_, rest) =>
    let rest := blanks rest
    if rest.length < cs.length then skipAttributes rest else cs
termination_by cs.length

/-- Reads a modifier, an optional clause in parentheses, and blanks. -/
def modifier (words : List String) (cs : List Char) : Option (List Char) := do
  let (_, rest) ← oneOf words cs
  let rest := ((literal "(" rest).bind (upTo ')')).elim rest (·.2)
  someBlanks rest

/-- Whether `c` may stand in a type. -/
def isTypeChar (c : Char) : Bool := isNameChar c || "|&()".toList.contains c

/-- Reads a type and the blanks behind it. -/
def typeHint (cs : List Char) : Option (List Char × List Char) := do
  let (hint, rest) ← run isTypeChar (skipChar '?' cs)
  let rest ← someBlanks rest
  some (if cs.head? == some '?' then '?' :: hint else hint, rest)

/-- Reads a type, if there is one, and then `$name`. Marks of a parameter passed by
reference or of a list of parameters may stand in front of the name. -/
def typedName (marks : Bool) (modifiers cs : List Char) : Option (VariableDecl × List Char) :=
  let named := fun (hint : Option (List Char)) (cs : List Char) => do
    let cs := if marks then skipChar '&' cs else cs
    let cs := if marks then (literal "..." cs).getD cs else cs
    let cs ← literal "$" cs
    let (name, rest) ← word cs
    some ((⟨modifiers, hint, name⟩ : VariableDecl), rest)
  ((typeHint cs).bind fun hit => named (some hit.1) hit.2).or (named none cs)

/-- Reads modifiers and a typed name; `front` holds the text of the modifiers read
so far. -/
def declarationAfter (words : List String) (marks : Bool) (front cs : List Char) :
    Option (VariableDecl × List Char) :=
  match modifier words cs with
  | none => typedName marks front cs
  | some rest =>
    if rest.length < cs.length then
      let front' := front ++ cs.take (cs.length - rest.length)
      (declarationAfter words marks front' rest).or (typedName marks front cs)
    else typedName marks front cs
termination_by cs.length

def paramModifiers : List String := ["public", "protected", "private", "readonly"]

def propertyModifiers : List String :=
  ["public", "protected", "private", "var", "static", "readonly"]

def paramDecl (code : List Char) : Option VariableDecl :=
  (declarationAfter paramModifiers true [] (skipAttributes code)).map (·.1)

/-- Reads the declaration of a property on a line of code: at least one modifier is
needed. -/
def propertyDecl (code : List Char) : Option VariableDecl := do
  let cs := skipAttributes (blanks code)
  let rest ← modifier propertyModifiers cs
  let front := cs.take (cs.length - rest.length)
  (declarationAfter propertyModifiers false front rest).map (·.1)

/-- The parameter that an entry of a parameter list declares. A parameter with a
visibility is promoted to a property. -/
def Param.of? (text masked : List Char) : Option Param := do
  let decl ← paramDecl masked
  some {
    name := String.ofList decl.name
    typeHint := decl.typeHint.map String.ofList
    promoted := ["public", "protected", "private"].any (containsText · decl.modifiers)
    text := String.ofList text }

end ServiceInjection
