import ServiceInjection.Outline.Basic
import ServiceInjection.Outline.Statements

/-!
# Outline.Query

Questions about an outline: which names are imported, what a type name means, and
in which property a service is already stored.
-/

namespace ServiceInjection.Outline

/-! ### Imports and types -/

/-- Whether the class is imported, up to the case of ASCII letters. -/
def hasImport (outline : Outline) (name : String) : Bool :=
  outline.imports.any (Text.sameName ·.name (Text.unrooted name))

/-- The import that goes by the given name in the file. -/
def importOfLocalName? (outline : Outline) (name : String) : Option Import :=
  outline.imports.find? (·.localName == name)

/-- The last line of the imports. -/
def lastImportLine (outline : Outline) : Option Nat := (outline.imports.map (·.line)).max?

/-- The qualified name that a type name stands for: a rooted name as it is, else
the imported class its first segment names, else the name itself. -/
def resolveTypeName (outline : Outline) (name : String) : String :=
  match name.toList with
  | '\\' :: rest => String.ofList rest
  | cs =>
    match outline.importOfLocalName? (String.ofList (cs.takeWhile (· != '\\'))) with
    | some entry => entry.name ++ String.ofList (cs.dropWhile (· != '\\'))
    | none => name

/-! ### Members -/

def field? (outline : Outline) (name : String) : Option Field :=
  outline.fields.find? (·.name == name)

/-- Whether a line lies strictly between the braces of the class. -/
def bodyContains (outline : Outline) (line : Nat) : Bool :=
  outline.decl.openBraceLine < line && line < outline.decl.closeBraceLine

/-- The static method that a line belongs to. -/
def staticMethodAt? (outline : Outline) (line : Nat) : Option Method :=
  outline.methods.find? fun method => method.isStatic && method.span.contains line

/-! ### Wiring -/

/-- The property in which the constructor stores a parameter: the promoted one, or
the one that the body assigns it to. -/
def fieldForParam? (outline : Outline) (name : String) : Option String := do
  let ctor ← outline.constructor
  let param ← ctor.param? name
  if param.promoted then some param.name else ctor.body.findSome? (assignedField · name)

/-- The property in which the factory stores a service: the one it assigns, or the
one of the constructor parameter at the place of the argument. -/
def fieldForService? (outline : Outline) (serviceId : String) : Option String := do
  let factory ← outline.factory
  match factory.shape with
  | .instanceAssign _ assignments _ =>
    (assignments.find? (·.serviceId == serviceId)).map (·.field)
  | .newStatic _ arguments _ _ _ =>
    let index ← arguments.findIdx? (containerGetId · == some serviceId)
    let ctor ← outline.constructor
    let param ← ctor.params[index]?
    outline.fieldForParam? param.name
  | .unrecognized => none

end ServiceInjection.Outline
