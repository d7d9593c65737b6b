import ServiceInjection.Service.Registry
import ServiceInjection.Text.Blank
import ServiceInjection.Yaml.Data

/-!
# Service.Declarations

The services that a `services.yml` file declares: the entries of its mapping under
`services`. The class of a service is under `class`; a service whose id is the name
of a class has that class. Ids that start with an underscore are no services.
-/

namespace ServiceInjection.Declarations

open Yaml (Node Data Document)

/-- The definition of a service under a key. -/
def definition? (key value : Data) : Option ServiceDefinition := do
  let id ← key.text?
  if id.toList.head? == some '_' then none
  else
    let declared := match value with
      | .mapping entries => (entries.lookup (Data.string "class")).bind (·.text?)
      | _ => none
    let implied := if id.toList.contains '\\' then some id else none
    some (ServiceDefinition.of id (declared.or implied))

/-- The definitions in the entries of a mapping. -/
def ofEntries (document : Document) (entries : List (Node × Node)) :
    Option (List ServiceDefinition) := do
  match ← document.data? (Yaml.maxDepth - 1) (.mapping none entries) with
  | .mapping entries => some (entries.filterMap fun (key, value) => definition? key value)
  | _ => none

/-- The definitions in the value of `services`, which may be null or empty. -/
def ofServices (document : Document) (node : Node) : Option (List ServiceDefinition) := do
  match ← document.resolve node with
  | .mapping _ entries => ofEntries document entries
  | .scalar tag style text =>
    let isNull := style == .plain &&
      (match tag with
        | none => Yaml.isNull text
        | some tag => tag == Yaml.basicTag "null" && Yaml.isNull text)
    let isEmpty := text.isEmpty && !(style == .plain && tag == some (Yaml.basicTag "null"))
    if isNull || isEmpty then some [] else none
  | _ => none

/-- The text of a key at the top of a file. -/
def keyText (document : Document) (node : Node) : Option String := do
  match ← document.resolve node with
  | .scalar _ _ text => some text
  | _ => none

/-- The definitions in the mapping at the top of a file. -/
def ofTop (document : Document) (entries : List (Node × Node)) :
    Option (List ServiceDefinition) := do
  let entries ← entries.mapM fun (key, value) => do some (← keyText document key, value)
  match entries.filter (·.1 == "services") with
  | [] => some []
  | [(_, services)] => ofServices document services
  | _ => none

/-- The definitions of a document. A sequence at the top stands for the values of
the keys that are known, which is one. -/
def ofDocument (document : Document) : Option (List ServiceDefinition) :=
  match document.root with
  | none => some []
  | some (.mapping _ entries) => ofTop document entries
  | some (.sequence _ []) => some []
  | some (.sequence _ [services]) => ofServices document services
  | some (.scalar _ _ text) => if text.isEmpty then some [] else none
  | some _ => none

/-- The services that a file declares, in the order of the file, or none if the
text is no such file. -/
def parse (text : String) : Option (List ServiceDefinition) := do
  if Text.isBlankLine text.toList then some []
  else ofDocument (← Document.ofTokens? (← Yaml.tokenize text))

end ServiceInjection.Declarations
