import ServiceInjection.Edit.Action
import ServiceInjection.Json.Basic

/-!
# Edit.Encode

Edits and actions as JSON, for the command line and for editors.
-/

namespace ServiceInjection

def Position.toJson (position : Position) : Json :=
  .object [("line", .nat position.line), ("character", .nat position.column)]

def Range.toJson (range : Range) : Json :=
  .object [("start", range.start.toJson), ("end", range.stop.toJson)]

def Edit.toJson (edit : Edit) : Json :=
  .object [("description", .string edit.description), ("range", edit.range.toJson),
    ("new_text", .string edit.text)]

/-- The edits of a batch in the order of application. -/
def Batch.toJson (batch : Batch) : Json := .array (batch.edits.map (·.toJson))

def CodeAction.toJson (action : CodeAction) : Json :=
  let edits := action.edits.map fun edit =>
    Json.object [("range", edit.range.toJson), ("newText", .string edit.text)]
  .object [("title", .string action.title), ("kind", .string action.kind),
    ("edit", .object [("changes", .object [(action.uri, .array edits)])])]

end ServiceInjection
