import ServiceInjection.Edit.Batch

/-!
# Edit.Action

The code action that offers a batch to an editor.
-/

namespace ServiceInjection

/-- An action on one document: its title, its kind and its edits in text order. -/
structure CodeAction where
  title : String
  kind : String
  uri : String
  edits : List Edit
  deriving DecidableEq, Repr

namespace CodeAction

def injectTitle : String := "Inject services through the constructor"

def injectKind : String := "refactor.rewrite"

/-- The action for a batch; there is none for an empty one. -/
def ofBatch? (uri : String) (batch : Batch) : Option CodeAction :=
  if batch.isEmpty then none else some ⟨injectTitle, injectKind, uri, batch.inTextOrder⟩

/-- Whether a client that asks for certain kinds only wants the action: for its
kind, or for one above it. -/
def isRequested (only : Option (List String)) : Bool :=
  match only with
  | none => true
  | some kinds => kinds.any fun kind =>
    injectKind == kind || (kind ++ ".").toList.isPrefixOf injectKind.toList

end CodeAction

end ServiceInjection
