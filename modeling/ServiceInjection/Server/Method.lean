import ServiceInjection.Server.Message

/-!
# Server.Method

The methods of the protocol. The server carries out a few of them; of the others it
knows which ones wait for a reply and what parameters they take, since a call with
parameters that do not fit is refused as such.
-/

namespace ServiceInjection.Server

/-- A method by what the server does with it. -/
inductive Method where
  | start
  | initialized
  | shutdown
  | exit
  | didOpen
  | didChange
  | didClose
  | codeAction
  | cancel
  /-- A method with a reply that the server does not carry out, and what it
  requires of its parameters. -/
  | otherRequest (accepts : Json → Bool)
  /-- A method without a reply that the server does not carry out. -/
  | otherNotification
  | unknown

/-- Something that parameters have to hold. -/
inductive Part where
  | document
  | position
  | range
  | text (name : String)
  | number (name : String)
  | flag (name : String)
  | list (name : String)
  | object (name : String)
  /-- The options of a formatter. -/
  | formatting

namespace Part

/-- Whether parameters hold a part. -/
def isIn (json : Json) : Part → Bool
  | .document => (documentUri? json).isSome
  | .position => (json.field? position? "position").isSome
  | .range => (json.field? range? "range").isSome
  | .text name => (json.field? Json.text? name).isSome
  | .number name => (json.field? Json.int32? name).isSome
  | .flag name =>
    match json.get? name with
    | some (.bool _) => true
    | _ => false
  | .list name => (json.field? (Json.list? some) name).isSome
  | .object name => (json.get? name).any Json.isObject
  | .formatting =>
    match json.get? "options" with
    | some options => (options.field? Json.nat32? "tabSize").isSome &&
        (match options.get? "insertSpaces" with
          | some (.bool _) => true
          | _ => false)
    | none => false

end Part

/-- The methods with a reply that the server does not carry out, and the parts of
their parameters. -/
def otherRequests : List (String × List Part) :=
  [ ("textDocument/willSaveWaitUntil", [.document, .number "reason"]),
    ("textDocument/declaration", [.document, .position]),
    ("textDocument/definition", [.document, .position]),
    ("textDocument/typeDefinition", [.document, .position]),
    ("textDocument/implementation", [.document, .position]),
    ("textDocument/references", [.document, .position, .object "context"]),
    ("textDocument/prepareCallHierarchy", [.document, .position]),
    ("callHierarchy/incomingCalls", [.object "item"]),
    ("callHierarchy/outgoingCalls", [.object "item"]),
    ("textDocument/prepareTypeHierarchy", [.document, .position]),
    ("typeHierarchy/supertypes", [.object "item"]),
    ("typeHierarchy/subtypes", [.object "item"]),
    ("textDocument/documentHighlight", [.document, .position]),
    ("textDocument/documentLink", [.document]),
    ("documentLink/resolve", [.range]),
    ("textDocument/hover", [.document, .position]),
    ("textDocument/codeLens", [.document]),
    ("codeLens/resolve", [.range]),
    ("textDocument/foldingRange", [.document]),
    ("textDocument/selectionRange", [.document, .list "positions"]),
    ("textDocument/documentSymbol", [.document]),
    ("textDocument/semanticTokens/full", [.document]),
    ("textDocument/semanticTokens/full/delta", [.document, .text "previousResultId"]),
    ("textDocument/semanticTokens/range", [.document, .range]),
    ("textDocument/inlineValue", [.document, .range, .object "context"]),
    ("textDocument/inlayHint", [.document, .range]),
    ("inlayHint/resolve", [.position]),
    ("textDocument/moniker", [.document, .position]),
    ("textDocument/completion", [.document, .position]),
    ("completionItem/resolve", [.text "label"]),
    ("textDocument/diagnostic", [.document]),
    ("workspace/diagnostic", [.list "previousResultIds"]),
    ("textDocument/signatureHelp", [.document, .position]),
    ("codeAction/resolve", [.text "title"]),
    ("textDocument/documentColor", [.document]),
    ("textDocument/colorPresentation", [.document, .range, .object "color"]),
    ("textDocument/formatting", [.document, .formatting]),
    ("textDocument/rangeFormatting", [.document, .range, .formatting]),
    ("textDocument/onTypeFormatting", [.document, .position, .text "ch", .formatting]),
    ("textDocument/rename", [.document, .position, .text "newName"]),
    ("textDocument/prepareRename", [.document, .position]),
    ("textDocument/linkedEditingRange", [.document, .position]),
    ("workspace/symbol", [.text "query"]),
    ("workspaceSymbol/resolve", [.text "name"]),
    ("workspace/willCreateFiles", [.list "files"]),
    ("workspace/willRenameFiles", [.list "files"]),
    ("workspace/willDeleteFiles", [.list "files"]),
    ("workspace/executeCommand", [.text "command"]) ]

/-- The methods without a reply that the server does not carry out. -/
def otherNotifications : List String :=
  [ "notebookDocument/didOpen", "notebookDocument/didChange", "notebookDocument/didSave",
    "notebookDocument/didClose", "textDocument/willSave", "textDocument/didSave",
    "workspace/didChangeConfiguration", "workspace/didChangeWorkspaceFolders",
    "workspace/didCreateFiles", "workspace/didRenameFiles", "workspace/didDeleteFiles",
    "workspace/didChangeWatchedFiles" ]

/-- The method with a name. -/
def Method.ofName (name : String) : Method :=
  match name with
  | "initialize" => .start
  | "initialized" => .initialized
  | "shutdown" => .shutdown
  | "exit" => .exit
  | "textDocument/didOpen" => .didOpen
  | "textDocument/didChange" => .didChange
  | "textDocument/didClose" => .didClose
  | "textDocument/codeAction" => .codeAction
  | "$/cancelRequest" => .cancel
  | _ =>
    match otherRequests.lookup name with
    | some parts => .otherRequest fun json => json.isObject && parts.all (·.isIn json)
    | none => if otherNotifications.contains name then .otherNotification else .unknown

end ServiceInjection.Server
