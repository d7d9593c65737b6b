import ServiceInjection.Edit.Basic
import ServiceInjection.Json.Basic
import ServiceInjection.Server.Uri

/-!
# Server.Message

The messages between an editor and the language server. A call has an id if the
editor waits for a reply; its parameters are decoded for the methods that the
server carries out.
-/

namespace ServiceInjection.Server

structure Call where
  method : String
  params : Option Json
  /-- Whether the editor waits for a reply. -/
  hasId : Bool
  deriving Repr

/-- Whether a value may identify a call. -/
def isId : Json → Bool
  | .integer n => -(Nat.pow 2 63 : Int) ≤ n && n < (Nat.pow 2 63 : Int)
  | .string _ => true
  | .null => true
  | _ => false

/-- The call that a message stands for. -/
def Call.ofJson (json : Json) : Option Call := do
  guard (json.isObject && (← json.field? Json.text? "jsonrpc") == "2.0")
  let method ← match json.get? "method" with
    | some method => method.text?
    | none => some ""
  let id := json.get? "id"
  guard (id.all isId)
  some ⟨method, json.get? "params", id.isSome⟩

inductive CallError where
  | invalidRequest
  | methodNotFound
  | invalidParams
  | notInitialized
  deriving DecidableEq, Repr

def CallError.code : CallError → Int
  | .invalidRequest => -32600
  | .methodNotFound => -32601
  | .invalidParams => -32602
  | .notInitialized => -32002

/-- What the server answers. -/
inductive Reply where
  /-- Nothing: the editor does not wait, or is not told. -/
  | nothing
  | result (json : Json)
  | error (reason : CallError)
  /-- The server has stopped. -/
  | exited
  deriving Repr

inductive NoteKind where
  | info
  | log
  deriving DecidableEq, Repr

structure Note where
  kind : NoteKind
  message : String
  deriving DecidableEq, Repr

namespace Note

def method : String := "window/logMessage"

/-- The parameters of that message. -/
def params (note : Note) : Json :=
  let code := match note.kind with
    | .info => 3
    | .log => 4
  .object [("type", .nat code), ("message", .string note.message)]

end Note

/-! ### Parameters -/

def uri? (json : Json) : Option Uri := do Uri.parse (← json.text?)

def position? (json : Json) : Option Position := do
  some ⟨← json.field? Json.nat32? "line", ← json.field? Json.nat32? "character"⟩

def range? (json : Json) : Option Range := do
  some ⟨← json.field? position? "start", ← json.field? position? "end"⟩

/-- The address of the document that parameters name. -/
def documentUri? (json : Json) : Option Uri := json.field? (Json.field? uri? "uri") "textDocument"

/-- The directory that the editor works in, if it names one; there is no value if
the parameters do not fit. -/
def initializeParams? (json : Json) : Option (Option Uri) := do
  guard ((← json.get? "capabilities").isObject)
  let _ ← json.optional? Json.nat32? "processId"
  let _ ← json.optional? Json.text? "rootPath"
  let _ ← json.optional? Json.text? "locale"
  let _ ← json.optional? (fun client => do
    let _ ← client.field? Json.text? "name"
    client.optional? Json.text? "version") "clientInfo"
  let _ ← json.optional? (Json.list? fun folder => do
    let _ ← folder.field? Json.text? "name"
    folder.field? uri? "uri") "workspaceFolders"
  let trace ← json.optional? Json.text? "trace"
  guard (trace.all (["off", "messages", "verbose"].contains ·))
  json.optional? uri? "rootUri"

def didOpenParams? (json : Json) : Option (Uri × String) := do
  let document ← json.get? "textDocument"
  let _ ← document.field? Json.text? "languageId"
  let _ ← document.field? Json.int32? "version"
  some (← document.field? uri? "uri", ← document.field? Json.text? "text")

def change? (json : Json) : Option String := do
  let _ ← json.optional? range? "range"
  let _ ← json.optional? Json.nat32? "rangeLength"
  json.field? Json.text? "text"

/-- A document and the texts that it takes one after the other. -/
def didChangeParams? (json : Json) : Option (Uri × List String) := do
  let document ← json.get? "textDocument"
  let _ ← document.field? Json.int32? "version"
  some (← document.field? uri? "uri", ← json.field? (Json.list? change?) "contentChanges")

structure ActionParams where
  uri : Uri
  range : Range
  /-- The kinds of actions that are wanted; without them, all. -/
  only : Option (List String)
  deriving Repr

def numberOrText? (json : Json) : Option Unit :=
  if (json.int32?).isSome || (json.text?).isSome then some () else none

/-- A message about another place that belongs to a diagnostic. -/
def relatedMessage? (json : Json) : Option Unit := do
  let location ← json.get? "location"
  let _ ← location.field? uri? "uri"
  let _ ← location.field? range? "range"
  let _ ← json.field? Json.text? "message"
  some ()

/-- A message about a place in a document. -/
def diagnostic? (json : Json) : Option Unit := do
  let _ ← json.field? range? "range"
  let _ ← json.field? Json.text? "message"
  let _ ← json.optional? Json.int32? "severity"
  let _ ← json.optional? numberOrText? "code"
  let _ ← json.optional? (Json.field? uri? "href") "codeDescription"
  let _ ← json.optional? Json.text? "source"
  let _ ← json.optional? (Json.list? relatedMessage?) "relatedInformation"
  let _ ← json.optional? (Json.list? Json.int32?) "tags"
  some ()

def actionParams? (json : Json) : Option ActionParams := do
  let context ← json.get? "context"
  let _ ← context.field? (Json.list? diagnostic?) "diagnostics"
  let _ ← context.optional? Json.int32? "triggerKind"
  let _ ← json.optional? numberOrText? "workDoneToken"
  let _ ← json.optional? numberOrText? "partialResultToken"
  some {
    uri := ← documentUri? json
    range := ← json.field? range? "range"
    only := ← context.optional? (Json.list? Json.text?) "only" }

end ServiceInjection.Server
