import ServiceInjection.Edit.Encode
import ServiceInjection.Server.Method
import ServiceInjection.Settings.Load
import ServiceInjection.Workspace.Scan

/-!
# Server.Session

The language server as a state that messages change. It answers calls only between
`initialize` and `shutdown`, keeps the texts of the open documents, and offers the
code action that injects services.
-/

namespace ServiceInjection

open Server

/-- How far a session has come. -/
inductive Phase where
  | fresh
  | running
  | shutDown
  | exited
  deriving DecidableEq, Repr

/-- The state of a server. -/
structure Session where
  /-- Whether there is an editor that notes can be sent to. -/
  hasClient : Bool
  phase : Phase := .fresh
  documents : List (String × String) := []
  root : Option String := none
  settings : Settings := {}
  /-- The directory that the settings give. -/
  directory : Directory := .builtin
  registry : Registry := {}
  /-- The additional parents that classes are classified by. -/
  parents : RoleMapping := []

namespace Session

/-! ### Documents and settings -/

def document? (session : Session) (uri : Uri) : Option String :=
  session.documents.lookup uri.text

def setDocument (session : Session) (uri : Uri) (text : String) : Session :=
  let others := session.documents.filter (·.1 != uri.text)
  { session with documents := (uri.text, text) :: others }

def closeDocument (session : Session) (uri : Uri) : Session :=
  { session with documents := session.documents.filter (·.1 != uri.text) }

/-- Takes over settings, with the directory and the parents that follow from
them. -/
def configure (session : Session) (settings : Settings) : Session :=
  { session with settings, directory := settings.directory, parents := settings.baseClassRoles }

/-- Takes over the root of the workspace, if the editor names one. -/
def enter (session : Session) (rootUri : Option Uri) : Session :=
  { session with root := (rootUri.bind (·.filePath?)).or session.root }

/-- Loads the settings, and the services of the workspace if there is one; gives
back how many services it has. -/
def loadWorkspace {m : Type → Type} [Monad m] (files : Files m) (session : Session) :
    m (Nat × Session) := do
  let session := session.configure (← Settings.load files session.root)
  match session.root with
  | none => return (0, session)
  | some root =>
    let tree ← files.tree root
    let registry := ((tree.map (ServiceIndex.scan root)).getD {}).registry
    return (registry.size, { session with registry })

/-- What the session knows about services. -/
def knowledge (session : Session) : Knowledge :=
  { directory := session.directory
    registry := some session.registry
    options := session.settings.options }

/-- The edits for the class around a line of a document; none if the document is
not open or nothing can be injected. -/
def refactorDocument (session : Session) (uri : Uri) (line : Nat) : Batch :=
  match session.document? uri with
  | none => {}
  | some text =>
    match Hierarchy.at? session.parents (Source.ofText text) line with
    | none => {}
    | some hierarchy =>
      refactorOrEmpty session.knowledge (.ofHierarchy text (some line) hierarchy)

/-! ### Operations -/

/-- What a message brings about. -/
structure Effect where
  session : Session
  reply : Reply := .nothing
  notes : List Note := []

/-- A note to the user, if there is an editor. -/
def noted (session : Session) (kind : NoteKind) (message : String) : List Note :=
  if session.hasClient then [⟨kind, message⟩] else []

def initializeResult : Json :=
  .object [
    ("capabilities", .object [
      ("textDocumentSync", .nat 1),
      ("codeActionProvider", .object [
        ("codeActionKinds", .texts [CodeAction.injectKind]),
        ("resolveProvider", .bool false)])]),
    ("serverInfo", .object [
      ("name", .string "drupal-di-lsp"),
      ("version", .string "0.1.0")])]

/-- The note at the start of a session. -/
def greeting (session : Session) (services : Nat) : String :=
  if session.root.isSome then
    "drupal-di-lsp initialized! Indexed " ++ toString services ++ " service(s), " ++
      toString session.directory.size ++ " directory entries"
  else "drupal-di-lsp initialized!"

def offerAction (session : Session) (params : ActionParams) : Effect :=
  if CodeAction.isRequested params.only then
    let batch := session.refactorDocument params.uri params.range.start.line
    match CodeAction.ofBatch? params.uri.text batch with
    | some action =>
      let message :=
        "Offering " ++ toString batch.size ++ " edit(s) for " ++ params.uri.text
      { session
        reply := .result (.array [action.toJson])
        notes := session.noted .info message }
    | none => { session, reply := .result .null }
  else { session, reply := .result .null }

/-- What a call can ask of the server. -/
inductive Operation where
  /-- Enters the workspace that the editor names. -/
  | enter (rootUri : Option Uri)
  /-- Loads the workspace. -/
  | load
  | didOpen (uri : Uri) (text : String)
  | didChange (uri : Uri) (texts : List String)
  | didClose (uri : Uri)
  | codeAction (params : ActionParams)

def perform {m : Type → Type} [Monad m] (files : Files m) (session : Session) :
    Operation → m Effect
  | .enter rootUri =>
    return { session := session.enter rootUri, reply := .result initializeResult }
  | .load => do
    let (services, session) ← session.loadWorkspace files
    return { session, notes := session.noted .info (session.greeting services) }
  | .didOpen uri text =>
    return {
      session := session.setDocument uri text
      notes := session.noted .log ("Opened file: " ++ uri.text) }
  | .didChange uri texts =>
    return {
      session := match texts.getLast? with
        | some text => session.setDocument uri text
        | none => session }
  | .didClose uri =>
    return {
      session := session.closeDocument uri
      notes := session.noted .log ("Closed file: " ++ uri.text) }
  | .codeAction params => return session.offerAction params

/-! ### Calls -/

/-- What becomes of a call: an operation that is carried out in a phase, or an
effect without any. -/
inductive Verdict where
  | carryOut (phase : Phase) (operation : Operation)
  | settled (effect : Effect)

/-- The refusal of a call; without an id nobody hears of it. -/
def refuse (session : Session) (call : Call) (reason : CallError) : Effect :=
  { session, reply := if call.hasId then .error reason else .nothing }

/-- The refusal of a call outside of the time in which the server answers. -/
def refuseInPhase (session : Session) (call : Call) : Effect :=
  session.refuse call (if session.phase == .fresh then .notInitialized else .invalidRequest)

def start (session : Session) (call : Call) : Verdict :=
  if session.phase != .fresh then .settled (session.refuse call .invalidRequest)
  else if !call.hasId then .settled { session }
  else
    match call.params.bind initializeParams? with
    | none => .settled (session.refuse call .invalidParams)
    | some rootUri => .carryOut .running (.enter rootUri)

def shutdown (session : Session) (call : Call) : Effect :=
  if session.phase != .running then session.refuseInPhase call
  else
    let session := { session with phase := .shutDown }
    if call.params.isSome then session.refuse call .invalidParams
    else { session, reply := if call.hasId then .result .null else .nothing }

/-- Judges a call that waits for a reply. -/
def request (session : Session) (call : Call) (run : Json → Option Verdict) : Verdict :=
  if session.phase != .running then .settled (session.refuseInPhase call)
  else if !call.hasId then .settled { session }
  else (call.params.bind run).getD (.settled (session.refuse call .invalidParams))

/-- Judges a call that does not wait for a reply. -/
def notification (session : Session) (call : Call) (run : Json → Option Operation) : Verdict :=
  if session.phase != .running then .settled (session.refuseInPhase call)
  else if call.hasId then .settled (session.refuse call .invalidRequest)
  else
    match call.params.bind run with
    | some operation => .carryOut .running operation
    | none => .settled { session }

def judge (session : Session) (call : Call) : Verdict :=
  match Method.ofName call.method with
  | .start => session.start call
  | .shutdown => .settled (session.shutdown call)
  | .exit => .settled { session := { session with phase := .exited } }
  | .initialized => session.notification call fun json =>
    if json.isObject then some .load else none
  | .didOpen => session.notification call fun json =>
    (didOpenParams? json).map fun (uri, text) => .didOpen uri text
  | .didChange => session.notification call fun json =>
    (didChangeParams? json).map fun (uri, texts) => .didChange uri texts
  | .didClose => session.notification call fun json => (documentUri? json).map .didClose
  | .codeAction => session.request call fun json =>
    (actionParams? json).map fun params => .carryOut .running (.codeAction params)
  | .otherRequest accepts => session.request call fun json =>
    if accepts json then some (.settled (session.refuse call .methodNotFound)) else none
  | .cancel =>
    .settled (if call.hasId then session.refuse call .invalidRequest else { session })
  | .otherNotification => session.notification call fun _ => none
  | .unknown =>
    if ['$', '/'].isPrefixOf call.method.toList then .settled { session }
    else .settled (session.refuse call .methodNotFound)

def handleCall {m : Type → Type} [Monad m] (files : Files m) (session : Session) (call : Call) :
    m Effect :=
  match session.judge call with
  | .carryOut phase operation => { session with phase }.perform files operation
  | .settled effect => return effect

/-- Handles a message; there is no effect if it is no call. -/
def handle {m : Type → Type} [Monad m] (files : Files m) (session : Session) (message : Json) :
    m (Option Effect) :=
  match Call.ofJson message with
  | none => return none
  | some call =>
    if session.phase == .exited then return some { session, reply := .exited }
    else do return some (← session.handleCall files call)

end Session

end ServiceInjection
