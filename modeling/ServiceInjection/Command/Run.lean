import ServiceInjection.Command.Arguments
import ServiceInjection.Edit.Encode
import ServiceInjection.Json.Render
import ServiceInjection.Settings.Load
import ServiceInjection.Workspace.Scan

/-!
# Command.Run

The `refactor` command: it prints the edits for a class of a file, or carries them
out.
-/

namespace ServiceInjection

/-- What a command leaves behind, besides files. -/
structure Outcome where
  exitCode : Nat := 0
  output : String := ""
  errors : String := ""
  deriving DecidableEq, Repr

namespace Command

def failed (message : String) : Outcome :=
  { exitCode := 1, errors := "error: " ++ message ++ "\n" }

/-- A line of the class that is meant, counted from zero. -/
def classLine (options : RefactorOptions) (source : String) : Except String Nat :=
  match options.line with
  | some 0 => .error "--line is one-based"
  | some (line + 1) => .ok line
  | none =>
    match Outline.first? (Source.ofText source) with
    | some outline => .ok outline.decl.line
    | none => .error ("no class found in " ++ options.file)

/-- The request that the options make of a text. -/
def request (options : RefactorOptions) (settings : Settings) (source : String) :
    Except String Request := do
  let line ← classLine options source
  let hierarchy := Hierarchy.at? settings.baseClassRoles (Source.ofText source) line
  match options.role.or (hierarchy.map (·.role)) with
  | none => .error ("no class at line " ++ toString (line + 1) ++ " of " ++ options.file)
  | some role =>
    .ok {
      text := source
      role
      services := options.services
      cursorLine := some line
      knownInterfaces := match hierarchy with
        | some hierarchy => hierarchy.interfaces
        | none => [] }

/-- Prints a batch, or writes the file with the batch applied. -/
def finish {m : Type → Type} [Monad m] (files : Files m) (options : RefactorOptions)
    (source : String) (batch : Batch) (notes : String) : m Outcome := do
  if !options.write then
    return { output := batch.toJson.pretty ++ "\n", errors := notes }
  else if batch.isEmpty then return { errors := notes }
  else
    match ← files.write options.file (batch.apply source) with
    | .error problem =>
      let failure := failed ("failed to write " ++ options.file ++ ": " ++ problem.message)
      return { failure with errors := notes ++ failure.errors }
    | .ok _ =>
      let note := "applied " ++ toString batch.size ++ " edit(s) to " ++ options.file ++ "\n"
      return { errors := notes ++ note }

def refactor {m : Type → Type} [Monad m] (files : Files m) (options : RefactorOptions) :
    m Outcome := do
  match ← files.read options.file with
  | .error problem =>
    return failed ("failed to read " ++ options.file ++ ": " ++ problem.message)
  | .ok source =>
    let settings ← Settings.load files options.workspace
    let registry ← match options.workspace with
      | some root => do
        let tree ← files.tree root
        let index := tree.map (ServiceIndex.scan root)
        pure (some (index.getD {}).registry)
      | none => pure none
    match request options settings source with
    | .error message => return failed message
    | .ok request =>
      let knowledge := { directory := settings.directory, registry, options := settings.options }
      match ServiceInjection.refactor knowledge request with
      | .ok batch => finish files options source batch ""
      | .error reason =>
        finish files options source {} ("nothing to do: " ++ reason.message ++ "\n")

def versionText : String := "drupal-di-lsp 0.1.0\n"

/-- What the user is told about arguments that cannot be understood. -/
def usageError : String :=
  "error: the arguments cannot be understood\n\nFor more information, try '--help'.\n"

/-- Runs a command line. The language server is left to the caller, so asking for it
leaves nothing behind. -/
def run {m : Type → Type} [Monad m] (files : Files m) (arguments : List String) : m Outcome := do
  match Arguments.parse arguments with
  | none => return { exitCode := 2, errors := usageError }
  | some .serve => return {}
  | some .version => return { output := versionText }
  | some (.help topic) => return { output := topic.text }
  | some (.refactor options) => refactor files options

end Command

end ServiceInjection
