import ServiceInjection.Command.Run
import ServiceInjection.Json.Parse
import ServiceInjection.Server.Session
import ServiceInjection.Server.Wire

/-!
# Main

The program: the files of the machine, the messages on the standard streams, and the
command line.
-/

namespace ServiceInjection

/-! ### Files -/

/-- The reason behind a failure of the system. -/
def readErrorOf (failure : IO.Error) : ReadError :=
  let ofCode := fun (code : UInt32) (details : String) =>
    match code.toNat with
    | 2 => ReadError.notFound
    | 20 => .notADirectory
    | 21 => .isADirectory
    | n => .other (details ++ " (os error " ++ toString n ++ ")")
  match failure with
  | .noFileOrDirectory _ _ _ => .notFound
  | .inappropriateType _ code details => ofCode code details
  | .permissionDenied _ code details => ofCode code details
  | .noSuchThing _ code details => ofCode code details
  | .otherError code details => ofCode code details
  | other => .other (toString other)

/-- An action whose failure is a value. -/
def attempt {α : Type} (action : IO α) : IO (Except ReadError α) := do
  try
    return .ok (← action)
  catch failure =>
    return .error (readErrorOf failure)

def readText (path : String) : IO (Except ReadError String) := do
  match ← attempt (IO.FS.readBinFile path) with
  | .error reason => return .error reason
  | .ok bytes =>
    return match String.fromUTF8? bytes with
      | some text => .ok text
      | none => .error .invalidText

/-- A file or directory with all that is below it. Only the texts that a scan looks
at are read, and links inside a directory are not followed. -/
partial def loadTree (entry : IO.FS.DirEntry) (metadata : IO.FS.Metadata) : IO (Option Tree) := do
  match metadata.type with
  | .dir =>
    match ← attempt entry.path.readDir with
    | .error _ => return some .empty
    | .ok entries =>
      let mut loaded := #[]
      for inner in entries do
        if let .ok metadata ← attempt inner.path.symlinkMetadata then
          if let some tree ← loadTree inner metadata then
            loaded := loaded.push (inner.fileName, tree)
      return some (.directory loaded.toList)
  | .file =>
    if ServiceIndex.looksAt entry.fileName then
      return some (.file (← readText entry.path.toString).toOption)
    else return some (.file none)
  | _ => return none

def readTree (path : String) : IO (Option Tree) := do
  let entry : IO.FS.DirEntry := ⟨".", path⟩
  match ← attempt entry.path.metadata with
  | .ok metadata => loadTree entry metadata
  | .error _ => return none

def userSettingsPath : IO (Option String) := do
  let directory ← match ← IO.getEnv "XDG_CONFIG_HOME" with
    | some path =>
      if path.toList.head? == some '/' then pure (some path)
      else pure ((← IO.getEnv "HOME").map (· ++ "/.config"))
    | none => pure ((← IO.getEnv "HOME").map (· ++ "/.config"))
  return directory.map (· ++ "/drupal-di/config.toml")

/-- The files of the machine. -/
def machineFiles : Files IO where
  read := readText
  write path text := attempt (IO.FS.writeFile path text)
  tree := readTree
  readUserSettings := do
    match ← userSettingsPath with
    | some path => readText path
    | none => return .error .notFound

/-! ### The language server -/

/-- Reads a header; gives back the number of bytes that follow it. -/
partial def readHeader (input : IO.FS.Stream) (length : Option Nat) : IO (Option Nat) := do
  let line ← input.getLine
  if line.isEmpty then return none
  else if line == "\r\n" || line == "\n" then return some (length.getD 0)
  else readHeader input ((Server.contentLength? line).or length)

/-- Reads a number of bytes, or fewer if the input ends. -/
partial def readBytes (input : IO.FS.Stream) (read : ByteArray) (length : Nat) : IO ByteArray := do
  if length ≤ read.size then return read
  else
    let more ← input.read (USize.ofNat (length - read.size))
    if more.isEmpty then return read else readBytes input (read ++ more) length

def send (output : IO.FS.Stream) (messages : List Json) : IO Unit := do
  for message in messages do
    output.putStr (Server.frame message)
  output.flush

/-- Answers messages until the session or the input ends. -/
partial def serve (input output : IO.FS.Stream) (session : Session) : IO Unit := do
  let some length ← readHeader input none | return
  let bytes ← readBytes input ByteArray.empty length
  match (String.fromUTF8? bytes).bind Json.parse with
  | none =>
    send output [Server.unreadable]
    serve input output session
  | some message =>
    match ← session.handle machineFiles message with
    | none =>
      send output [Server.unreadable]
      serve input output session
    | some effect =>
      let id := (message.get? "id").getD .null
      send output (effect.notes.map (·.toJson) ++ (effect.reply.toJson? id).toList)
      if effect.session.phase == .exited then return
      else serve input output effect.session

end ServiceInjection

open ServiceInjection in
def main (arguments : List String) : IO UInt32 := do
  match Arguments.parse arguments with
  | some .serve =>
    serve (← IO.getStdin) (← IO.getStdout) { hasClient := true }
    return 0
  | _ =>
    let outcome ← Command.run machineFiles arguments
    (← IO.getStdout).putStr outcome.output
    (← IO.getStderr).putStr outcome.errors
    return outcome.exitCode.toUInt32
