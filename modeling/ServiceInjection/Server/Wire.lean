import ServiceInjection.Json.Render
import ServiceInjection.Server.Message
import ServiceInjection.Text.Blank

/-!
# Server.Wire

The messages of the server as they are sent: each has a header that tells the
number of its bytes.
-/

namespace ServiceInjection.Server

def CallError.message : CallError → String
  | .invalidRequest => "Invalid request"
  | .methodNotFound => "Method not found"
  | .invalidParams => "Invalid params"
  | .notInitialized => "Server not initialized"

/-- A message of the protocol. -/
def protocolMessage (fields : List (String × Json)) : Json :=
  .object (("jsonrpc", .string "2.0") :: fields)

def Note.toJson (note : Note) : Json :=
  protocolMessage [("method", .string Note.method), ("params", note.params)]

/-- The message that refuses a call. -/
def refusal (code : Int) (message : String) (id : Json) : Json :=
  protocolMessage
    [("error", .object [("code", .integer code), ("message", .string message)]), ("id", id)]

/-- The reply to a message that is no call. -/
def unreadable : Json := refusal (-32700) "Parse error" .null

/-- The message that carries a reply to the call with an id, if there is one. -/
def Reply.toJson? (id : Json) : Reply → Option Json
  | .nothing => none
  | .result value => some (protocolMessage [("result", value), ("id", id)])
  | .error reason => some (refusal reason.code reason.message id)
  | .exited => none

/-- A message behind its header. -/
def frame (message : Json) : String :=
  let body := message.compact
  "Content-Length: " ++ toString body.utf8ByteSize ++ "\r\n\r\n" ++ body

def contentLength? (line : String) : Option Nat :=
  let cs := line.toList
  let name := (cs.takeWhile (· != ':')).map Char.toLower
  let value := Text.trim ((cs.dropWhile (· != ':')).drop 1)
  if name == "content-length".toList && !value.isEmpty && value.all Char.isDigit then
    some (Text.natOfDigits 10 value)
  else none

end ServiceInjection.Server
