import ServiceInjection.Text.Digits
import ServiceInjection.Text.Lines

/-!
# Server.Uri

The addresses of documents. An address is brought to a normal form when it is read,
so that two spellings of one address are the same document: the scheme is in lower
case, dots in a path are carried out, and characters that may not stand for
themselves are written as bytes behind percent signs.
-/

namespace ServiceInjection

/-- An address in its normal form. -/
structure Uri where
  scheme : String
  /-- The host with all that belongs to it, if there is one. -/
  authority : Option String
  /-- The parts of a path that starts with a slash. -/
  segments : List String
  /-- A path that does not start with a slash. -/
  rootlessPath : Option String
  query : Option String
  fragment : Option String
  deriving DecidableEq, Repr

namespace Uri

/-! ### Characters -/

/-- A byte behind a percent sign. -/
def percent (byte : UInt8) : List Char :=
  ['%', (Text.hexDigit (byte.toNat / 16)).toUpper, (Text.hexDigit (byte.toNat % 16)).toUpper]

/-- Writes the bytes of a character behind percent signs if it is a control
character, not of ASCII, or one of `reserved`. -/
def encodeChar (reserved : List Char) (c : Char) : List Char :=
  if c < ' ' || '~' < c || reserved.contains c then c.toString.toUTF8.toList.flatMap percent
  else [c]

def encode (reserved : List Char) (cs : List Char) : String :=
  String.ofList (cs.flatMap (encodeChar reserved))

def pathReserved : List Char := [' ', '"', '<', '>', '\x60', '#', '?', '\x7b', '\x7d']

def fragmentReserved : List Char := [' ', '"', '<', '>', '\x60']

def queryReserved (special : Bool) : List Char :=
  [' ', '"', '#', '<', '>'] ++ (if special then ['\''] else [])

/-- The bytes of a text with percent signs carried out. -/
def decodeBytes : List Char → List UInt8
  | [] => []
  | '%' :: a :: b :: cs =>
    match Text.digitValue? a, Text.digitValue? b with
    | some high, some low => (high * 16 + low).toUInt8 :: decodeBytes cs
    | _, _ => '%'.toNat.toUInt8 :: decodeBytes (a :: b :: cs)
  | c :: cs => c.toString.toUTF8.toList ++ decodeBytes cs

/-- A text with percent signs carried out, if that gives a text. -/
def decode (text : String) : Option String :=
  String.fromUTF8? (ByteArray.mk (decodeBytes text.toList).toArray)

/-! ### Schemes -/

/-- Reads a scheme up to its colon. -/
def scheme? (cs : List Char) : Option (String × List Char) :=
  let isSchemeChar := fun (c : Char) => c.isAlphanum || c == '+' || c == '-' || c == '.'
  match cs.dropWhile isSchemeChar with
  | ':' :: rest =>
    if cs.head?.any Char.isAlpha then
      some (String.ofList ((cs.takeWhile isSchemeChar).map Char.toLower), rest)
    else none
  | _ => none

/-- The endpoint number that is meant without one, for the schemes of the network. -/
def defaultEndpoint (scheme : String) : Option Nat :=
  [("http", 80), ("https", 443), ("ws", 80), ("wss", 443), ("ftp", 21)].lookup scheme

/-- Whether the addresses of a scheme follow the rules of the network. -/
def isSpecial (scheme : String) : Bool := scheme == "file" || (defaultEndpoint scheme).isSome

/-! ### Paths -/

/-- Whether a part of a path stays where it is. -/
def isSingleDot (segment : String) : Bool := [".", "%2e", "%2E"].contains segment

/-- Whether a part of a path goes up. -/
def isDoubleDot (segment : String) : Bool :=
  ["..", ".%2e", ".%2E", "%2e.", "%2E.", "%2e%2e", "%2e%2E", "%2E%2e", "%2E%2E"].contains segment

def isDrive (segment : String) : Bool :=
  match segment.toList with
  | [letter, mark] => letter.isAlpha && (mark == ':' || mark == '|')
  | _ => false

/-- Goes up from the last part; a drive is never left. -/
def dropLastPart (isFile : Bool) (parts : List String) : List String :=
  match parts with
  | [part] => if isFile && isDrive part then parts else []
  | _ => parts.dropLast

/-- Adds a part to a path; `isLast` tells whether a slash follows it. -/
def addPart (isFile : Bool) (parts : List String) (part : String) (isLast : Bool) :
    List String :=
  if isDoubleDot part then dropLastPart isFile parts ++ (if isLast then [""] else [])
  else if isSingleDot part then parts ++ (if isLast then [""] else [])
  else if isFile && parts.isEmpty && isDrive part then
    [String.ofList (part.toList.take 1 ++ [':'])]
  else parts ++ [part]

def addParts (isFile : Bool) : List String → List String → List String
  | parts, [] => parts
  | parts, [last] => addPart isFile parts last true
  | parts, part :: rest => addParts isFile (addPart isFile parts part false) rest

/-- The parts of a path behind its first slash. -/
def pathOf (scheme : String) (cs : List Char) : List String :=
  let isSlash := fun c => c == '/' || (isSpecial scheme && c == '\\')
  addParts (scheme == "file") [] ((Text.splitBy isSlash cs).map (encode pathReserved))

/-! ### Hosts -/

def isForbiddenInHost (c : Char) : Bool :=
  c ≤ ' ' || c == '\x7f' ||
    ['#', '/', ':', '<', '>', '?', '@', '[', '\\', ']', '^', '|', '%'].contains c

/-- A host of the network in its normal form. -/
def specialHost? (cs : List Char) : Option String := do
  if cs.head? == some '[' then
    if cs.getLast? == some ']' then some (String.ofList (cs.map Char.toLower)) else none
  else
    let name ← decode (String.ofList cs)
    let cs := name.toList.map Char.toLower
    if cs.isEmpty || cs.any isForbiddenInHost || cs.any ('~' < ·) then none
    else some (String.ofList cs)

/-- The endpoint number of an address, unless it is the one that is meant anyway. -/
def endpoint? (scheme : String) (cs : List Char) : Option (Option Nat) :=
  let number := Text.natOfDigits 10 cs
  if cs.isEmpty then some none
  else if !cs.all Char.isDigit || 65535 < number then none
  else some (if defaultEndpoint scheme == some number then none else some number)

/-- Parts a host from its endpoint number. -/
def splitEndpoint (cs : List Char) : List Char × List Char :=
  let behind := cs.reverse.takeWhile (fun c => c != ':' && c != ']')
  match cs.reverse.drop behind.length with
  | ':' :: host => (host.reverse, behind.reverse)
  | _ => (cs, [])

/-- Reads an authority: an optional user, the host and an optional endpoint
number. -/
def authority? (scheme : String) (cs : List Char) : Option String := do
  let hostPart := (cs.reverse.takeWhile (· != '@')).reverse
  let user := cs.take (cs.length - hostPart.length - 1)
  let (host, number) := splitEndpoint hostPart
  let host ←
    if isSpecial scheme then specialHost? host
    else if host.head? != some '[' && host.any (fun c => c != '%' && isForbiddenInHost c) then none
    else some (encode [] host)
  let number ← endpoint? scheme number
  let reserved := pathReserved ++ ['/', ';', '=', '@', '[', '\\', ']', '^', '|']
  let front := if user.isEmpty then "" else encode reserved user ++ "@"
  let behind := match number with
    | some number => ":" ++ toString number
    | none => ""
  some (front ++ host ++ behind)

/-- The host of a file; this machine counts as none. -/
def fileHost? (cs : List Char) : Option (Option String) := do
  if cs.isEmpty then some none
  else
    let host ← specialHost? cs
    some (if host == "localhost" then none else some host)

/-! ### Reading -/

/-- Drops what may not stand in an address: blanks and control characters at both
ends, and tabs and line breaks anywhere. -/
def cleaned (text : String) : List Char :=
  let isEdge := fun (c : Char) => c ≤ ' '
  let cs := (text.toList.dropWhile isEdge).reverse.dropWhile isEdge
  cs.reverse.filter fun c => c != '\t' && c != '\n' && c != '\r'

/-- Parts a text at the first `mark`. -/
def cutAt (mark : Char) (cs : List Char) : List Char × Option (List Char) :=
  match cs.dropWhile (· != mark) with
  | _ :: rest => (cs.takeWhile (· != mark), some rest)
  | [] => (cs, none)

structure Pieces where
  authority : Option String := none
  segments : List String := []
  rootlessPath : Option String := none

/-- Reads what follows the two slashes of a file. A drive in place of the host is
part of the path. -/
def filePieces (cs : List Char) : Option Pieces := do
  let isEnd := fun c => c == '/' || c == '\\'
  let hostPart := cs.takeWhile (!isEnd ·)
  if isDrive (String.ofList hostPart) then some { segments := pathOf "file" cs }
  else
    let host ← fileHost? hostPart
    let segments := pathOf "file" ((cs.dropWhile (!isEnd ·)).drop 1)
    let host := if segments.head?.any isDrive then none else host
    some { authority := some (host.getD ""), segments }

/-- Reads an address of a file behind its scheme. -/
def ofFile (cs : List Char) : Option Pieces :=
  let isSlash := fun (c : Option Char) => c == some '/' || c == some '\\'
  if isSlash cs.head? && isSlash (cs.drop 1).head? then
    (filePieces (cs.drop 2)).map fun pieces =>
      { pieces with authority := some (pieces.authority.getD "") }
  else
    let path := if isSlash cs.head? then cs.drop 1 else cs
    some { authority := some "", segments := pathOf "file" path }

/-- Reads an address of the network behind its scheme. -/
def ofSpecial (scheme : String) (cs : List Char) : Option Pieces := do
  let isSlash := fun c => c == '/' || c == '\\'
  let cs := cs.dropWhile isSlash
  let authority ← authority? scheme (cs.takeWhile (!isSlash ·))
  some { authority := some authority
         segments := pathOf scheme ((cs.dropWhile (!isSlash ·)).drop 1) }

/-- Reads any other address behind its scheme. -/
def ofOther (scheme : String) (cs : List Char) : Option Pieces :=
  match cs with
  | '/' :: '/' :: rest => do
    let authority ← authority? scheme (rest.takeWhile (· != '/'))
    match rest.dropWhile (· != '/') with
    | [] => some { authority := some authority, rootlessPath := some "" }
    | _ :: path => some { authority := some authority, segments := pathOf scheme path }
  | '/' :: path => some { segments := pathOf scheme path }
  | _ => some { rootlessPath := some (encode [] cs) }

def parse (text : String) : Option Uri := do
  let (scheme, rest) ← scheme? (cleaned text)
  let (rest, fragment) := cutAt '#' rest
  let (rest, query) := cutAt '?' rest
  let pieces ←
    if scheme == "file" then ofFile rest
    else if isSpecial scheme then ofSpecial scheme rest
    else ofOther scheme rest
  some {
    scheme
    authority := pieces.authority
    segments := pieces.segments
    rootlessPath := pieces.rootlessPath
    query := query.map (encode (queryReserved (isSpecial scheme)))
    fragment := fragment.map (encode fragmentReserved) }

/-! ### Using -/

def text (uri : Uri) : String :=
  let authority := match uri.authority with
    | some authority => "//" ++ authority
    | none => ""
  let path := match uri.rootlessPath with
    | some path => path
    | none => "/" ++ "/".intercalate uri.segments
  let query := match uri.query with
    | some query => "?" ++ query
    | none => ""
  let fragment := match uri.fragment with
    | some fragment => "#" ++ fragment
    | none => ""
  uri.scheme ++ ":" ++ authority ++ path ++ query ++ fragment

/-- The path of the file that an address names, if it is on this machine. -/
def filePath? (uri : Uri) : Option String := do
  let isLocal := uri.authority.getD "" == "" || uri.authority == some "localhost"
  guard (uri.rootlessPath.isNone && isLocal)
  let parts ← uri.segments.mapM decode
  some ("/" ++ "/".intercalate parts)

end Uri

end ServiceInjection
