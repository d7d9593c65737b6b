import ServiceInjection.Json.Basic
import ServiceInjection.Text.Digits

/-!
# Json.Parse

Reading JSON.
-/

namespace ServiceInjection.Json

/-- Whether a character may stand between the parts of a value. -/
def isSpace (c : Char) : Bool := c == ' ' || c == '\t' || c == '\n' || c == '\r'

def skipSpaces (cs : List Char) : List Char := cs.dropWhile isSpace

/-! ### Strings -/

/-- Reads a character by its code units, behind the first mark. Two units that
belong together give one character; a unit that lacks its partner gives none. -/
def unicodeChar (cs : List Char) : Option (Char × List Char) := do
  let (high, rest) ← Text.hexNumber? 4 cs
  if 0xd800 ≤ high && high < 0xdc00 then
    match rest with
    | '\\' :: 'u' :: rest =>
      let (low, rest) ← Text.hexNumber? 4 rest
      if 0xdc00 ≤ low && low < 0xe000 then
        some (Char.ofNat (0x10000 + (high - 0xd800) * 0x400 + (low - 0xdc00)), rest)
      else none
    | _ => none
  else if 0xdc00 ≤ high && high < 0xe000 then none
  else some (Char.ofNat high, rest)

/-- Reads an escape behind its backslash. -/
def escape? : List Char → Option (Char × List Char)
  | '"' :: cs => some ('"', cs)
  | '\\' :: cs => some ('\\', cs)
  | '/' :: cs => some ('/', cs)
  | 'b' :: cs => some ('\x08', cs)
  | 'f' :: cs => some ('\x0c', cs)
  | 'n' :: cs => some ('\n', cs)
  | 'r' :: cs => some ('\r', cs)
  | 't' :: cs => some ('\t', cs)
  | 'u' :: cs => unicodeChar cs
  | _ => none

/-- Reads the rest of a string up to its quote. -/
def stringRest (cs : List Char) : Option (List Char × List Char) :=
  match cs with
  | [] => none
  | '"' :: rest => some ([], rest)
  | '\\' :: rest =>
    match escape? rest with
    | some (c, rest') =>
      if rest'.length ≤ rest.length then
        (stringRest rest').map fun (text, rest) => (c :: text, rest)
      else none
    | none => none
  | c :: rest =>
    if c < ' ' then none else (stringRest rest).map fun (text, rest) => (c :: text, rest)
termination_by cs.length

/-! ### Numbers -/

/-- Reads digits, at least one. -/
def digits? (cs : List Char) : Option (List Char × List Char) :=
  match cs.takeWhile Char.isDigit with
  | [] => none
  | digits => some (digits, cs.dropWhile Char.isDigit)

/-- Reads a whole number without a sign and without needless zeros. -/
def whole? (cs : List Char) : Option (List Char × List Char) :=
  match cs with
  | '0' :: rest => if rest.head?.any Char.isDigit then none else some (['0'], rest)
  | _ => digits? cs

def fraction? : List Char → Option (List Char × List Char)
  | '.' :: cs => (digits? cs).map fun (digits, rest) => ('.' :: digits, rest)
  | cs => some ([], cs)

def exponent? : List Char → Option (List Char × List Char)
  | c :: cs =>
    if c == 'e' || c == 'E' then
      let sign := cs.takeWhile fun d => d == '+' || d == '-'
      if 1 < sign.length then none
      else (digits? (cs.drop sign.length)).map fun (digits, rest) => (c :: sign ++ digits, rest)
    else some ([], c :: cs)
  | [] => some ([], [])

/-- Reads a number. A whole number that does not fit in 64 bits, and negative zero,
are no longer counted with. -/
def number (cs : List Char) : Option (Json × List Char) := do
  let (sign, rest) := match cs with
    | '-' :: rest => (['-'], rest)
    | _ => ([], cs)
  let (whole, rest) ← whole? rest
  let (fraction, rest) ← fraction? rest
  let (exponent, rest) ← exponent? rest
  let size := Text.natOfDigits 10 whole
  let value : Int := if sign.isEmpty then size else -(size : Int)
  let counts := fraction.isEmpty && exponent.isEmpty &&
    -(Nat.pow 2 63 : Int) ≤ value && value < (Nat.pow 2 64 : Int) &&
    (sign.isEmpty || size != 0)
  let text := String.ofList (sign ++ whole ++ fraction ++ exponent)
  some (if counts then .integer value else .real text, rest)

/-! ### Values -/

def word (expected : String) (json : Json) (cs : List Char) : Option (Json × List Char) :=
  if expected.toList.isPrefixOf cs then some (json, cs.drop expected.length) else none

/-- Reads items with commas between them up to `close`. -/
def itemsFrom {α : Type} (item : List Char → Option (α × List Char)) (close : Char)
    (cs : List Char) : Option (List α × List Char) :=
  match item (skipSpaces cs) with
  | none => none
  | some (value, rest) =>
    match skipSpaces rest with
    | ',' :: rest' =>
      if rest'.length < cs.length then
        (itemsFrom item close rest').map fun (values, rest) => (value :: values, rest)
      else none
    | c :: rest' => if c == close then some ([value], rest') else none
    | [] => none
termination_by cs.length

/-- Reads items up to `close`, of which there may be none. -/
def items {α : Type} (item : List Char → Option (α × List Char)) (close : Char)
    (cs : List Char) : Option (List α × List Char) :=
  match skipSpaces cs with
  | c :: rest => if c == close then some ([], rest) else itemsFrom item close cs
  | [] => none

def field (value : List Char → Option (Json × List Char)) (cs : List Char) :
    Option ((String × Json) × List Char) :=
  match cs with
  | '"' :: rest => do
    let (name, rest) ← stringRest rest
    match skipSpaces rest with
    | ':' :: rest =>
      let (json, rest) ← value (skipSpaces rest)
      some ((String.ofList name, json), rest)
    | _ => none
  | _ => none

/-- Reads a value whose brackets are at most `depth` deep. -/
def value : Nat → List Char → Option (Json × List Char)
  | depth, cs =>
    match cs with
    | 'n' :: _ => word "null" .null cs
    | 't' :: _ => word "true" (.bool true) cs
    | 'f' :: _ => word "false" (.bool false) cs
    | '"' :: rest => (stringRest rest).map fun (text, rest) => (.string (String.ofList text), rest)
    | '[' :: rest =>
      match depth with
      | 0 => none
      | depth + 1 => (items (value depth) ']' rest).map fun (items, rest) => (.array items, rest)
    | '\x7b' :: rest =>
      match depth with
      | 0 => none
      | depth + 1 =>
        (items (field (value depth)) '\x7d' rest).map fun (fields, rest) => (.object fields, rest)
    | _ => number cs

/-- How deep brackets may be. -/
def maxDepth : Nat := 128

/-- The value that a text stands for. -/
def parse (text : String) : Option Json :=
  match value maxDepth (skipSpaces text.toList) with
  | some (json, rest) => if (skipSpaces rest).isEmpty then some json else none
  | none => none

end ServiceInjection.Json
