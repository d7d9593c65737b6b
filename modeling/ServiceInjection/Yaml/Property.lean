import ServiceInjection.Yaml.Scalar
import ServiceInjection.Yaml.Token

/-!
# Yaml.Property

Reading what may stand in front of a node, its anchor and its tag, and the
directives in front of a document.
-/

namespace ServiceInjection.Yaml

/-- Whether a character may stand in the name of an anchor or a handle. -/
def isAnchorChar (c : Char) : Bool := c.isAlphanum || c == '_' || c == '-'

def anchorName (cursor : Cursor) : Option (String × Cursor) :=
  let name := cursor.rest.takeWhile isAnchorChar
  let after := cursor.skip name.length
  let ends := endsWord after.next? ||
    after.next?.any (['?', ':', ',', ']', '\x7d', '%', '@', '\x60'].contains ·)
  if name.isEmpty || !ends then none else some (String.ofList name, after)

/-! ### Tags -/

/-- Whether a character may stand in a tag; between angle brackets and in
directives commas and brackets may too. -/
def isTagChar (wide : Bool) (c : Char) : Bool :=
  isAnchorChar c ||
    [';', '/', '?', ':', '@', '&', '=', '+', '$', '.', '!', '~', '*', '\'', '(', ')'].contains c ||
    (wide && [',', '[', ']'].contains c)

/-- How many bytes the code of a character takes, by its first byte. -/
def byteCount (first : Nat) : Nat :=
  if first < 0x80 then 1
  else if 0xc0 ≤ first && first < 0xe0 then 2
  else if 0xe0 ≤ first && first < 0xf0 then 3
  else if 0xf0 ≤ first && first < 0xf8 then 4
  else 0

/-- Reads a byte behind a percent sign. -/
def escapedByte : List Char → Option (Nat × List Char)
  | '%' :: a :: b :: cs => do some ((← Text.digitValue? a) * 16 + (← Text.digitValue? b), cs)
  | _ => none

/-- Reads `n` bytes that continue the code of a character. -/
def escapedTail : Nat → List Char → Option (List Nat × List Char)
  | 0, cs => some ([], cs)
  | n + 1, cs => do
    let (byte, cs) ← escapedByte cs
    if 0x80 ≤ byte && byte < 0xc0 then
      let (bytes, cs) ← escapedTail n cs
      some (byte :: bytes, cs)
    else none

/-- Reads a character whose bytes are written with percent signs. -/
def escapedChar (cs : List Char) : Option (Char × List Char) := do
  let (first, cs) ← escapedByte cs
  let count := byteCount first
  if count == 0 then none
  else
    let (tail, cs) ← escapedTail (count - 1) cs
    let top := if count == 1 then first else first % Nat.pow 2 (7 - count)
    let code := tail.foldl (fun n byte => n * 64 + byte % 64) top
    if code.isValidChar then some (Char.ofNat code, cs) else none

/-- Reads the characters of a tag. -/
def tagChars (wide : Bool) (cs : List Char) : Option (List Char × List Char) :=
  match cs with
  | [] => some ([], [])
  | c :: rest =>
    if c == '%' then
      match escapedChar cs with
      | some (c, rest') =>
        if rest'.length ≤ rest.length then
          (tagChars wide rest').map fun (text, rest) => (c :: text, rest)
        else none
      | none => none
    else if isTagChar wide c then
      (tagChars wide rest).map fun (text, rest) => (c :: text, rest)
    else some ([], cs)
termination_by cs.length

/-- The handle at the start of a tag: a name between exclamation marks. -/
def tagHandle? : List Char → Option (List Char × List Char)
  | '!' :: cs =>
    match cs.dropWhile isAnchorChar with
    | '!' :: rest => some ('!' :: (cs.takeWhile isAnchorChar ++ ['!']), rest)
    | _ => none
  | _ => none

/-- Reads a tag at its exclamation mark: in angle brackets, with a handle, or
without one. -/
def tagMark? (cs : List Char) : Option (TagMark × List Char) :=
  match cs with
  | '!' :: '<' :: rest => do
    let (suffix, rest) ← tagChars true rest
    match rest with
    | '>' :: rest => if suffix.isEmpty then none else some (⟨"", String.ofList suffix⟩, rest)
    | _ => none
  | _ =>
    match tagHandle? cs with
    | some (handle, rest) => do
      let (suffix, rest) ← tagChars false rest
      if suffix.isEmpty then none
      else some (⟨String.ofList handle, String.ofList suffix⟩, rest)
    | none => do
      let (suffix, rest) ← tagChars false (cs.drop 1)
      if suffix.isEmpty then some (⟨"", "!"⟩, rest)
      else some (⟨"!", String.ofList suffix⟩, rest)

/-- Reads a tag; a blank has to follow it, or a comma inside brackets. -/
def tag? (inFlow : Bool) (cursor : Cursor) : Option (TagMark × Cursor) := do
  let (mark, rest) ← tagMark? cursor.rest
  let after := cursor.upTo rest
  if endsWord after.next? || (inFlow && after.sees ',') then some (mark, after) else none

/-! ### Directives -/

def versionNumber (cs : List Char) : Option (Nat × List Char) :=
  let digits := cs.takeWhile Char.isDigit
  if digits.isEmpty || 9 < digits.length then none
  else some (Text.natOfDigits 10 digits, cs.dropWhile Char.isDigit)

/-- Reads the version that a directive asks for. -/
def versionDirective (cs : List Char) : Option (Token × List Char) := do
  let (major, rest) ← versionNumber (cs.dropWhile isSpaceOrTab)
  match rest with
  | '.' :: rest =>
    let (minor, rest) ← versionNumber rest
    some (.version major minor, rest)
  | _ => none

/-- Reads what a directive says about a handle. -/
def handleDirective (cs : List Char) : Option (Token × List Char) := do
  let cs := cs.dropWhile isSpaceOrTab
  let (handle, rest) ← match tagHandle? cs with
    | some result => some result
    | none =>
      match cs with
      | '!' :: rest => some (['!'], rest)
      | _ => none
  guard (rest.head?.any isSpaceOrTab)
  let (meaning, rest) ← tagChars true (rest.dropWhile isSpaceOrTab)
  guard (!meaning.isEmpty && endsWord rest.head?)
  some (.handle (String.ofList handle) (String.ofList meaning), rest)

/-- Reads a directive behind its percent sign, and the rest of its line. -/
def directive? (cursor : Cursor) : Option (Token × Cursor) := do
  let name := cursor.rest.takeWhile isAnchorChar
  let rest := cursor.rest.drop name.length
  guard (endsWord rest.head?)
  let (token, rest) ←
    if name == "YAML".toList then versionDirective rest
    else if name == "TAG".toList then handleDirective rest
    else none
  some (token, ← finishLine (cursor.upTo rest))

end ServiceInjection.Yaml
