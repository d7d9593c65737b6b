import ServiceInjection.Toml.Number

/-!
# Toml.Quoted

Strings of TOML: between double quotes with escapes or between single quotes
without, on one line or, with tripled quotes, on several. A line break in a text
on several lines is read as a single newline, however it was written.
-/

namespace ServiceInjection.Toml

/-- Whether a character may stand in a string or a comment: no control character
but the tab. -/
def isPlain (c : Char) : Bool := c == '\t' || (' ' ≤ c && c != '\x7f')

/-- Reads an escape behind its backslash. -/
def escape : List Char → Option (Char × List Char)
  | 'b' :: cs => some ('\x08', cs)
  | 't' :: cs => some ('\t', cs)
  | 'n' :: cs => some ('\n', cs)
  | 'f' :: cs => some ('\x0c', cs)
  | 'r' :: cs => some ('\r', cs)
  | 'e' :: cs => some ('\x1b', cs)
  | '"' :: cs => some ('"', cs)
  | '\\' :: cs => some ('\\', cs)
  | 'x' :: cs => Text.codePoint? 2 cs
  | 'u' :: cs => Text.codePoint? 4 cs
  | 'U' :: cs => Text.codePoint? 8 cs
  | _ => none

/-- Reads a line break. -/
def lineBreak : List Char → Option (List Char)
  | '\n' :: cs => some cs
  | '\r' :: '\n' :: cs => some cs
  | _ => none

def isSpace (c : Char) : Bool := c == ' ' || c == '\t'

/-- Skips spaces and line breaks. -/
def skipSpacesAndBreaks : List Char → List Char
  | [] => []
  | '\r' :: '\n' :: cs => skipSpacesAndBreaks cs
  | c :: cs => if isSpace c || c == '\n' then skipSpacesAndBreaks cs else c :: cs

/-- Reads a backslash at the end of a line, which joins the lines around it. -/
def lineJoin (cs : List Char) : Option (List Char) :=
  (lineBreak (cs.dropWhile isSpace)).map skipSpacesAndBreaks

/-! ### On one line -/

/-- Reads the rest of a string up to its double quote. -/
def basicRest (cs : List Char) : Option (List Char × List Char) :=
  match cs with
  | [] => none
  | '"' :: rest => some ([], rest)
  | '\\' :: rest =>
    match escape rest with
    | some (c, rest') =>
      if rest'.length ≤ rest.length then
        (basicRest rest').map fun (text, rest) => (c :: text, rest)
      else none
    | none => none
  | c :: rest =>
    if isPlain c then (basicRest rest).map fun (text, rest) => (c :: text, rest) else none
termination_by cs.length

/-- Reads the rest of a string up to its single quote. -/
def literalRest : List Char → Option (List Char × List Char)
  | [] => none
  | '\'' :: rest => some ([], rest)
  | c :: rest =>
    if isPlain c then (literalRest rest).map fun (text, rest) => (c :: text, rest) else none

/-! ### On several lines -/

/-- At the quotes that end a text: up to two more than three belong to the text. -/
def closing (quote : Char) (cs : List Char) : Option (List Char × List Char) :=
  let count := (cs.takeWhile (· == quote)).length
  if count < 3 then none
  else
    let own := min (count - 3) 2
    some (List.replicate own quote, cs.drop (own + 3))

/-- Reads the rest of a text up to its three double quotes. -/
def basicLinesRest (cs : List Char) : Option (List Char × List Char) :=
  match closing '"' cs with
  | some result => some result
  | none =>
    match cs with
    | [] => none
    | '\\' :: rest =>
      match lineJoin rest with
      | some rest' => if rest'.length ≤ rest.length then basicLinesRest rest' else none
      | none =>
        match escape rest with
        | some (c, rest') =>
          if rest'.length ≤ rest.length then
            (basicLinesRest rest').map fun (text, rest) => (c :: text, rest)
          else none
        | none => none
    | '\r' :: '\n' :: rest => (basicLinesRest rest).map fun (text, rest) => ('\n' :: text, rest)
    | c :: rest =>
      if isPlain c || c == '\n' then
        (basicLinesRest rest).map fun (text, rest) => (c :: text, rest)
      else none
termination_by cs.length

/-- Reads the rest of a text up to its three single quotes. -/
def literalLinesRest (cs : List Char) : Option (List Char × List Char) :=
  match closing '\'' cs with
  | some result => some result
  | none =>
    match cs with
    | [] => none
    | '\r' :: '\n' :: rest => (literalLinesRest rest).map fun (text, rest) => ('\n' :: text, rest)
    | c :: rest =>
      if isPlain c || c == '\n' then
        (literalLinesRest rest).map fun (text, rest) => (c :: text, rest)
      else none
termination_by cs.length

/-- A line break right behind the opening quotes does not count. -/
def skipFirstBreak (cs : List Char) : List Char := (lineBreak cs).getD cs

/-- Reads a string of one line. -/
def singleLineString : List Char → Option (List Char × List Char)
  | '"' :: cs => basicRest cs
  | '\'' :: cs => literalRest cs
  | _ => none

def string? (cs : List Char) : Option (String × List Char) :=
  let read := match cs with
    | '"' :: '"' :: '"' :: cs => basicLinesRest (skipFirstBreak cs)
    | '\'' :: '\'' :: '\'' :: cs => literalLinesRest (skipFirstBreak cs)
    | cs => singleLineString cs
  read.map fun (text, rest) => (String.ofList text, rest)

end ServiceInjection.Toml
