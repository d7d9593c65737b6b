import ServiceInjection.Text.Lines
import ServiceInjection.Toml.Moment
import ServiceInjection.Toml.Quoted
import ServiceInjection.Toml.Table

/-!
# Toml.Reader

Reading a TOML document. The text is a sequence of statements, each on a line of
its own: a key with its value, or the header of a table. Inside brackets and
braces line breaks and comments may stand between the items.
-/

namespace ServiceInjection.Toml

/-! ### Between the parts -/

/-- Skips spaces, line breaks and comments; `inComment` tells whether the text
starts inside a comment. There is none if a comment holds a control character or a
carriage return stands alone. -/
def skipFiller (inComment : Bool) : List Char → Option (List Char)
  | [] => some []
  | '\n' :: cs => skipFiller false cs
  | '\r' :: '\n' :: cs => skipFiller false cs
  | c :: cs =>
    if inComment then (if isPlain c then skipFiller true cs else none)
    else if isSpace c then skipFiller false cs
    else if c == '#' then skipFiller true cs
    else some (c :: cs)

/-- Whether a line may end here: only spaces and a comment are left on it. -/
def atLineEnd (cs : List Char) : Bool :=
  match cs.dropWhile isSpace with
  | [] => true
  | '#' :: _ => true
  | '\n' :: _ => true
  | '\r' :: '\n' :: _ => true
  | _ => false

/-! ### Keys -/

/-- Whether a character may stand in a key without quotes. -/
def isKeyChar (c : Char) : Bool := c.isAlphanum || c == '_' || c == '-'

/-- Reads a key without dots. -/
def simpleKey (cs : List Char) : Option (String × List Char) :=
  match cs.takeWhile isKeyChar with
  | [] => (singleLineString cs).map fun (text, rest) => (String.ofList text, rest)
  | name => some (String.ofList name, cs.dropWhile isKeyChar)

/-- Reads a key, `parents` being the keys in front of it. -/
def dottedKey (parents : List String) (cs : List Char) : Option (KeyPath × List Char) :=
  match simpleKey (cs.dropWhile isSpace) with
  | none => none
  | some (key, rest) =>
    match rest.dropWhile isSpace with
    | '.' :: rest' =>
      if rest'.length < cs.length then dottedKey (parents ++ [key]) rest' else none
    | rest' => some (⟨parents, key⟩, rest')
termination_by cs.length

/-! ### Values -/

/-- Whether a character may belong to a value without quotes. -/
def isScalarChar (c : Char) : Bool :=
  !([' ', '\t', '\r', '\n', ',', ']', '\x7d', '#', '=', '"', '\''].contains c)

/-- The value that a text without quotes stands for. -/
def scalarOf (cs : List Char) : Option Value :=
  if cs == "true".toList then some (.boolean true)
  else if cs == "false".toList then some (.boolean false)
  else match integer? cs with
    | some number => some (.integer number)
    | none =>
      if isFloat cs then some (.float (String.ofList cs))
      else if isMoment cs then some (.moment (String.ofList cs))
      else none

/-- Reads a value without brackets. Behind a date, one space may part the time. -/
def scalar (cs : List Char) : Option (Value × List Char) :=
  match string? cs with
  | some (text, rest) => some (.string text, rest)
  | none =>
    let first := cs.takeWhile isScalarChar
    let rest := cs.dropWhile isScalarChar
    match rest with
    | ' ' :: more =>
      if isDate first && more.head?.any Char.isDigit then
        (scalarOf (first ++ ' ' :: more.takeWhile isScalarChar)).map
          (·, more.dropWhile isScalarChar)
      else (scalarOf first).map (·, rest)
    | _ => (scalarOf first).map (·, rest)

/-- Reads items with commas between them and maybe behind the last, up to
`close`. -/
def items {α : Type} (item : List Char → Option (α × List Char)) (close : Char)
    (cs : List Char) : Option (List α × List Char) :=
  match skipFiller false cs with
  | none => none
  | some start =>
    if start.head? == some close then some ([], start.drop 1)
    else
      match item start with
      | none => none
      | some (value, rest) =>
        match skipFiller false rest with
        | some (',' :: rest') =>
          if rest'.length < cs.length then
            (items item close rest').map fun (values, rest) => (value :: values, rest)
          else none
        | some (c :: rest') => if c == close then some ([value], rest') else none
        | _ => none
termination_by cs.length

/-- Reads a key with its value; `filler` may stand around the equals sign. -/
def keyValue (value : List Char → Option (Value × List Char)) (cs : List Char) :
    Option ((KeyPath × Value) × List Char) := do
  let (key, rest) ← dottedKey [] cs
  let rest ← expectChar '=' rest
  let (value, rest) ← value (rest.dropWhile isSpace)
  some ((key, value), rest)

/-- Reads a value whose brackets and braces are at most `depth` deep. -/
def value : Nat → List Char → Option (Value × List Char)
  | 0, cs => scalar cs
  | depth + 1, cs =>
    match cs with
    | '[' :: rest => do
      let (values, rest) ← items (value depth) ']' rest
      some (.array values, rest)
    | '\x7b' :: rest => do
      let (assignments, rest) ← items (keyValue (value depth)) '\x7d' rest
      let entries ← Entries.assignAll [] assignments
      some (.table .inline entries, rest)
    | _ => scalar cs

/-- How deep brackets and braces may be. -/
def maxDepth : Nat := 80

/-! ### Statements -/

/-- A statement of a document. -/
inductive Statement where
  | assign (key : KeyPath) (value : Value)
  | table (key : KeyPath)
  | row (key : KeyPath)
  deriving Repr

def statement (cs : List Char) : Option (Statement × List Char) :=
  match cs with
  | '[' :: '[' :: rest => do
    let (key, rest) ← dottedKey [] rest
    some (.row key, ← expectChar ']' (← expectChar ']' rest))
  | '[' :: rest => do
    let (key, rest) ← dottedKey [] rest
    some (.table key, ← expectChar ']' rest)
  | _ => do
    let ((key, value), rest) ← keyValue (value maxDepth) cs
    some (.assign key value, rest)

def statements (cs : List Char) : Option (List Statement) :=
  match skipFiller false cs with
  | none => none
  | some [] => some []
  | some start =>
    match statement start with
    | none => none
    | some (first, rest) =>
      if atLineEnd rest then
        if rest.length < cs.length then (statements rest).map (first :: ·) else none
      else none
termination_by cs.length

/-! ### Documents -/

/-- A document under construction: its entries, and the table that keys go into. -/
structure Draft where
  entries : Entries := []
  current : List String := []

def Draft.step (draft : Draft) : Statement → Option Draft
  | .assign key value => do
    let entries ←
      Entries.within (Entries.assign value key.last key.parents) draft.current draft.entries
    some { draft with entries }
  | .table key => do some ⟨← draft.entries.openTable key, key.all⟩
  | .row key => do some ⟨← draft.entries.openRow key, key.all⟩

/-- The entries of a document, or none if the text is not one. -/
def parse (text : String) : Option Entries := do
  let statements ← statements (Text.dropMark text.toList)
  let draft ← statements.foldlM Draft.step ({} : Draft)
  some draft.entries

end ServiceInjection.Toml
