import ServiceInjection.Yaml.Node

/-!
# Yaml.Data

The data that nodes stand for. A plain scalar may be null, a truth value or a
number; all others are strings. A tag that starts with an exclamation mark is kept
beside the data, and the tags of the basic types force one of them.
-/

namespace ServiceInjection.Yaml

/-- The data of a node. -/
inductive Data where
  | null
  | boolean (flag : Bool)
  | integer (number : Int)
  /-- A number `digits · 10 ^ exponent` whose digits do not end with a zero. -/
  | decimal (digits : Int) (exponent : Int)
  /-- Infinity, its opposite, or no number. -/
  | special (name : String)
  | string (text : String)
  | sequence (items : List Data)
  | mapping (entries : List (Data × Data))
  | tagged (tag : String) (data : Data)
  deriving Repr, BEq

namespace Data

/-- Data without its tags. -/
def untagged : Data → Data
  | .tagged _ data => untagged data
  | data => data

/-- The text of a string, tagged or not. -/
def text? (data : Data) : Option String :=
  match data.untagged with
  | .string text => some text
  | _ => none

end Data

/-! ### Plain scalars -/

/-- Whether a text stands for null. -/
def isNull (text : String) : Bool := ["null", "Null", "NULL", "~"].contains text

def boolean? (text : String) : Option Bool :=
  if ["true", "True", "TRUE"].contains text then some true
  else if ["false", "False", "FALSE"].contains text then some false
  else none

/-- The number that digits stand for in a base. -/
def digitsIn? (base : Nat) (cs : List Char) : Option Nat :=
  if cs.isEmpty then none
  else cs.foldlM (fun n c => do
    let digit ← Text.digitValue? c
    if digit < base then some (n * base + digit) else none) 0

/-- Whether zeros stand in front of a whole number, which makes it a string. -/
def hasLeadingZero (cs : List Char) : Bool :=
  let unsigned := match cs with
    | '-' :: rest => rest
    | '+' :: rest => rest
    | _ => cs
  1 < unsigned.length && unsigned.head? == some '0' && unsigned.all Char.isDigit

/-- A whole number without a sign, in base ten or behind the mark of another
base. -/
def magnitude? (cs : List Char) : Option Nat :=
  match cs with
  | '0' :: 'x' :: rest => digitsIn? 16 rest
  | '0' :: 'o' :: rest => digitsIn? 8 rest
  | '0' :: 'b' :: rest => digitsIn? 2 rest
  | _ => if hasLeadingZero cs then none else digitsIn? 10 cs

def integer? (cs : List Char) : Option Int :=
  match cs with
  | '-' :: rest => (magnitude? rest).map fun n => -(n : Int)
  | '+' :: rest => (magnitude? rest).map fun n => (n : Int)
  | _ => (magnitude? cs).map fun n => (n : Int)

/-- Whether a number fits in `bits` bits, with a sign if it is negative. -/
def fits (bits : Nat) (number : Int) : Bool :=
  -(Nat.pow 2 (bits - 1) : Int) ≤ number && number < (Nat.pow 2 bits : Int)

/-- The exponent behind its letter. -/
def exponentOf? : List Char → Option Int
  | [] => some 0
  | c :: cs =>
    if c == 'e' || c == 'E' then
      match cs with
      | '-' :: rest => (digitsIn? 10 rest).map fun n => -(n : Int)
      | '+' :: rest => (digitsIn? 10 rest).map fun n => (n : Int)
      | _ => (digitsIn? 10 cs).map fun n => (n : Int)
    else none

/-- Moves the zeros at the end of digits into the exponent. -/
def normalDecimal (negative : Bool) (digits : List Char) (exponent : Int) : Data :=
  let significant := (digits.reverse.dropWhile (· == '0')).reverse
  let value : Int := (digitsIn? 10 significant).getD 0
  if value == 0 then .decimal 0 0
  else .decimal (if negative then -value else value)
    (exponent + (digits.length - significant.length : Nat))

/-- A decimal number without a sign, unless it is too large to be finite. -/
def finite? (negative : Bool) (cs : List Char) : Option Data := do
  let whole := cs.takeWhile Char.isDigit
  let rest := cs.dropWhile Char.isDigit
  let (fraction, rest) := match rest with
    | '.' :: more => (more.takeWhile Char.isDigit, more.dropWhile Char.isDigit)
    | _ => ([], rest)
  let exponent ← exponentOf? rest
  let digits := whole ++ fraction
  let size : Int := (digits.dropWhile (· == '0')).length - fraction.length + exponent
  if digits.isEmpty || (309 < size && digits.any (· != '0')) then none
  else some (normalDecimal negative digits (exponent - fraction.length))

/-- A number that need not be whole. -/
def decimal? (cs : List Char) : Option Data :=
  let text := String.ofList cs
  if [".inf", ".Inf", ".INF", "+.inf", "+.Inf", "+.INF"].contains text then some (.special "inf")
  else if ["-.inf", "-.Inf", "-.INF"].contains text then some (.special "-inf")
  else if [".nan", ".NaN", ".NAN"].contains text then some (.special "nan")
  else match cs with
    | '-' :: rest => finite? true rest
    | '+' :: rest => finite? false rest
    | _ => finite? false cs

/-- The data of a plain scalar without a tag. A whole number of more than 64 bits
that fits in 128 is an error. -/
def plainData (text : String) : Option Data :=
  if text.isEmpty || isNull text then some .null
  else match boolean? text with
    | some flag => some (.boolean flag)
    | none =>
      let cs := text.toList
      match (integer? cs).filter (fits 128) with
      | some number => if fits 64 number then some (.integer number) else none
      | none =>
        let number := if hasLeadingZero cs then none else decimal? cs
        some (number.getD (.string text))

/-! ### Tags -/

/-- The tag of a basic type. -/
def basicTag (name : String) : String := "tag:yaml.org,2002:" ++ name

/-- What a tag that starts with an exclamation mark adds to data. -/
def localTag? (tag : Option String) : Option String := do
  match (← tag).toList with
  | '!' :: name => some (String.ofList name)
  | _ => none

/-- The data of a scalar with the tag of a basic type. -/
def basicData (tag text : String) : Option Data :=
  let cs := text.toList
  if tag == basicTag "bool" then (boolean? text).map .boolean
  else if tag == basicTag "int" then
    ((integer? cs).filter (fits 64)).map .integer
  else if tag == basicTag "float" then decimal? cs
  else if tag == basicTag "null" then (if isNull text then some .null else none)
  else some (.string text)

/-- The data of a scalar, tags that start with an exclamation mark apart. -/
def scalarData (tag : Option String) (style : Style) (text : String) : Option Data :=
  match tag, localTag? tag with
  | some tag, none => basicData tag text
  | _, _ => if style == .plain then plainData text else some (.string text)

/-- Keeps a tag that starts with an exclamation mark beside data; the tag must say
something. -/
def withTag (tag : Option String) (data : Data) : Option Data :=
  match localTag? tag with
  | none => some data
  | some name => if name.isEmpty then none else some (.tagged name data)

/-! ### Nodes -/

def hasRepeated : List Data → Bool
  | [] => false
  | key :: rest => rest.contains key || hasRepeated rest

/-- How deep collections may be. -/
def maxDepth : Nat := 128

/-- The data of a node whose collections are at most `depth` deep. No mapping has a
key twice. -/
def Document.data? (document : Document) : Nat → Node → Option Data
  | depth, node => do
    match ← document.resolve node with
    | .reference _ => none
    | .scalar tag style text => withTag tag (← scalarData tag style text)
    | .sequence tag items =>
      match depth with
      | 0 => none
      | depth + 1 => withTag tag (.sequence (← items.mapM (document.data? depth)))
    | .mapping tag entries =>
      match depth with
      | 0 => none
      | depth + 1 =>
        let entries ← entries.mapM fun (key, value) => do
          some (← document.data? depth key, ← document.data? depth value)
        if hasRepeated (entries.map (·.1)) then none else withTag tag (.mapping entries)

end ServiceInjection.Yaml
