import ServiceInjection.Text.Lines

/-!
# Text.Names

Names derived from other names: the short name of a qualified class name, the
property and parameter names derived from a service id, and the wording of an id
in a comment.
-/

namespace ServiceInjection.Text

/-- Drops the backslashes in front of a qualified name. -/
def dropRoot (name : List Char) : List Char := name.dropWhile (· == '\\')

def unrooted (name : String) : String := String.ofList (dropRoot name.toList)

/-- The last segment of a qualified name. -/
def shortName (name : String) : String :=
  String.ofList ((dropRoot name.toList).reverse.takeWhile (· != '\\')).reverse

/-- Drops separators and capitalises the character after each; `capital` tells
whether one has just been dropped. -/
def camelTail (capital : Bool) : List Char → List Char
  | [] => []
  | c :: cs =>
    if c.isAlphanum then (if capital then c.toUpper else c) :: camelTail false cs
    else camelTail true cs

/-- `camelTail` behind a first character in lower case. -/
def camelWord : List Char → List Char
  | [] => []
  | c :: cs => if c.isAlphanum then c.toLower :: camelTail false cs else camelWord cs

/-- Puts an underscore in front of a name that starts with a digit. -/
def guardDigit : List Char → List Char
  | [] => []
  | c :: cs => if c.isDigit then '_' :: c :: cs else c :: cs

/-- The property name of a service id: `entity_type.manager` gives
`entityTypeManager`. Only ASCII letters and digits are kept. -/
def camelCase (id : String) : String := String.ofList (guardDigit (camelWord id.toList))

/-- Each capital in lower case behind an underscore. -/
def snakeTail : List Char → List Char
  | [] => []
  | c :: cs => if c.isUpper then '_' :: c.toLower :: snakeTail cs else c :: snakeTail cs

/-- The parameter name of a property: `entityTypeManager` gives
`entity_type_manager`. A capital in front gets no underscore. -/
def snakeCase (name : String) : String :=
  match name.toList with
  | [] => ""
  | c :: cs => String.ofList (c.toLower :: snakeTail cs)

/-- A service id in words: `entity_type.manager` gives `entity type manager`. -/
def humanName (id : String) : String :=
  let words := (splitBy (fun c => c == '.' || c == '_' || c == '-' || c == '\\') id.toList).filter
    (!·.isEmpty)
  String.ofList ([' '].intercalate words)

/-- Equality up to the case of ASCII letters. -/
def sameName (a b : String) : Bool := a.toList.map Char.toLower == b.toList.map Char.toLower

end ServiceInjection.Text
