import ServiceInjection.Text.Blank
import ServiceInjection.Text.Word

/-!
# Text.Recognize

Recognisers for short pieces of code. A recogniser reads a prefix of its input
and gives back what follows it; the ones here are greedy and never need to give
a character back, so larger ones are plain sequences in the `Option` monad. Two
searches run a recogniser over a line: `firstMatch` finds the leftmost place
where it succeeds, `allMatches` the successive places that do not overlap.
-/

namespace ServiceInjection.Text

/-! ### Pieces -/

/-- Reads the characters of `expected`. -/
def literalChars : List Char → List Char → Option (List Char)
  | [], cs => some cs
  | _ :: _, [] => none
  | e :: es, c :: cs => if e == c then literalChars es cs else none

def literal (expected : String) (cs : List Char) : Option (List Char) :=
  literalChars expected.toList cs

/-- Skips `c` if it comes next. -/
def skipChar (c : Char) : List Char → List Char
  | [] => []
  | d :: cs => if c == d then cs else d :: cs

def blanks (cs : List Char) : List Char := cs.dropWhile isBlank

/-- Reads one blank or more. -/
def someBlanks : List Char → Option (List Char)
  | c :: cs => if isBlank c then some (blanks cs) else none
  | [] => none

/-- Reads the longest run of at least one character that `accepts` holds of. -/
def run (accepts : Char → Bool) (cs : List Char) : Option (List Char × List Char) :=
  match cs.takeWhile accepts with
  | [] => none
  | taken => some (taken, cs.dropWhile accepts)

def word (cs : List Char) : Option (List Char × List Char) := run isWord cs

/-- Whether `c` may stand in a qualified name. -/
def isNameChar (c : Char) : Bool := isWord c || c == '\\'

/-- Reads up to the next `stop`, which is read but not given back. -/
def upTo (stop : Char) (cs : List Char) : Option (List Char × List Char) :=
  match cs.dropWhile (· != stop) with
  | [] => none
  | _ :: rest => some (cs.takeWhile (· != stop), rest)

/-- Reads a literal in single or double quotes, without escapes. -/
def quoted : List Char → Option (List Char × List Char)
  | '\'' :: cs => upTo '\'' cs
  | '"' :: cs => upTo '"' cs
  | _ => none

/-- Reads one of several words given literally, the first that fits. -/
def oneOf (words : List String) (cs : List Char) : Option (String × List Char) :=
  words.findSome? fun w => (literal w cs).map (w, ·)

/-! ### Searches -/

/-- A place where a recogniser succeeded: the indices of its first character and
of the one behind its last, and what it read. -/
structure Match (α : Type) where
  start : Nat
  stop : Nat
  value : α

/-- The matches of `recognize` from left to right. `skip` characters belong to the
match before; `index` counts the characters passed. -/
def matchesFrom {α : Type} (recognize : List Char → Option (α × List Char)) :
    Nat → Nat → List Char → List (Match α)
  | _, _, [] => []
  | skip + 1, index, _ :: cs => matchesFrom recognize skip (index + 1) cs
  | 0, index, c :: cs =>
    match recognize (c :: cs) with
    | some (value, rest) =>
      let length := (c :: cs).length - rest.length
      ⟨index, index + length, value⟩ :: matchesFrom recognize (length - 1) (index + 1) cs
    | none => matchesFrom recognize 0 (index + 1) cs

/-- The successive matches of a recogniser that reads at least one character. -/
def allMatches {α : Type} (recognize : List Char → Option (α × List Char)) (cs : List Char) :
    List (Match α) :=
  matchesFrom recognize 0 0 cs

/-- The leftmost match at index `index` or later; `allowed` judges the character
in front of a match. -/
def firstMatchFrom {α : Type} (allowed : Option Char → Bool)
    (recognize : List Char → Option (α × List Char)) :
    Option Char → Nat → List Char → Option (Match α)
  | _, _, [] => none
  | before, index, c :: cs =>
    match (if allowed before then recognize (c :: cs) else none) with
    | some (value, rest) => some ⟨index, index + ((c :: cs).length - rest.length), value⟩
    | none => firstMatchFrom allowed recognize (some c) (index + 1) cs

/-- The leftmost match. -/
def firstMatch {α : Type} (recognize : List Char → Option (α × List Char)) (cs : List Char) :
    Option (Match α) :=
  firstMatchFrom (fun _ => true) recognize none 0 cs

/-- Whether a neighbour of a word ends it: no word character, or none at all. -/
def outsideWord (neighbour : Option Char) : Bool :=
  match neighbour with
  | some c => !isWord c
  | none => true

/-- The leftmost match that starts a word. -/
def firstWordMatch {α : Type} (recognize : List Char → Option (α × List Char)) (cs : List Char) :
    Option (Match α) :=
  firstMatchFrom outsideWord recognize none 0 cs

/-- Whether `needle` occurs in a text. -/
def containsChars (needle : List Char) : List Char → Bool
  | [] => needle.isEmpty
  | c :: cs => needle.isPrefixOf (c :: cs) || containsChars needle cs

/-- Whether the text `needle` occurs. -/
def containsText (needle : String) (cs : List Char) : Bool := containsChars needle.toList cs

def startsWith (start : String) (cs : List Char) : Bool := start.toList.isPrefixOf cs

def endsWith (ending : String) (cs : List Char) : Bool := ending.toList.isSuffixOf cs

end ServiceInjection.Text
