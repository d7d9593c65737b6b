/-!
# Source.Cell

A line of source text in which every character knows whether it is code. The
content of string literals and comments is hidden: structure is read from the
code, text is always taken from the characters themselves. Both views have the
same places, so a place found in one can be used in the other.
-/

namespace ServiceInjection

/-- A character of a line, shown if it is code and hidden if it belongs to a
comment or to the inside of a string literal. -/
structure Cell where
  char : Char
  shown : Bool
  deriving DecidableEq, Repr

/-- The character as code: a hidden one reads as a space. -/
def Cell.code (cell : Cell) : Char := if cell.shown then cell.char else ' '

/-- The character as masked text: a hidden one becomes one space for each of its
bytes, so that masked text has as many bytes as the text itself. -/
def Cell.masked (cell : Cell) : List Char :=
  if cell.shown then [cell.char] else List.replicate cell.char.utf8Size ' '

/-- A line of cells. -/
abbrev Line := List Cell

namespace Line

def raw (line : Line) : List Char := line.map Cell.char

/-- The code of a line, one character per cell. -/
def code (line : Line) : List Char := line.map Cell.code

/-- The masked text of a line, byte for byte as long as the line. -/
def masked (line : Line) : List Char := line.flatMap Cell.masked

def text (line : Line) : String := String.ofList line.raw

/-- Whether the cell at index `i` is code. -/
def isCodeAt (cells : Line) (i : Nat) : Bool :=
  match cells[i]? with
  | some cell => cell.shown
  | none => false

def braceBalance (line : Line) : Int :=
  (line.code.count '\x7b' : Int) - line.code.count '\x7d'

end Line

end ServiceInjection
