import ServiceInjection.Source.Cell
import ServiceInjection.Text.Blank

/-!
# Source.Commas

Splitting a list in source text, such as parameters or arguments, at the commas
that no bracket pair encloses. Brackets and commas count only where they are
code. The pieces keep their cells, so the text and the code of an entry always
belong together.
-/

namespace ServiceInjection

/-- How a code character changes the bracket depth. -/
def depthChange (c : Char) : Int :=
  if c == '(' || c == '[' || c == '\x7b' then 1
  else if c == ')' || c == ']' || c == '\x7d' then -1
  else 0

/-- Splits at the commas of depth zero, starting at depth `depth`. -/
def splitCommasAt (depth : Int) : Line → List Line
  | [] => [[]]
  | cell :: rest =>
    if cell.code == ',' && depth == 0 then [] :: splitCommasAt depth rest
    else match splitCommasAt (depth + depthChange cell.code) rest with
      | [] => [[cell]]
      | piece :: pieces => (cell :: piece) :: pieces

/-- Splits at the top-level commas: one piece more than there are such commas. -/
def splitCommas (cells : Line) : List Line := splitCommasAt 0 cells

/-- An entry of a list in source text: its text and its masked text, both without
the blanks around them. -/
structure Entry where
  text : List Char
  masked : List Char

def Entry.ofCells (cells : Line) : Entry := ⟨Text.trim cells.raw, Text.trim cells.masked⟩

/-- A list in source text: the entries that hold code, and whether a comma with no
code behind it ends the list. -/
structure EntryList where
  entries : List Entry
  trailingComma : Bool

/-- Reads the entries of a list from the cells between its brackets. An entry
without code, such as a comment, is dropped. -/
def EntryList.ofCells (cells : Line) : EntryList :=
  let all := (splitCommas cells).map Entry.ofCells
  { entries := all.filter (!·.masked.isEmpty)
    trailingComma := all.length > 1 &&
      (match all.getLast? with
        | some entry => entry.masked.isEmpty
        | none => false) }

end ServiceInjection
