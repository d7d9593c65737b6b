/-!
# Edit.Basic

Edits of a text. A position is a line and a column in UTF-16 units; an edit puts
a new text in place of a range.
-/

namespace ServiceInjection

structure Position where
  line : Nat
  column : Nat
  deriving DecidableEq, Repr

def Position.le (a b : Position) : Bool :=
  a.line < b.line || (a.line == b.line && a.column ≤ b.column)

/-- A range of text from `start` up to `stop`. -/
structure Range where
  start : Position
  stop : Position
  deriving DecidableEq, Repr

structure Edit where
  description : String
  range : Range
  text : String
  deriving DecidableEq, Repr

namespace Edit

def insert (description : String) (line column : Nat) (text : String) : Edit :=
  ⟨description, ⟨⟨line, column⟩, ⟨line, column⟩⟩, text⟩

/-- The edit that replaces whole lines up to `endColumn` of the last one. -/
def replaceLines (description : String) (first last endColumn : Nat) (text : String) : Edit :=
  ⟨description, ⟨⟨first, 0⟩, ⟨last, endColumn⟩⟩, text⟩

def isInsertion (edit : Edit) : Bool := edit.range.start == edit.range.stop

def sameEffect (a b : Edit) : Bool := a.range == b.range && a.text == b.text

end Edit

end ServiceInjection
