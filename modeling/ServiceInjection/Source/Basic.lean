import ServiceInjection.Source.Mask
import ServiceInjection.Text.Lines

/-!
# Source.Basic

A source text as masked lines, the places in it, and the stream of its code
characters. Searches that cross lines (the next brace, the bracket that closes
another) run on that stream.
-/

namespace ServiceInjection

/-- A place in a source: a line and the index of a cell in it, both from zero. -/
structure Spot where
  line : Nat
  col : Nat
  deriving DecidableEq, Repr

/-- Whether a place comes before another in the text. -/
def Spot.before (a b : Spot) : Bool := a.line < b.line || (a.line == b.line && a.col < b.col)

/-- The place one cell further on the same line. -/
def Spot.next (spot : Spot) : Spot := ⟨spot.line, spot.col + 1⟩

/-- A code character and its place. -/
structure Glyph where
  spot : Spot
  char : Char
  deriving DecidableEq, Repr

/-- The glyphs of one line's code, whose first character has index `col`. -/
def lineGlyphs (line : Nat) : Nat → List Char → List Glyph
  | _, [] => []
  | col, c :: cs => ⟨⟨line, col⟩, c⟩ :: lineGlyphs line (col + 1) cs

/-- The glyphs of successive lines, the first of which has number `n`. -/
def glyphsOf : Nat → List Line → List Glyph
  | _, [] => []
  | n, line :: rest => lineGlyphs n 0 line.code ++ glyphsOf (n + 1) rest

/-- A source text: its masked lines, and its code characters in text order. -/
structure Source where
  lines : List Line
  glyphs : List Glyph := glyphsOf 0 lines
  glyphs_eq : glyphs = glyphsOf 0 lines := by rfl

namespace Source

def ofLines (lines : List Line) : Source := { lines }

/-- Splits a text into lines and masks them. -/
def ofText (text : String) : Source := ofLines (maskLines .code (Text.lines text.toList))

def size (source : Source) : Nat := source.lines.length

/-- A line, empty behind the last one. -/
def line (source : Source) (n : Nat) : Line := source.lines.getD n []

def raw (source : Source) (n : Nat) : List Char := (source.line n).raw

def code (source : Source) (n : Nat) : List Char := (source.line n).code

def braceBalance (source : Source) (n : Nat) : Int := (source.line n).braceBalance

/-- The line numbers from `first` up to and including `last`. -/
def span (first last : Nat) : List Nat := List.range' first (last + 1 - first)

/-- The code characters at or behind a place. -/
def glyphsFrom (source : Source) (spot : Spot) : List Glyph :=
  source.glyphs.dropWhile (·.spot.before spot)

/-- The first code character at or behind `spot` that is one of `targets`. -/
def firstOf (source : Source) (spot : Spot) (targets : List Char) : Option Glyph :=
  (source.glyphsFrom spot).find? (targets.contains ·.char)

/-- The line of the first `target` at or behind the start of line `n`, or `n`
itself when there is none. -/
def lineOfFirst (source : Source) (n : Nat) (target : Char) : Nat :=
  match source.firstOf ⟨n, 0⟩ [target] with
  | some glyph => glyph.spot.line
  | none => n

/-- The place where the brackets opened so far, `depth` of them, are all closed. -/
def closeIn (opening closing : Char) : Int → List Glyph → Option Spot
  | _, [] => none
  | depth, glyph :: rest =>
    if glyph.char == opening then closeIn opening closing (depth + 1) rest
    else if glyph.char == closing then
      if depth - 1 == 0 then some glyph.spot else closeIn opening closing (depth - 1) rest
    else closeIn opening closing depth rest

/-- The bracket that closes the one at `spot`. -/
def matchingClose (source : Source) (spot : Spot) (opening closing : Char) : Option Spot :=
  closeIn opening closing 0 (source.glyphsFrom spot)

/-- The cell that stands for a line end in a piece of several lines. -/
def lineEnd : Cell := .show '\n'

/-- The cells from `first` up to but not including `last`, with line ends between
lines. -/
def slice (source : Source) (first last : Spot) : Line :=
  if first.line == last.line then
    ((source.line first.line).take last.col).drop first.col
  else
    let inner := (span (first.line + 1) (last.line - 1)).map source.line
    (source.line first.line).drop first.col ++ lineEnd ::
      (inner.flatMap (· ++ [lineEnd])) ++ (source.line last.line).take last.col

/-- The cells strictly between two places. -/
def between (source : Source) (opening closing : Spot) : Line := source.slice opening.next closing

end Source

end ServiceInjection
