/-!
# Yaml.Cursor

A place in a YAML text. Lines end at a newline, a carriage return or both, and at
the line breaks of Unicode; a column counts characters.
-/

namespace ServiceInjection.Yaml

def isSpaceOrTab (c : Char) : Bool := c == ' ' || c == '\t'

/-- Whether a character ends a line. -/
def isBreak (c : Char) : Bool := ['\n', '\r', '\u0085', '\u2028', '\u2029'].contains c

/-- Whether what comes next ends a word: a space, a line break or the end of the
text. -/
def endsWord (next : Option Char) : Bool := next.all fun c => isSpaceOrTab c || isBreak c

/-- Whether what comes next ends the line. -/
def endsLine (next : Option Char) : Bool := next.all isBreak

/-- Whether a character may stand in a text. -/
def isAllowed (c : Char) : Bool :=
  c == '\t' || c == '\n' || c == '\r' || (' ' ≤ c && c ≤ '~') || c == '\u0085' ||
    ('\u00a0' ≤ c && c ≤ '\ufffd') || 0x10000 ≤ c.toNat

structure Cursor where
  /-- What follows the place. -/
  rest : List Char
  /-- The number of characters in front of it. -/
  index : Nat := 0
  line : Nat := 0
  column : Nat := 0
  deriving Repr

/-- Reads a line break: the character that stands for it, how many characters it
takes, and what follows. The line and paragraph separators stand for themselves. -/
def lineBreak? : List Char → Option (Char × Nat × List Char)
  | '\r' :: '\n' :: cs => some ('\n', 2, cs)
  | c :: cs =>
    if c == '\u2028' || c == '\u2029' then some (c, 1, cs)
    else if isBreak c then some ('\n', 1, cs)
    else none
  | [] => none

namespace Cursor

def next? (cursor : Cursor) : Option Char := cursor.rest.head?

/-- The character `n` places on. -/
def peek (cursor : Cursor) (n : Nat) : Option Char := cursor.rest[n]?

/-- Whether the next character is `c`. -/
def sees (cursor : Cursor) (c : Char) : Bool := cursor.next? == some c

/-- Moves over `n` characters of a line. -/
def skip (cursor : Cursor) (n : Nat) : Cursor :=
  { cursor with
    rest := cursor.rest.drop n, index := cursor.index + n, column := cursor.column + n }

/-- Moves over the characters of a line that `p` holds of. -/
def skipWhile (cursor : Cursor) (p : Char → Bool) : Cursor :=
  cursor.skip (cursor.rest.takeWhile p).length

/-- Moves to what is left of the same line when `rest` remains to be read. -/
def upTo (cursor : Cursor) (rest : List Char) : Cursor :=
  cursor.skip (cursor.rest.length - rest.length)

/-- Moves over a line break, if there is one. -/
def nextLine (cursor : Cursor) : Cursor :=
  match lineBreak? cursor.rest with
  | some (_, length, rest) => ⟨rest, cursor.index + length, cursor.line + 1, 0⟩
  | none => cursor

/-- Whether a line starts here with three times `c` and then a word ends. -/
def atIndicator (cursor : Cursor) (c : Char) : Bool :=
  cursor.column == 0 && cursor.rest.take 3 == [c, c, c] && endsWord (cursor.peek 3)

/-- Whether the start or the end of a document is marked here. -/
def atDocumentMark (cursor : Cursor) : Bool := cursor.atIndicator '-' || cursor.atIndicator '.'

end Cursor

/-! ### Gaps between words -/

/-- Spaces and line breaks between two words of a scalar. -/
structure Gap where
  spaces : List Char := []
  breaks : List Char := []

namespace Gap

/-- Whether the gap goes over the end of a line. -/
def hasBreak (gap : Gap) : Bool := !gap.breaks.isEmpty

/-- What a gap stands for: spaces for themselves, a single newline for a space, and
of more newlines the first for nothing. -/
def folded (gap : Gap) : List Char :=
  match gap.breaks with
  | [] => gap.spaces
  | ['\n'] => [' ']
  | '\n' :: more => more
  | breaks => breaks

end Gap

/-- Reads the rest of a gap. Behind a line break, a tab before column `level` is an
error. -/
def gapFrom (level : Nat) (seenBreak : Bool) (gap : Gap) (index line column : Nat) :
    List Char → Option (Gap × Cursor)
  | [] => some (gap, ⟨[], index, line, column⟩)
  | '\r' :: '\n' :: cs =>
    gapFrom level true { gap with breaks := gap.breaks ++ ['\n'] } (index + 2) (line + 1) 0 cs
  | c :: cs =>
    if isSpaceOrTab c then
      if seenBreak then
        if c == '\t' && column < level then none
        else gapFrom level true gap (index + 1) line (column + 1) cs
      else
        gapFrom level false { gap with spaces := gap.spaces ++ [c] } (index + 1) line
          (column + 1) cs
    else if isBreak c then
      let stands := if c == '\u2028' || c == '\u2029' then c else '\n'
      gapFrom level true { gap with breaks := gap.breaks ++ [stands] } (index + 1) (line + 1) 0 cs
    else some (gap, ⟨c :: cs, index, line, column⟩)

def Cursor.gap (cursor : Cursor) (level : Nat) (seenBreak : Bool) : Option (Gap × Cursor) :=
  gapFrom level seenBreak {} cursor.index cursor.line cursor.column cursor.rest

end ServiceInjection.Yaml
