import ServiceInjection.Source.Cell

/-!
# Source.Mask

Telling code from comments and string literals, one line at a time. A block
comment or a string literal may go on over several lines, so each line is read in
the mode that the line before it ended in. The quotes around a literal are code;
an attribute, which starts with a number sign and a bracket, is code too, while
any other number sign starts a comment. The bodies of heredocs are not
recognised.
-/

namespace ServiceInjection

/-- What the next character belongs to. -/
inductive Mode where
  | code
  /-- A comment that ends with a star and a slash. -/
  | comment
  /-- A string literal that ends with the quote `quote`. -/
  | literal (quote : Char)
  deriving DecidableEq, Repr

def Cell.show (c : Char) : Cell := ⟨c, true⟩

def Cell.hide (c : Char) : Cell := ⟨c, false⟩

/-- Puts cells in front of a masked rest. -/
def prependCells (cells : List Cell) (rest : Line × Mode) : Line × Mode :=
  (cells ++ rest.1, rest.2)

/-- Masks one line read in the given mode, and tells the mode of the next line. -/
def maskLine : Mode → List Char → Line × Mode
  | mode, [] => ([], mode)
  | .comment, '*' :: '/' :: cs => prependCells [.hide '*', .hide '/'] (maskLine .code cs)
  | .comment, c :: cs => prependCells [.hide c] (maskLine .comment cs)
  | .literal quote, '\\' :: c :: cs =>
    prependCells [.hide '\\', .hide c] (maskLine (.literal quote) cs)
  | .literal quote, c :: cs =>
    if c == quote then prependCells [.show c] (maskLine .code cs)
    else prependCells [.hide c] (maskLine (.literal quote) cs)
  | .code, '/' :: '/' :: cs => (('/' :: '/' :: cs).map .hide, .code)
  | .code, '/' :: '*' :: cs => prependCells [.hide '/', .hide '*'] (maskLine .comment cs)
  | .code, '#' :: '[' :: cs => prependCells [.show '#', .show '['] (maskLine .code cs)
  | .code, '#' :: cs => (('#' :: cs).map .hide, .code)
  | .code, c :: cs =>
    if c == '\'' || c == '"' then prependCells [.show c] (maskLine (.literal c) cs)
    else prependCells [.show c] (maskLine .code cs)

/-- Masks successive lines, each in the mode that the one before it ended in. -/
def maskLines : Mode → List (List Char) → List Line
  | _, [] => []
  | mode, line :: rest =>
    let (masked, next) := maskLine mode line
    masked :: maskLines next rest

end ServiceInjection
