/-!
# Text.Lines

Splitting a text into lines, or at given characters, and dropping its byte order
mark. A line ends at a line feed, with one carriage return in front of it; a line
feed at the very end starts no further line, and no other character ends a line.
-/

namespace ServiceInjection.Text

/-- The lines of a text, without their ends. -/
def lines : List Char → List (List Char)
  | [] => []
  | '\n' :: cs => [] :: lines cs
  | '\r' :: '\n' :: cs => [] :: lines cs
  | c :: cs =>
    match lines cs with
    | [] => [[c]]
    | line :: rest => (c :: line) :: rest

/-- The pieces between the characters that `isCut` accepts: one more than there
are cuts. -/
def splitBy (isCut : Char → Bool) : List Char → List (List Char)
  | [] => [[]]
  | c :: cs =>
    if isCut c then [] :: splitBy isCut cs
    else match splitBy isCut cs with
      | [] => [[c]]
      | piece :: rest => (c :: piece) :: rest

/-- Drops the byte order mark that a text may start with. -/
def dropMark : List Char → List Char
  | '\ufeff' :: cs => cs
  | cs => cs

end ServiceInjection.Text
