/-!
# Text.Units

Measures of a text in UTF-16 code units and in UTF-8 bytes, and the conversion
between the two ways to name a place in a line: editors count columns in UTF-16
units, files count bytes. Both are read off the characters, so a place inside a
character is never produced.
-/

namespace ServiceInjection.Text

/-- The number of UTF-16 code units of a character: two outside the basic plane. -/
def units16 (c : Char) : Nat := if c.toNat < 0x10000 then 1 else 2

def width16 : List Char → Nat
  | [] => 0
  | c :: cs => units16 c + width16 cs

def width8 : List Char → Nat
  | [] => 0
  | c :: cs => c.utf8Size + width8 cs

/-- The shortest prefix that reaches column `column`, or the whole line when it is
shorter. A column inside a character reaches to its end. -/
def upToColumn (column : Nat) : List Char → List Char
  | [] => []
  | c :: cs => if column = 0 then [] else c :: upToColumn (column - units16 c) cs

def byteOfColumn (line : List Char) (column : Nat) : Nat := width8 (upToColumn column line)

/-- The prefix of exactly `bytes` bytes, or the whole line when it is shorter;
nothing when the cut would fall inside a character. -/
def upToByte? : Nat → List Char → Option (List Char)
  | _, [] => some []
  | bytes, c :: cs =>
    if bytes = 0 then some []
    else if c.utf8Size ≤ bytes then (upToByte? (bytes - c.utf8Size) cs).map (c :: ·)
    else none

/-- The column of a byte offset; nothing when it lies inside a character. -/
def columnOfByte? (line : List Char) (bytes : Nat) : Option Nat :=
  (upToByte? bytes line).map width16

end ServiceInjection.Text
