/-!
# Text.Blank

Blank characters (the Unicode property `White_Space`) and trimming. The no-break
space and the line separators are blank; the zero-width space is not.
-/

namespace ServiceInjection.Text

/-- Whether `c` has the property `White_Space`. -/
def isBlank (c : Char) : Bool :=
  let n := c.toNat
  (0x09 ≤ n && n ≤ 0x0D) || n == 0x20 || n == 0x85 || n == 0xA0 || n == 0x1680 ||
    (0x2000 ≤ n && n ≤ 0x200A) || n == 0x2028 || n == 0x2029 || n == 0x202F ||
    n == 0x205F || n == 0x3000

def trimStart (cs : List Char) : List Char := cs.dropWhile isBlank

def trimEnd (cs : List Char) : List Char := (cs.reverse.dropWhile isBlank).reverse

def trim (cs : List Char) : List Char := trimEnd (trimStart cs)

/-- The blanks a line starts with. -/
def leadingBlanks (cs : List Char) : List Char := cs.takeWhile isBlank

/-- Whether a line holds blanks only. -/
def isBlankLine (cs : List Char) : Bool := cs.all isBlank

end ServiceInjection.Text
