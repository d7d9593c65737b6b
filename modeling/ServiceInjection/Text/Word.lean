import ServiceInjection.Text.Alphabetic
import ServiceInjection.Text.Mark
import ServiceInjection.Text.Number

/-!
# Text.Word

The characters that names are made of. Two classes are needed, and they differ:
a *word* character may belong to an identifier (letters, marks, decimal digits,
connectors such as the underscore, and the two joiners), while an *alphanumeric*
character is a letter or a numeral of any kind.
-/

namespace ServiceInjection.Text

/-- The connector punctuation above ASCII. -/
def connectorRanges : List Nat :=
  [8255, 2, 19, 1, 56798, 2, 24, 3, 239, 1]

/-- Whether `c` joins letters without showing: U+200C or U+200D. -/
def isJoiner (c : Char) : Bool := c.toNat == 0x200C || c.toNat == 0x200D

/-- Whether `c` may stand in a word. In ASCII these are letters, digits and the
underscore. -/
def isWord (c : Char) : Bool :=
  if c.toNat < 0x80 then c.isAlphanum || c == '_'
  else isAlphabetic c || isMark c || isDecimalDigit c || inRanges connectorRanges c || isJoiner c

/-- Whether `c` is a letter or a numeral. -/
def isAlphanumeric (c : Char) : Bool :=
  if c.toNat < 0x80 then c.isAlphanum else isAlphabetic c || isNumeric c

end ServiceInjection.Text
