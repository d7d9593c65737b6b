/-!
# Text.Ranges

Membership of a character in a table of code point ranges. The tables of the
character properties (`Text.Alphabetic`, `Text.Mark`, `Text.Number`,
`Text.Casing`) give the lengths of the ranges from code point 0 on, one outside
the property and one inside it in turn, and leave out ASCII, which each property
decides by itself. They are those of Unicode 16.
-/

namespace ServiceInjection.Text

/-- Whether the code point `n`, counted from the start of a table, lies inside. -/
def insideRanges : List Nat → Nat → Bool
  | outside :: inside :: rest, n =>
    outside ≤ n && (n < outside + inside || insideRanges rest (n - (outside + inside)))
  | _, _ => false

/-- Whether the code point of `c` lies in one of the ranges. -/
def inRanges (ranges : List Nat) (c : Char) : Bool := insideRanges ranges c.toNat

end ServiceInjection.Text
