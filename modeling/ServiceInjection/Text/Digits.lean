/-!
# Text.Digits

Numbers written with the digits of ASCII, in bases up to sixteen, and characters
written by the number of their code point.
-/

namespace ServiceInjection.Text

/-- The value of a digit up to base sixteen. -/
def digitValue? (c : Char) : Option Nat :=
  if c.isDigit then some (c.toNat - '0'.toNat)
  else if 'a' ≤ c && c ≤ 'f' then some (c.toNat - 'a'.toNat + 10)
  else if 'A' ≤ c && c ≤ 'F' then some (c.toNat - 'A'.toNat + 10)
  else none

def isHexDigit (c : Char) : Bool := (digitValue? c).isSome

/-- The number that digits stand for. Anything else counts as zero. -/
def natOfDigits (base : Nat) (digits : List Char) : Nat :=
  digits.foldl (fun n c => n * base + (digitValue? c).getD 0) 0

/-- A digit in base sixteen, in lower case. -/
def hexDigit (n : Nat) : Char :=
  if n < 10 then Char.ofNat ('0'.toNat + n) else Char.ofNat ('a'.toNat + n - 10)

/-- Reads `width` digits in base sixteen. -/
def hexNumber? (width : Nat) (cs : List Char) : Option (Nat × List Char) :=
  let digits := cs.take width
  if digits.length == width && digits.all isHexDigit then
    some (natOfDigits 16 digits, cs.drop width)
  else none

/-- Reads a character by its code point, `width` digits in base sixteen. -/
def codePoint? (width : Nat) (cs : List Char) : Option (Char × List Char) := do
  let (code, rest) ← hexNumber? width cs
  if code.isValidChar then some (Char.ofNat code, rest) else none

end ServiceInjection.Text
