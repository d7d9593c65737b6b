import ServiceInjection.Text.Digits

/-!
# Toml.Number

Numbers of TOML. Digits may be parted by single underscores. A whole number has to
fit in 128 bits, and a float must not be so large that it rounds to infinity.
-/

namespace ServiceInjection.Toml

open Text

/-- The digits of a run in which single underscores may stand between digits. -/
def digitRun (isDigit : Char → Bool) : List Char → Option (List Char)
  | [] => none
  | [c] => if isDigit c then some [c] else none
  | c :: '_' :: cs => if isDigit c then (digitRun isDigit cs).map (c :: ·) else none
  | c :: d :: cs => if isDigit c then (digitRun isDigit (d :: cs)).map (c :: ·) else none

/-- The digits of a decimal number without needless zeros in front. -/
def decimalDigits (cs : List Char) : Option (List Char) :=
  match digitRun Char.isDigit cs with
  | some ('0' :: _ :: _) => none
  | digits => digits

/-- A whole number that fits in 128 bits. -/
def fitting (number : Int) : Option Int :=
  if -(Nat.pow 2 127 : Int) ≤ number && number < (Nat.pow 2 128 : Int) then some number else none

/-- A whole number in base `base`, behind its mark. -/
def based (base : Nat) (isDigit : Char → Bool) (cs : List Char) : Option Int := do
  fitting (natOfDigits base (← digitRun isDigit cs))

def integer? : List Char → Option Int
  | '0' :: 'x' :: cs => based 16 isHexDigit cs
  | '0' :: 'o' :: cs => based 8 (fun c => '0' ≤ c && c ≤ '7') cs
  | '0' :: 'b' :: cs => based 2 (fun c => c == '0' || c == '1') cs
  | '-' :: cs => do fitting (-(natOfDigits 10 (← decimalDigits cs) : Int))
  | '+' :: cs => do fitting (natOfDigits 10 (← decimalDigits cs))
  | cs => do fitting (natOfDigits 10 (← decimalDigits cs))

/-! ### Floats -/

/-- Whether `digits · 10 ^ exponent` rounds to infinity: it is at least half a step
above the largest finite number of 64 bits. -/
def roundsToInfinity (digits : List Char) (exponent : Int) : Bool :=
  let significant := digits.dropWhile (· == '0')
  let magnitude : Int := significant.length + exponent
  if significant.isEmpty || magnitude < 309 then false
  else if 310 < magnitude then true
  else
    let bound := Nat.pow 2 1024 - Nat.pow 2 970
    let number := natOfDigits 10 significant
    if 0 ≤ exponent then bound ≤ number * Nat.pow 10 exponent.toNat
    else bound * Nat.pow 10 (-exponent).toNat ≤ number

/-- A whole number with an optional sign, zeros in front allowed. -/
def exponent? : List Char → Option Int
  | '-' :: cs => do some (-(natOfDigits 10 (← digitRun Char.isDigit cs) : Int))
  | '+' :: cs => do some (natOfDigits 10 (← digitRun Char.isDigit cs))
  | cs => do some (natOfDigits 10 (← digitRun Char.isDigit cs))

/-- Whether a character starts an exponent. -/
def startsExponent (c : Char) : Bool := c == 'e' || c == 'E'

/-- Whether a text without a sign is a finite float. -/
def isFiniteFloat (cs : List Char) : Bool :=
  let mantissa := cs.takeWhile (!startsExponent ·)
  let whole := decimalDigits (mantissa.takeWhile (· != '.'))
  let fraction := match mantissa.dropWhile (· != '.') with
    | [] => some []
    | _ :: digits => digitRun Char.isDigit digits
  let exponent := match cs.dropWhile (!startsExponent ·) with
    | [] => some 0
    | _ :: rest => exponent? rest
  match whole, fraction, exponent with
  | some whole, some fraction, some exponent =>
    (cs.any (· == '.') || cs.any startsExponent) &&
      !roundsToInfinity (whole ++ fraction) (exponent - fraction.length)
  | _, _, _ => false

def isFloat (cs : List Char) : Bool :=
  let unsigned := match cs with
    | '-' :: rest => rest
    | '+' :: rest => rest
    | _ => cs
  unsigned == "inf".toList || unsigned == "nan".toList || isFiniteFloat unsigned

end ServiceInjection.Toml
