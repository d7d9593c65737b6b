/-!
# Toml.Moment

Dates and times of TOML: a date, a time, or both with an optional distance from
universal time. The day has to exist in its month, and seconds may be left out.
-/

namespace ServiceInjection.Toml

/-- Reads a number of exactly `width` digits. -/
def fixedNumber : Nat → Nat → List Char → Option (Nat × List Char)
  | 0, value, cs => some (value, cs)
  | _ + 1, _, [] => none
  | width + 1, value, c :: cs =>
    if c.isDigit then fixedNumber width (value * 10 + (c.toNat - '0'.toNat)) cs else none

def expectChar (c : Char) : List Char → Option (List Char)
  | d :: cs => if c == d then some cs else none
  | [] => none

def isLeapYear (year : Nat) : Bool := year % 4 == 0 && (year % 100 != 0 || year % 400 == 0)

def daysOfMonth (year month : Nat) : Nat :=
  if month == 2 then (if isLeapYear year then 29 else 28)
  else if [4, 6, 9, 11].contains month then 30
  else 31

def date? (cs : List Char) : Option (List Char) := do
  let (year, cs) ← fixedNumber 4 0 cs
  let (month, cs) ← fixedNumber 2 0 (← expectChar '-' cs)
  let (day, cs) ← fixedNumber 2 0 (← expectChar '-' cs)
  guard (1 ≤ month && month ≤ 12 && 1 ≤ day && day ≤ daysOfMonth year month)
  some cs

/-- Reads the fraction of a second, if there is one. -/
def fraction? : List Char → Option (List Char)
  | '.' :: cs => if cs.head?.any Char.isDigit then some (cs.dropWhile Char.isDigit) else none
  | cs => some cs

def time? (cs : List Char) : Option (List Char) := do
  let (hour, cs) ← fixedNumber 2 0 cs
  let (minute, cs) ← fixedNumber 2 0 (← expectChar ':' cs)
  guard (hour ≤ 23 && minute ≤ 59)
  match cs with
  | ':' :: cs =>
    let (second, cs) ← fixedNumber 2 0 cs
    guard (second ≤ 60)
    fraction? cs
  | cs => some cs

/-- Whether a text is a distance from universal time. -/
def isOffset : List Char → Bool
  | ['Z'] => true
  | ['z'] => true
  | c :: cs => (c == '+' || c == '-') &&
    (do
      let (hour, cs) ← fixedNumber 2 0 cs
      let (minute, cs) ← fixedNumber 2 0 (← expectChar ':' cs)
      some (cs.isEmpty && hour ≤ 23 && minute ≤ 59)) == some true
  | [] => false

def isDate (cs : List Char) : Bool := date? cs == some []

/-- Whether a text is a date, a time or both. -/
def isMoment (cs : List Char) : Bool :=
  match date? cs with
  | some [] => true
  | some (separator :: rest) =>
    ['T', 't', ' '].contains separator && (time? rest).any fun cs => cs.isEmpty || isOffset cs
  | none => time? cs == some []

end ServiceInjection.Toml
