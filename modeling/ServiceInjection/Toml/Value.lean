/-!
# Toml.Value

The values of a TOML document. A table remembers how it came about, since that
decides whether later lines may add to it.
-/

namespace ServiceInjection.Toml

/-- How a table came about. -/
inductive Origin where
  /-- It has a header of its own, or is the document itself. -/
  | header
  /-- Only the header of a table inside it was seen. -/
  | implied
  /-- A dotted key named it. -/
  | dotted
  /-- It was written in braces, which closes it. -/
  | inline
  deriving DecidableEq, Repr

inductive Value where
  | string (text : String)
  | integer (number : Int)
  /-- A number with a fraction or an exponent, as written. -/
  | float (text : String)
  | boolean (flag : Bool)
  /-- A date, a time or both, as written. -/
  | moment (text : String)
  | array (items : List Value)
  /-- The tables of headers in double brackets. -/
  | tables (rows : List (List (String × Value)))
  | table (origin : Origin) (entries : List (String × Value))
  deriving Repr

/-- The entries of a table in the order of their first mention. -/
abbrev Entries := List (String × Value)

namespace Entries

def get? (entries : Entries) (key : String) : Option Value := entries.lookup key

/-- Puts a value in place of the one that a key has. -/
def replace (entries : Entries) (key : String) (value : Value) : Entries :=
  entries.map fun entry => if entry.1 == key then (key, value) else entry

def add (entries : Entries) (key : String) (value : Value) : Option Entries :=
  if (entries.get? key).isSome then none else some (entries ++ [(key, value)])

end Entries

end ServiceInjection.Toml
