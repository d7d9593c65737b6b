import ServiceInjection.Toml.Value

/-!
# Toml.Table

Adding to the tables of a document. A key is set once. A header opens a table that
is not there yet or was only implied; a dotted key goes through tables that dotted
keys named, and into one of those.
-/

namespace ServiceInjection.Toml

/-- A key with the keys of the tables around it. -/
structure KeyPath where
  parents : List String
  last : String
  deriving DecidableEq, Repr

namespace KeyPath

/-- All keys from the outside in. -/
def all (path : KeyPath) : List String := path.parents ++ [path.last]

end KeyPath

namespace Entries

/-- Changes the table at a path, for a header. Tables that are missing on the way
are implied; a row of tables stands for its last one. -/
def within (change : Entries → Option Entries) : List String → Entries → Option Entries
  | [], entries => change entries
  | key :: path, entries =>
    match entries.get? key with
    | none => do
      let inner ← within change path []
      some (entries ++ [(key, .table .implied inner)])
    | some (.table origin inner) =>
      if origin == .inline then none
      else do
        let inner ← within change path inner
        some (entries.replace key (.table origin inner))
    | some (.tables rows) => do
      let last ← rows.getLast?
      let last ← within change path last
      some (entries.replace key (.tables (rows.dropLast ++ [last])))
    | some _ => none

/-- Sets the value of a dotted key. -/
def assign (value : Value) (last : String) : List String → Entries → Option Entries
  | [], entries => entries.add last value
  | key :: path, entries =>
    match entries.get? key with
    | none => do
      let inner ← assign value last path []
      some (entries ++ [(key, .table .dotted inner)])
    | some (.table origin inner) =>
      if origin == .dotted || (origin == .implied && !path.isEmpty) then do
        let inner ← assign value last path inner
        some (entries.replace key (.table origin inner))
      else none
    | some (.tables rows) =>
      if path.isEmpty then none
      else do
        let row ← rows.getLast?
        let row ← assign value last path row
        some (entries.replace key (.tables (rows.dropLast ++ [row])))
    | some _ => none

/-- Opens the table of a header. -/
def openTable (path : KeyPath) (document : Entries) : Option Entries :=
  within (fun entries =>
    match entries.get? path.last with
    | none => entries.add path.last (.table .header [])
    | some (.table .implied inner) => some (entries.replace path.last (.table .header inner))
    | some _ => none) path.parents document

/-- Opens the next table of a header in double brackets. -/
def openRow (path : KeyPath) (document : Entries) : Option Entries :=
  within (fun entries =>
    match entries.get? path.last with
    | none => entries.add path.last (.tables [[]])
    | some (.tables rows) => some (entries.replace path.last (.tables (rows ++ [[]])))
    | some _ => none) path.parents document

/-- Sets dotted keys one after the other. -/
def assignAll (entries : Entries) (assignments : List (KeyPath × Value)) : Option Entries :=
  assignments.foldlM (fun entries (path, value) => entries.assign value path.last path.parents)
    entries

end Entries

end ServiceInjection.Toml
