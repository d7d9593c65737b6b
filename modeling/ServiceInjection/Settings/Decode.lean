import ServiceInjection.Settings.Basic
import ServiceInjection.Toml.Reader

/-!
# Settings.Decode

Settings from a TOML document. Every entry may be missing and unknown ones are
passed over, but an entry of the wrong type makes the document unusable.
-/

namespace ServiceInjection.Settings

open Toml (Value Entries)

def text? : Value → Option String
  | .string text => some text
  | _ => none

def entries? : Value → Option Entries
  | .table _ entries => some entries
  | _ => none

def flag? : Value → Option Bool
  | .boolean flag => some flag
  | _ => none

/-- The value of a key, or `absent` if there is none. -/
def entry {α : Type} (decode : Value → Option α) (absent : α) (entries : Entries)
    (key : String) : Option α :=
  match entries.get? key with
  | some value => decode value
  | none => some absent

/-- A string that may be missing. -/
def someText? (value : Value) : Option (Option String) := (text? value).map some

/-- The entry of a service: a table, or an array of the interface, the property
name and the description. -/
def service? (id : String) : Value → Option ServiceEntry
  | .table _ entries => do
    some {
      serviceId := id
      interface := ← text? (← Entries.get? entries "interface")
      field := ← entry someText? none entries "field"
      description := ← entry someText? none entries "description" }
  | .array (interface :: rest) => do
    some {
      serviceId := id
      interface := ← text? interface
      field := ← rest[0]?.elim (some none) someText?
      description := ← rest[1]?.elim (some none) someText? }
  | _ => none

/-- The roles of additional parents. -/
def roles? (value : Value) : Option RoleMapping := do
  (← entries? value).mapM fun (name, tag) => do some (name, Role.ofTag (← text? tag))

def services? (value : Value) : Option (List ServiceEntry) := do
  (← entries? value).mapM fun (id, entry) => service? id entry

def ofEntries (entries : Entries) : Option Settings := do
  some {
    indent := ← entry text? ({} : Settings).indent entries "indent"
    strictServices := ← entry flag? false entries "strict_services"
    baseClassRoles := ← entry roles? [] entries "base_class_roles"
    services := ← entry services? [] entries "services" }

def parse (text : String) : Option Settings := do ofEntries (← Toml.parse text)

/-- Why a settings file cannot be used. -/
inductive LoadError where
  /-- The file is not valid UTF-8. -/
  | unreadable
  /-- The text does not describe settings. -/
  | invalid
  deriving DecidableEq, Repr

/-- The settings in the bytes of a file. -/
def ofBytes (bytes : ByteArray) : Except LoadError Settings :=
  match String.fromUTF8? bytes with
  | none => .error .unreadable
  | some text =>
    match parse text with
    | none => .error .invalid
    | some settings => .ok settings

end ServiceInjection.Settings
