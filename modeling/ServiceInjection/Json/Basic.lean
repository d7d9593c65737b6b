/-!
# Json.Basic

JSON values, and reading the parts that a message has to have. A part that does
not decode gives no value.
-/

namespace ServiceInjection

inductive Json where
  | null
  | bool (flag : Bool)
  | integer (number : Int)
  /-- A number with a fraction or an exponent, or one that is too large to be
  counted with, as written. -/
  | real (text : String)
  | string (text : String)
  | array (items : List Json)
  | object (fields : List (String × Json))
  deriving Inhabited, Repr

namespace Json

def nat (n : Nat) : Json := .integer n

def texts (items : List String) : Json := .array (items.map .string)

def orNull {α : Type} (encode : α → Json) : Option α → Json
  | some value => encode value
  | none => .null

/-! ### Decoding -/

def text? : Json → Option String
  | .string text => some text
  | _ => none

def number? (least greatest : Int) : Json → Option Int
  | .integer n => if least ≤ n && n ≤ greatest then some n else none
  | _ => none

def nat32? (json : Json) : Option Nat := (number? 0 0xFFFFFFFF json).map Int.toNat

def int32? (json : Json) : Option Int := number? (-0x80000000) 0x7FFFFFFF json

def list? {α : Type} (decode : Json → Option α) : Json → Option (List α)
  | .array items => items.mapM decode
  | _ => none

/-- A value that may be null. -/
def nullable? {α : Type} (decode : Json → Option α) : Json → Option (Option α)
  | .null => some none
  | json => (decode json).map some

/-- A field of an object; the last one counts. -/
def get? (name : String) : Json → Option Json
  | .object fields => fields.reverse.lookup name
  | _ => none

def field? {α : Type} (decode : Json → Option α) (name : String) (json : Json) : Option α := do
  decode (← json.get? name)

/-- A field that may be missing or null. -/
def optional? {α : Type} (decode : Json → Option α) (name : String) (json : Json) :
    Option (Option α) :=
  match json.get? name with
  | some value => nullable? decode value
  | none => some none

def isObject : Json → Bool
  | .object _ => true
  | _ => false

end Json

end ServiceInjection
