import ServiceInjection.Json.Basic
import ServiceInjection.Text.Digits

/-!
# Json.Render

Writing JSON, on one line or with two spaces for each level. Only the quote, the
backslash and control characters are escaped.
-/

namespace ServiceInjection.Json

def escapeChar (c : Char) : List Char :=
  match c with
  | '"' => ['\\', '"']
  | '\\' => ['\\', '\\']
  | '\x08' => ['\\', 'b']
  | '\x0c' => ['\\', 'f']
  | '\n' => ['\\', 'n']
  | '\r' => ['\\', 'r']
  | '\t' => ['\\', 't']
  | c =>
    if c < ' ' then
      ['\\', 'u', '0', '0', Text.hexDigit (c.toNat / 16), Text.hexDigit (c.toNat % 16)]
    else [c]

def quote (text : String) : String :=
  String.ofList ('"' :: text.toList.flatMap escapeChar ++ ['"'])

/-- How the parts of a value are set apart: the line break and indentation in front
of an item at a depth, and what stands behind a colon. -/
structure Layout where
  newline : Nat → String
  afterColon : String

def Layout.compact : Layout := ⟨fun _ => "", ""⟩

def Layout.pretty : Layout :=
  ⟨fun depth => "\n" ++ String.ofList (List.replicate (2 * depth) ' '), " "⟩

/-- Items between brackets, given as texts. -/
def bracketed (layout : Layout) (depth : Nat) (opening closing : String) (items : List String) :
    String :=
  if items.isEmpty then opening ++ closing
  else
    let inner := layout.newline (depth + 1)
    opening ++ inner ++ ("," ++ inner).intercalate items ++ layout.newline depth ++ closing

mutual

def render (layout : Layout) (depth : Nat) : Json → String
  | .null => "null"
  | .bool flag => if flag then "true" else "false"
  | .integer number => toString number
  | .real text => text
  | .string text => quote text
  | .array items => bracketed layout depth "[" "]" (renderItems layout (depth + 1) items)
  | .object fields => bracketed layout depth "\x7b" "\x7d" (renderFields layout (depth + 1) fields)

def renderItems (layout : Layout) (depth : Nat) : List Json → List String
  | [] => []
  | item :: rest => render layout depth item :: renderItems layout depth rest

def renderFields (layout : Layout) (depth : Nat) : List (String × Json) → List String
  | [] => []
  | (name, value) :: rest =>
    (quote name ++ ":" ++ layout.afterColon ++ render layout depth value) ::
      renderFields layout depth rest

end

def compact (json : Json) : String := json.render .compact 0

def pretty (json : Json) : String := json.render .pretty 0

end ServiceInjection.Json
