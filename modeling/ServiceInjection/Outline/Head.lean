import ServiceInjection.Outline.Basic
import ServiceInjection.Source.Basic
import ServiceInjection.Text.Recognize

/-!
# Outline.Head

The heads of class declarations: recognising one on a line, the clauses behind
the name, the comments and attributes in front, and the innermost declaration
whose body encloses a line.
-/

namespace ServiceInjection

open Text

/-! ### Recognising a head -/

/-- Skips any number of the given words, each with blanks behind it. -/
def skipModifiers (words : List String) (cs : List Char) : List Char :=
  match (oneOf words cs).bind (fun hit => someBlanks hit.2) with
  | none => cs
  | some rest => if rest.length < cs.length then skipModifiers words rest else cs
termination_by cs.length

/-- The head of a declaration, and the index of the cell behind it. -/
structure Head where
  kind : ClassKind
  name : String
  stop : Nat
  deriving DecidableEq, Repr

def ClassKind.ofKeyword (keyword : String) : ClassKind :=
  match keyword with
  | "class" => .namedClass
  | "trait" => .trait
  | "interface" => .interface
  | _ => .enum

/-- Reads a named declaration at the start of a line: modifiers, a keyword and a
name. -/
def namedHead (code : List Char) : Option Head := do
  let cs := skipModifiers ["final", "abstract", "readonly"] (blanks code)
  let (keyword, cs) ← oneOf ["class", "trait", "interface", "enum"] cs
  let cs ← someBlanks cs
  let (name, rest) ← word cs
  some ⟨.ofKeyword keyword, String.ofList name, code.length - rest.length⟩

/-- Reads `new class`, where `readonly` may stand in between and no longer word
follows. -/
def anonymousClass (cs : List Char) : Option (Unit × List Char) := do
  let cs ← literal "new" cs
  let cs ← someBlanks cs
  let cs := ((literal "readonly" cs).bind someBlanks).getD cs
  let cs ← literal "class" cs
  if outsideWord cs.head? then some ((), cs) else none

/-- Finds an anonymous class anywhere in a line. -/
def anonymousHead (code : List Char) : Option Head :=
  (firstWordMatch anonymousClass code).map fun m =>
    ⟨.anonymousClass, "class@anonymous", m.stop⟩

/-- The declaration head of a line of code. -/
def Head.of? (code : List Char) : Option Head := (namedHead code).or (anonymousHead code)

/-- The line of the first named declaration or, without any, of the first
anonymous one. -/
def Source.firstDeclaration (source : Source) : Option Nat :=
  let numbers := List.range source.size
  (numbers.find? fun n => (namedHead (source.code n)).isSome).or
    (numbers.find? fun n => (anonymousHead (source.code n)).isSome)

/-! ### Clauses -/

/-- Reads `extends` and the parent behind it. -/
def extendsClause (cs : List Char) : Option (List Char × List Char) := do
  let cs ← literal "extends" cs
  let cs ← someBlanks cs
  run isNameChar cs

/-- Reads `implements` and everything that may belong to a list of names. -/
def implementsClause (cs : List Char) : Option (List Char × List Char) := do
  let cs ← literal "implements" cs
  let isListChar := fun c => isNameChar c || isBlank c || c == ','
  let list := cs.takeWhile isListChar
  match list with
  | first :: _ :: _ => if isBlank first then some (list, cs.dropWhile isListChar) else none
  | _ => none

def parentOf (header : List Char) : Option String :=
  (firstWordMatch extendsClause header).map (String.ofList ·.value)

def interfacesOf (header : List Char) : List String :=
  match firstWordMatch implementsClause header with
  | some m => (((splitBy (· == ',') m.value).map trim).filter (!·.isEmpty)).map String.ofList
  | none => []

/-! ### Comments and attributes in front -/

/-- The nearest line at or above line `n` that opens a block comment, or the first
line of the source. -/
def Source.commentStart (source : Source) : Nat → Nat
  | 0 => 0
  | n + 1 => if containsText "/*" (source.raw (n + 1)) then n + 1 else source.commentStart n

/-- How many lines above the end of an attribute its start is looked for. -/
def attributeReach : Nat := 50

/-- The first line of the comment or attribute that ends on line `n`. -/
def Source.blockEndingAt (source : Source) (n : Nat) : Option Nat :=
  let text := trim (source.raw n)
  if endsWith "*/" text then some (source.commentStart n)
  else if startsWith "#[" text then some n
  else if endsWith "]" text then
    let reach := min n attributeReach
    (List.range' (n - reach) reach).reverse.find? fun l =>
      startsWith "#[" (trimStart (source.raw l))
  else none

/-- The first line of the comments and attributes in front of line `n`. -/
def Source.leadingLine (source : Source) (n : Nat) : Nat :=
  match n with
  | 0 => 0
  | before + 1 =>
    match source.blockEndingAt before with
    | none => before + 1
    | some start => if start ≤ before then source.leadingLine start else before + 1
termination_by n

/-! ### Enclosing declaration -/

/-- Whether a piece of code holds a character that no class header holds. -/
def endsHeader (code : List Char) : Bool := code.any (";\x7b\x7d()".toList.contains ·)

/-- Looks for a declaration head on the `count` lines above line `n`, as far as
they can belong to a header. -/
def Source.headAbove (source : Source) : Nat → Nat → Option Nat
  | 0, _ => none
  | _, 0 => none
  | count + 1, n + 1 =>
    if (Head.of? (source.code n)).isSome then some n
    else if endsHeader (source.code n) then none
    else source.headAbove count n

/-- How many lines a header may have above the line of its brace. -/
def headerReach : Nat := 4

/-- The line of the declaration whose body the brace at `spot` opens. -/
def Source.headOfBrace (source : Source) (spot : Spot) : Option Nat :=
  let before := (source.code spot.line).take spot.col
  if (Head.of? before).isSome then some spot.line
  else if endsHeader before then none
  else source.headAbove headerReach spot.line

/-- Walks backwards over code characters, nearest first. Of the braces not closed
on the way, with `closes` more closing ones met, the first that opens a class
decides. -/
def Source.enclosingBefore (source : Source) : Nat → List Glyph → Option Nat
  | _, [] => none
  | closes, glyph :: rest =>
    if glyph.char == '}' then source.enclosingBefore (closes + 1) rest
    else if glyph.char == '{' then
      match closes with
      | closes + 1 => source.enclosingBefore closes rest
      | 0 =>
        match source.headOfBrace glyph.spot with
        | some n => some n
        | none => source.enclosingBefore 0 rest
    else source.enclosingBefore closes rest

/-- The line of the declaration that a cursor on line `n` refers to: the one on
that line, or else the innermost class whose body holds the line. -/
def Source.enclosingDeclaration (source : Source) (n : Nat) : Option Nat :=
  if source.size ≤ n then none
  else if (Head.of? (source.code n)).isSome then some n
  else source.enclosingBefore 0 (source.glyphs.takeWhile (·.spot.line ≤ n)).reverse

end ServiceInjection
