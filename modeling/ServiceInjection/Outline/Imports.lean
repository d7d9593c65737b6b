import ServiceInjection.Outline.Head

/-!
# Outline.Imports

The classes that a file imports in front of its first class. One statement may
name several classes, separated by commas or grouped in braces behind a common
start; functions and constants are left out. Within a namespace in braces the
statements stand one level deeper.
-/

namespace ServiceInjection

open Text

/-! ### One statement -/

/-- A class named in a `use` statement, and its new name. -/
structure ImportClause where
  name : List Char
  newName : Option (List Char)
  deriving DecidableEq, Repr

/-- Drops the first character if it is a backslash and something follows it. -/
def dropLeadingBackslash : List Char → List Char
  | '\\' :: c :: cs => c :: cs
  | cs => cs

/-- Reads a name and an optional `as` clause that make up the whole text. -/
def ImportClause.of? (cs : List Char) : Option ImportClause := do
  let (name, rest) ← run isNameChar cs
  match rest with
  | [] => some ⟨dropLeadingBackslash name, none⟩
  | _ =>
    let rest ← someBlanks rest
    let rest ← literal "as" rest
    let rest ← someBlanks rest
    let (newName, rest) ← word rest
    if rest.isEmpty then some ⟨dropLeadingBackslash name, some newName⟩ else none

/-- The common start and the members of a group import, `Start\{A, B}`, that makes
up the whole text. -/
def groupImport (cs : List Char) : Option (List Char × List Char) := do
  let (start, rest) ← run isNameChar cs
  let rest ← literal "\x7b" rest
  let (members, rest) ← upTo '}' rest
  if rest.isEmpty then
    some ((dropLeadingBackslash start).reverse.dropWhile (· == '\\') |>.reverse, members)
  else none

/-- The pieces of a list of clauses. -/
def clauses (cs : List Char) : List ImportClause :=
  ((splitBy (· == ',') cs).map trim).filterMap ImportClause.of?

/-- The body of a `use` statement: what stands between the keyword and the
semicolon, without the blanks around it. -/
def useBody (statement : List Char) : Option (List Char) := do
  let cs ← literal "use" (blanks statement)
  let cs ← someBlanks cs
  let (body, _) ← upTo ';' cs
  some (trim body)

/-- The classes that a `use` statement imports. -/
def importsOf (statement : List Char) (line : Nat) : List Import :=
  match useBody statement with
  | none => []
  | some body =>
    let entry := fun (name : List Char) (newName : Option (List Char)) =>
      (⟨String.ofList name, newName.map String.ofList, line⟩ : Import)
    if startsWith "function " body || startsWith "const " body then []
    else match groupImport body with
      | some (start, members) =>
        (clauses members).map fun c => entry (start ++ '\\' :: c.name) c.newName
      | none => (clauses body).map fun c => entry c.name c.newName

/-! ### All statements -/

/-- Reads a namespace declaration and gives the character that ends it. -/
def namespaceEnd (code : List Char) : Option Char := do
  let cs ← literal "namespace" (blanks code)
  let cs ← someBlanks cs
  let (_, cs) ← run isNameChar cs
  match blanks cs with
  | ';' :: _ => some ';'
  | '{' :: _ => some '{'
  | _ => none

/-- What is known in front of a line. -/
structure ImportScan where
  imports : List Import := []
  namespaceLine : Option Nat := none
  depth : Int := 0
  inBraces : Bool := false
  /-- The first line not yet read. -/
  resume : Nat := 0
  done : Bool := false

namespace ImportScan

/-- The brace depth that imports may have. -/
def importDepth (scan : ImportScan) : Int := if scan.inBraces then 1 else 0

/-- Adds imports, each name once. -/
def add (imports new : List Import) : List Import :=
  new.foldl
    (fun known entry => if known.any (sameName ·.name entry.name) then known else known ++ [entry])
    imports

/-- Whether a line of code starts an import. -/
def startsImport (code : List Char) : Bool :=
  let cs := trimStart code
  (startsWith "use " cs || startsWith "use\t" cs) && !startsWith "use (" cs

/-- Notes the namespace declared on line `n`, if any. -/
def noteNamespace (scan : ImportScan) (code : List Char) (n : Nat) : ImportScan :=
  match namespaceEnd code with
  | none => scan
  | some stop => { scan with namespaceLine := some n, inBraces := scan.inBraces || stop == '{' }

/-- Reads line `n`. A statement is read up to the line of its semicolon. -/
def step (source : Source) (scan : ImportScan) (n : Nat) : ImportScan :=
  if scan.done || n < scan.resume then scan
  else
    let code := source.code n
    if scan.depth ≤ scan.importDepth && (namedHead code).isSome then { scan with done := true }
    else
      let scan := scan.noteNamespace code n
      if scan.depth ≤ scan.importDepth && startsImport code then
        let last := source.lineOfFirst n ';'
        let lines := Source.span n last
        let statement := [' '].intercalate (lines.map fun l => trim (source.raw l))
        { scan with
          imports := add scan.imports (importsOf statement last)
          depth := lines.foldl (fun depth l => depth + source.braceBalance l) scan.depth
          resume := last + 1 }
      else { scan with depth := scan.depth + source.braceBalance n, resume := n + 1 }

/-- Reads a source up to its first class. -/
def run (source : Source) : ImportScan := (List.range source.size).foldl (step source) {}

end ImportScan

end ServiceInjection
