import ServiceInjection.Outline.Imports
import ServiceInjection.Outline.Members

/-!
# Outline.Analyze

The outline of a class in a source text: of the first class, or of the innermost
one around a line.
-/

namespace ServiceInjection.Outline

/-- The outline of the class declared on line `n`; nothing if the declaration has
no body or its body is not closed. -/
def ofDeclaration (source : Source) (n : Nat) : Option Outline := do
  let head ← Head.of? (source.code n)
  let opening ← source.firstOf ⟨n, head.stop⟩ ['{', ';']
  guard (opening.char == '{')
  let close ← source.matchingClose opening.spot '{' '}'
  let header := (source.slice ⟨n, head.stop⟩ opening.spot).masked
  let imports := ImportScan.run source
  let members :=
    if opening.spot.line == close.line then {}
    else Members.ofBody source opening.spot.line close.line
  some {
    toMembers := members
    imports := imports.imports
    namespaceLine := imports.namespaceLine
    decl := {
      kind := head.kind
      name := head.name
      parent := parentOf header
      interfaces := interfacesOf header
      line := n
      leadingLine := source.leadingLine n
      openBraceLine := opening.spot.line
      closeBraceLine := close.line } }

def first? (source : Source) : Option Outline := source.firstDeclaration.bind (ofDeclaration source)

/-- The outline of the class that a cursor on line `n` refers to. -/
def at? (source : Source) (n : Nat) : Option Outline :=
  (source.enclosingDeclaration n).bind (ofDeclaration source)

end ServiceInjection.Outline
