import ServiceInjection.Outline.Head
import ServiceInjection.Outline.Methods

/-!
# Outline.Members

The walk over a class body, line by line. At the depth of the members each line
is a comment, an attribute, a trait use, a method, a constant, a property or
something else; a member is read to its end and the walk goes on behind it. A doc
comment belongs to the member that follows it, with attributes and blank lines in
between.
-/

namespace ServiceInjection

open Text

/-! ### Recognising members -/

def isTraitUse (code : List Char) : Bool :=
  ((literal "use" (blanks code)).bind someBlanks).any fun cs =>
    (word (skipChar '\\' cs)).isSome

/-- The head of a method: the text of its modifiers, its name, and the index of
the parenthesis that opens its parameters. -/
structure MethodHead where
  modifiers : List Char
  name : String
  paren : Nat
  deriving DecidableEq, Repr

def MethodHead.isStatic (head : MethodHead) : Bool := containsText "static" head.modifiers

/-- The head of the method that a line of code starts with. -/
def MethodHead.of? (code : List Char) : Option MethodHead := do
  let start := skipAttributes (blanks code)
  let cs := skipModifiers ["public", "protected", "private", "static", "abstract", "final"] start
  let modifiers := start.take (start.length - cs.length)
  let cs ← literal "function" cs
  let cs ← someBlanks cs
  let (name, cs) ← word (blanks (skipChar '&' cs))
  let rest ← literal "(" (blanks cs)
  some ⟨modifiers, String.ofList name, code.length - rest.length - 1⟩

def isConstant (code : List Char) : Bool :=
  let cs := skipModifiers ["public", "protected", "private", "final"] (blanks code)
  ((literal "const" cs).bind someBlanks).isSome

/-! ### The walk -/

/-- What is known in front of a line of the body. -/
structure MemberScan where
  members : Members := {}
  /-- The doc comment that waits for its member. -/
  doc : Option LineSpan := none
  /-- The brace depth below the members. -/
  depth : Int := 0
  /-- The first line not yet read. -/
  resume : Nat := 0

namespace MemberScan

/-- The last line of the comment that starts on line `n`, among the lines in front
of `limit`. -/
def commentEnd (source : Source) (n limit : Nat) : Nat :=
  let closes := fun l =>
    let text := if l == n then (trimStart (source.raw l)).drop 2 else source.raw l
    containsText "*/" text
  ((Source.span n (limit - 1)).find? closes).getD n

/-- The last line of the attribute that line `n` starts with, if nothing follows
the attribute there. -/
def attributeEnd (source : Source) (n : Nat) : Option Nat := do
  let code := source.code n
  guard (startsWith "#[" (trimStart code))
  let close ← source.matchingClose ⟨n, (leadingBlanks code).length⟩ '[' ']'
  guard (isBlankLine ((source.code close.line).drop (close.col + 1)))
  some close.line

/-- The last line of the trait use that starts on line `n`. -/
def traitUseEnd (source : Source) (n : Nat) : Nat :=
  match source.firstOf ⟨n, 0⟩ [';', '{'] with
  | none => n
  | some glyph =>
    if glyph.char == ';' then glyph.spot.line
    else match source.matchingClose glyph.spot '{' '}' with
      | some close => close.line
      | none => glyph.spot.line

/-- The properties that a constructor promotes from its parameters. -/
def promotedFields (ctor : Constructor) : List Field :=
  (ctor.params.filter (·.promoted)).map fun param =>
    { name := param.name, line := ctor.startLine, typeHint := param.typeHint, doc := none
      promoted := true }

/-- Adds a method with a body. The first constructor and the first factory are
kept. -/
def addMethod (source : Source) (members : Members) (head : MethodHead) (layout : MethodLayout)
    (doc : Option LineSpan) : Members :=
  let method : Method :=
    ⟨head.name, ⟨layout.paramsOpen.line, layout.bodyClose.line⟩, doc, head.isStatic⟩
  if sameName head.name "__construct" then
    let ctor := Constructor.ofLayout source layout doc
    { members with
      fields := members.fields ++ promotedFields ctor
      constructor := members.constructor.or (some ctor)
      methods := members.methods ++ [method] }
  else if head.name == "create" && head.isStatic then
    { members with
      factory := members.factory.or (some (Factory.ofLayout source layout doc))
      methods := members.methods ++ [method] }
  else { members with methods := members.methods ++ [method] }

/-- Reads the method that starts on line `n`. One without a body ends at its
semicolon. -/
def readMethod (source : Source) (scan : MemberScan) (n : Nat) (head : MethodHead) : MemberScan :=
  match MethodLayout.at? source ⟨n, head.paren⟩ with
  | some layout =>
    { scan with
      members := addMethod source scan.members head layout scan.doc
      doc := none
      resume := layout.bodyClose.line + 1 }
  | none =>
    let last := source.lineOfFirst n ';'
    let method : Method := ⟨head.name, ⟨n, last⟩, scan.doc, head.isStatic⟩
    { scan with
      members := { scan.members with methods := scan.members.methods ++ [method] }
      doc := none
      resume := last + 1 }

/-- Reads the property declared on line `n`. -/
def readProperty (source : Source) (scan : MemberScan) (n : Nat) (decl : VariableDecl) :
    MemberScan :=
  let field : Field :=
    { name := String.ofList decl.name, line := n, typeHint := decl.typeHint.map String.ofList
      doc := scan.doc, promoted := false }
  { scan with
    members := { scan.members with fields := scan.members.fields ++ [field] }
    doc := none
    resume := source.lineOfFirst n ';' + 1 }

/-- Reads a line with code at the depth of the members. -/
def readMember (source : Source) (scan : MemberScan) (n : Nat) : MemberScan :=
  let code := source.code n
  if isTraitUse code then
    let last := traitUseEnd source n
    { scan with
      members := { scan.members with traitUses := scan.members.traitUses ++ [⟨n, last⟩] }
      doc := none
      resume := last + 1 }
  else match MethodHead.of? code with
    | some head => readMethod source scan n head
    | none =>
      if isConstant code then { scan with doc := none, resume := source.lineOfFirst n ';' + 1 }
      else match propertyDecl code with
        | some decl => readProperty source scan n decl
        | none =>
          { scan with doc := none, depth := scan.depth + source.braceBalance n, resume := n + 1 }

/-- Reads line `n` of a body that ends on line `limit`. -/
def step (source : Source) (limit : Nat) (scan : MemberScan) (n : Nat) : MemberScan :=
  if n < scan.resume then scan
  else if 0 < scan.depth then
    { scan with depth := scan.depth + source.braceBalance n, resume := n + 1 }
  else
    let text := trimStart (source.raw n)
    if startsWith "/*" text then
      let last := commentEnd source n limit
      { scan with
        doc := if startsWith "/**" text then some ⟨n, last⟩ else none
        resume := last + 1 }
    else match attributeEnd source n with
      | some last => { scan with resume := last + 1 }
      | none =>
        if isBlankLine (source.code n) then { scan with resume := n + 1 }
        else readMember source scan n

end MemberScan

/-- The members of the body between the braces on two different lines. -/
def Members.ofBody (source : Source) (openLine closeLine : Nat) : Members :=
  ((Source.span (openLine + 1) (closeLine - 1)).foldl (MemberScan.step source closeLine) {}).members

end ServiceInjection
