import ServiceInjection.Outline.Basic
import ServiceInjection.Source.Basic
import ServiceInjection.Text.Blank

/-!
# Wiring.Style

How a class is laid out, so that new members look like the old ones: the
indentation of its members and where its braces stand.
-/

namespace ServiceInjection

/-- The layout of a class. -/
structure CodeStyle where
  memberIndent : String
  /-- One step of indentation. -/
  unit : String
  braceOnOwnLine : Bool
  deriving DecidableEq, Repr

namespace CodeStyle

/-- The lines on which the members of a class start; promoted properties have no
line of their own. -/
def memberLines (members : Members) : List Nat :=
  members.traitUses.map (·.first) ++ (members.fields.filter (!·.promoted)).map (·.line) ++
    members.methods.map (·.span.first)

/-- The layout of a class. The members are indented like the first one if that is
indented deeper than the class, and by `defaultUnit` otherwise. -/
def detect (outline : Outline) (source : Source) (defaultUnit : String) : CodeStyle :=
  let indentOf := fun n => Text.leadingBlanks (source.raw n)
  let outer := indentOf outline.decl.line
  let braceOnOwnLine := outline.decl.openBraceLine != outline.decl.line
  let fallback : CodeStyle := ⟨String.ofList outer ++ defaultUnit, defaultUnit, braceOnOwnLine⟩
  match (memberLines outline.toMembers).min? with
  | none => fallback
  | some n =>
    let indent := indentOf n
    if outer.length < indent.length && outer.isPrefixOf indent then
      ⟨String.ofList indent, String.ofList (indent.drop outer.length), braceOnOwnLine⟩
    else fallback

def bodyIndent (style : CodeStyle) : String := style.memberIndent ++ style.unit

/-- What follows a signature on its last line. -/
def openBrace (style : CodeStyle) : String := if style.braceOnOwnLine then "" else " \x7b"

end CodeStyle

end ServiceInjection
