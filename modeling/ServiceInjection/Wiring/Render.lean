import ServiceInjection.Role.Basic
import ServiceInjection.Text.Casing
import ServiceInjection.Text.Recognize
import ServiceInjection.Text.Units
import ServiceInjection.Wiring.Binding
import ServiceInjection.Wiring.Style

/-!
# Wiring.Render

The text of new and extended members: property declarations, constructors, doc
comments and factory methods.
-/

namespace ServiceInjection.Render

open Text

/-- The longest line, in UTF-16 units, that a list of parameters is kept on. -/
def maxWidth : Nat := 80

/-- Whether a line is short enough. -/
def fits (line : String) : Bool := width16 line.toList ≤ maxWidth

def joinLines (lines : List String) : String := "\n".intercalate lines

/-- Puts a comma behind each entry but the last, and behind that one too if
`trailing` holds. -/
def withCommas (trailing : Bool) : List String → List String
  | [] => []
  | [entry] => [if trailing then entry ++ "," else entry]
  | entry :: rest => (entry ++ ",") :: withCommas trailing rest

/-- The lines of a list with one entry a line. -/
def listLines (indent : String) (trailing : Bool) (entries : List String) : List String :=
  (withCommas trailing entries).map (indent ++ ·)

/-! ### Imports -/

/-- The statements that import the given classes, ordered without regard to
case. -/
def imports (names : List String) : String :=
  let ordered := names.mergeSort fun a b => decide (lowercase a ≤ lowercase b)
  joinLines (ordered.map fun name => "use " ++ name ++ ";")

/-! ### Properties -/

def field (style : CodeStyle) (binding : Binding) : String :=
  let indent := style.memberIndent
  let hint := match binding.typeHint with
    | some hint => hint ++ " "
    | none => ""
  joinLines [
    indent ++ "/**",
    indent ++ " * The " ++ binding.description ++ ".",
    indent ++ " *",
    indent ++ " * @var " ++ binding.docType,
    indent ++ " */",
    indent ++ "protected " ++ hint ++ "$" ++ binding.field ++ ";"]

/-- The declarations of properties, with a blank line between each two. -/
def fields (style : CodeStyle) (bindings : List Binding) : String :=
  "\n\n".intercalate (bindings.map (field style))

/-! ### Signatures and doc comments -/

def paramDoc (indent docType variableText description : String) : List String :=
  [indent ++ " * @param " ++ docType ++ " " ++ variableText, indent ++ " *   " ++ description]

/-- The lines that document the parameters of bindings. -/
def bindingDocs (indent : String) (bindings : List Binding) : List String :=
  bindings.flatMap fun binding =>
    paramDoc indent binding.docType ("$" ++ binding.param) ("The " ++ binding.description ++ ".")

/-- The lines of a signature: on one line if that is short enough, with one
parameter a line otherwise. -/
def signature (style : CodeStyle) (head : String) (params : List String) : List String :=
  let indent := style.memberIndent
  let single := indent ++ head ++ "(" ++ ", ".intercalate params ++ ")" ++ style.openBrace
  let lines :=
    if fits single || params.isEmpty then [single]
    else (indent ++ head ++ "(") :: listLines (indent ++ style.unit) false params ++
      [indent ++ ")" ++ style.openBrace]
  if style.braceOnOwnLine then lines ++ [indent ++ "\x7b"] else lines

def freshParams (conventions : Conventions) (bindings : List Binding) : List String :=
  conventions.leadingParams.map (·.declaration) ++ bindings.map (·.declaration)

/-- A new constructor for a class of the given name. -/
def freshConstructor (style : CodeStyle) (className : String) (conventions : Conventions)
    (bindings : List Binding) : String :=
  let indent := style.memberIndent
  let summary :=
    if className.toList.contains '@' then "Constructs the object."
    else "Constructs a new " ++ className ++ " object."
  joinLines (
    [indent ++ "/**", indent ++ " * " ++ summary, indent ++ " *"] ++
    conventions.leadingParams.flatMap
      (fun param => paramDoc indent param.docType param.expression param.description) ++
    bindingDocs indent bindings ++
    [indent ++ " */"] ++
    signature style "public function __construct" (freshParams conventions bindings) ++
    conventions.preamble.toList.map (style.bodyIndent ++ ·) ++
    (bindings.filter (!·.promoted)).map (·.assignment style.bodyIndent) ++
    [indent ++ "\x7d"])

/-! ### Extending a doc comment -/

/-- Drops `piece` from the start of a text as often as it stands there. -/
def dropRepeats (piece : List Char) (cs : List Char) : List Char :=
  match literalChars piece cs with
  | none => cs
  | some rest => if rest.length < cs.length then dropRepeats piece rest else cs
termination_by cs.length

/-- The text of a doc comment on one line, without its delimiters. -/
def docText (line : List Char) : List Char :=
  let opened := dropRepeats "/**".toList (trim line)
  trim (dropRepeats "/*".toList opened.reverse).reverse

/-- Whether a line of a doc comment holds a star only. -/
def isBlankDocLine (line : String) : Bool := trim line.toList == ['*']

/-- Whether a line of a doc comment starts with a tag. -/
def isTagLine (line : String) : Bool := startsWith "* @" (trimStart line.toList)

/-- Whether a line of a doc comment starts with a parameter tag. -/
def isParamLine (line : String) : Bool := startsWith "* @param" (trimStart line.toList)

/-- The index of the last line that `test` holds of. -/
def lastIndex? (test : String → Bool) (lines : List String) : Option Nat :=
  (lines.reverse.findIdx? test).map fun i => lines.length - 1 - i

/-- Inserts lines in front of the line with the given index. -/
def insertAt (index : Nat) (new lines : List String) : List String :=
  lines.take index ++ new ++ lines.drop index

/-- A doc comment with new parameter lines: behind the last parameter and its
description, else in front of the first tag, else at the end, with a blank line
around them where they meet other text. A comment on one line is spread over
several. -/
def extendDoc (indent : String) (doc new : List String) : List String :=
  if new.isEmpty then doc
  else match doc with
    | [line] =>
      let text := String.ofList (docText line.toList)
      let summary := if text.isEmpty then [] else [indent ++ " * " ++ text, indent ++ " *"]
      [indent ++ "/**"] ++ summary ++ new ++ [indent ++ " */"]
    | _ =>
      let close := doc.length - 1
      match lastIndex? isParamLine doc with
      | some last =>
        let description := ((doc.take close).drop (last + 1)).takeWhile fun line =>
          !isTagLine line && !isBlankDocLine line
        insertAt (last + 1 + description.length) new doc
      | none =>
        let target := (doc.findIdx? isTagLine).getD close
        let follows := 1 < target && !isBlankDocLine (doc.getD (target - 1) "")
        let before := if follows then [indent ++ " *"] else []
        let after := if target < close then [indent ++ " *"] else []
        insertAt target (before ++ new ++ after) doc

/-! ### Extending a constructor -/

/-- The doc comment of a constructor with the new parameters, and the attributes
behind it. -/
def mergedDoc (style : CodeStyle) (source : Source) (ctor : Constructor)
    (bindings : List Binding) : List String :=
  let text := fun n => (source.line n).text
  match ctor.doc with
  | none => []
  | some span =>
    extendDoc style.memberIndent ((Source.span span.first span.last).map text)
        (bindingDocs style.memberIndent bindings) ++
      (List.range' (span.last + 1) (ctor.startLine - (span.last + 1))).map text

/-- The parameters of a constructor with the new ones behind the old ones. -/
def mergedParams (ctor : Constructor) (bindings : List Binding) : List String :=
  ctor.params.map (·.text) ++ bindings.map (·.declaration)

/-- The signature of a constructor with the new parameters. A list on one line
stays there if it is short enough; otherwise each parameter gets a line, indented
as before. -/
def mergedSignature (style : CodeStyle) (source : Source) (ctor : Constructor)
    (bindings : List Binding) : List String :=
  let params := mergedParams ctor bindings
  let single := ctor.signatureStart ++ ", ".intercalate params ++ ctor.signatureEnd
  let firstLine := String.ofList ((lines single.toList).headD [])
  if !ctor.multilineParams && (fits firstLine || params.isEmpty) then [single]
  else
    let indentOf := fun n => String.ofList (leadingBlanks (source.raw n))
    let closeLine := ctor.openBraceLine - ctor.signatureEnd.toList.count '\n'
    let (paramIndent, closeIndent) :=
      if ctor.multilineParams then (indentOf (ctor.startLine + 1), indentOf closeLine)
      else (style.bodyIndent, style.memberIndent)
    ctor.signatureStart :: listLines paramIndent ctor.trailingComma params ++
      [closeIndent ++ String.ofList (trimStart ctor.signatureEnd.toList)]

/-- The assignments that a body does not hold yet. -/
def missingAssignments (style : CodeStyle) (bindings : List Binding) (body : List String) :
    List String :=
  ((bindings.filter (!·.promoted)).map (·.assignment style.bodyIndent)).filter fun statement =>
    !body.any fun line => trim line.toList == trim statement.toList

/-- A constructor with new parameters, which are assigned behind the given body. -/
def mergedConstructor (style : CodeStyle) (source : Source) (ctor : Constructor)
    (bindings : List Binding) (body : List String) : String :=
  let oneLine := ctor.openBraceLine == ctor.endLine
  let close := (source.line ctor.endLine).text
  let closing :=
    if oneLine || trim close.toList != ['}'] then style.memberIndent ++ "\x7d" else close
  joinLines (
    mergedDoc style source ctor bindings ++
    mergedSignature style source ctor bindings ++
    (if oneLine then body.map (style.bodyIndent ++ ·) else body) ++
    missingAssignments style bindings body ++
    [closing])

/-! ### Factories -/

/-- The statement that returns a new object, with one argument a line. -/
def returnNew (indent unit keyword : String) (arguments : List String) (trailing : Bool) :
    String :=
  if arguments.isEmpty then indent ++ "return new " ++ keyword ++ "();"
  else joinLines (
    (indent ++ "return new " ++ keyword ++ "(") ::
    listLines (indent ++ unit) trailing arguments ++
    [indent ++ ");"])

/-- A new factory method. -/
def freshFactory (style : CodeStyle) (conventions : Conventions) (containerType : String)
    (arguments : List String) : String :=
  let indent := style.memberIndent
  let params := (containerType ++ " $container") :: conventions.factoryParams
  joinLines (
    [ indent ++ "/**",
      indent ++ " * \x7b@inheritdoc\x7d",
      indent ++ " */",
      indent ++ "public static function create(" ++ ", ".intercalate params ++ ")" ++
        style.openBrace ] ++
    (if style.braceOnOwnLine then [indent ++ "\x7b"] else []) ++
    [ returnNew style.bodyIndent style.unit "static" arguments false,
      indent ++ "\x7d" ])

end ServiceInjection.Render
