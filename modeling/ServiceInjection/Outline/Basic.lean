import ServiceInjection.Text.Names

/-!
# Outline.Basic

The outline of a class: its declaration, the imports in front of it, its members,
and what its constructor and its factory method wire up. Line numbers count from
zero.
-/

namespace ServiceInjection

/-- Lines `first` to `last`, both included. -/
structure LineSpan where
  first : Nat
  last : Nat
  deriving DecidableEq, Repr

def LineSpan.contains (span : LineSpan) (line : Nat) : Bool :=
  span.first ≤ line && line ≤ span.last

/-- The first line of a member with its doc comment. -/
def leadingLineOf (doc : Option LineSpan) (line : Nat) : Nat :=
  match doc with
  | some span => span.first
  | none => line

/-- A class imported by a `use` statement, and the line the statement ends on. -/
structure Import where
  name : String
  /-- The name behind `as`. -/
  newName : Option String
  line : Nat
  deriving DecidableEq, Repr

/-- The name an import has in the file. -/
def Import.localName (entry : Import) : String :=
  match entry.newName with
  | some name => name
  | none => Text.shortName entry.name

/-- The kinds of class-like declaration. -/
inductive ClassKind where
  | namedClass
  | trait
  | interface
  | enum
  | anonymousClass
  deriving DecidableEq, Repr

def ClassKind.name : ClassKind → String
  | .namedClass => "class"
  | .trait => "trait"
  | .interface => "interface"
  | .enum => "enum"
  | .anonymousClass => "anonymous"

structure Declaration where
  kind : ClassKind
  name : String
  parent : Option String
  interfaces : List String
  line : Nat
  /-- The first line of the doc comment and the attributes in front. -/
  leadingLine : Nat
  openBraceLine : Nat
  closeBraceLine : Nat
  deriving DecidableEq, Repr

/-- A property, declared in the class body or promoted from a constructor
parameter. -/
structure Field where
  name : String
  line : Nat
  typeHint : Option String
  doc : Option LineSpan
  promoted : Bool
  deriving DecidableEq, Repr

def Field.leadingLine (field : Field) : Nat := leadingLineOf field.doc field.line

structure Method where
  name : String
  span : LineSpan
  doc : Option LineSpan
  isStatic : Bool
  deriving DecidableEq, Repr

def Method.leadingLine (method : Method) : Nat := leadingLineOf method.doc method.span.first

/-- A constructor parameter; `text` is its declaration as written. -/
structure Param where
  name : String
  typeHint : Option String
  promoted : Bool
  text : String
  deriving DecidableEq, Repr

/-- A constructor with a body. -/
structure Constructor where
  startLine : Nat
  openBraceLine : Nat
  endLine : Nat
  params : List Param
  /-- The lines of the body, or its text without the blanks around it when it
  stands on one line. -/
  body : List String
  doc : Option LineSpan
  multilineParams : Bool
  trailingComma : Bool
  /-- The first line up to and with the parenthesis that opens the parameters. -/
  signatureStart : String
  /-- The text from the parenthesis that closes the parameters up to and with the
  brace that opens the body. -/
  signatureEnd : String
  deriving DecidableEq, Repr

def Constructor.leadingLine (ctor : Constructor) : Nat := leadingLineOf ctor.doc ctor.startLine

def Constructor.param? (ctor : Constructor) (name : String) : Option Param :=
  ctor.params.find? (·.name == name)

/-- A property and the id of the service that a factory stores in it. -/
structure Assignment where
  field : String
  serviceId : String
  deriving DecidableEq, Repr

/-- How a factory method builds its object. -/
inductive FactoryShape where
  /-- `return new static(…)` or `return new self(…)`. -/
  | newStatic (keyword : String) (arguments : List String) (trailingComma : Bool)
      (returnLine returnEndLine : Nat)
  /-- `$instance = parent::create(…)`, then assignments to its properties, then
  `return $instance`. -/
  | instanceAssign (instanceVar : String) (assignments : List Assignment) (returnLine : Nat)
  | unrecognized
  deriving DecidableEq, Repr

/-- A static `create` method with a body. -/
structure Factory where
  startLine : Nat
  openBraceLine : Nat
  endLine : Nat
  containerVar : String
  serviceIds : List String
  shape : FactoryShape
  doc : Option LineSpan
  deriving DecidableEq, Repr

def Factory.leadingLine (factory : Factory) : Nat := leadingLineOf factory.doc factory.startLine

structure Members where
  traitUses : List LineSpan := []
  fields : List Field := []
  methods : List Method := []
  constructor : Option Constructor := none
  factory : Option Factory := none
  deriving DecidableEq, Repr

structure Outline extends Members where
  imports : List Import
  namespaceLine : Option Nat
  decl : Declaration
  deriving DecidableEq, Repr

end ServiceInjection
