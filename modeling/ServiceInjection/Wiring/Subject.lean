import ServiceInjection.Outline.Analyze
import ServiceInjection.Outline.Query
import ServiceInjection.Role.Basic
import ServiceInjection.Service.Directory
import ServiceInjection.Service.Registry
import ServiceInjection.Text.Units
import ServiceInjection.Wiring.Style

/-!
# Wiring.Subject

What a refactoring starts from: what is known about services, and the class that
they are injected into. `RefactorError` lists the reasons why a class is left as
it is.
-/

namespace ServiceInjection

structure Options where
  /-- One step of indentation in a class without members. -/
  indent : String := "  "
  /-- Whether services that are neither in the directory nor in the registry are
  left alone. -/
  strictServices : Bool := false
  deriving DecidableEq, Repr

/-- What is known about services, and the choices of the user. -/
structure Knowledge where
  directory : Directory
  registry : Option Registry := none
  options : Options := {}

namespace Knowledge

/-- Whether a service is known at all. -/
def knows (knowledge : Knowledge) (serviceId : String) : Bool :=
  (knowledge.directory.lookup? serviceId).isSome || knowledge.registry.any (·.contains serviceId)

/-- The class of a service, if the registry has it. -/
def classOf? (knowledge : Knowledge) (serviceId : String) : Option String := do
  let registry ← knowledge.registry
  let definition ← registry.lookup? serviceId
  definition.className

end Knowledge

/-- A class shape that services cannot be injected into. -/
inductive ShapeProblem where
  | notAClass (name : String)
  | singleLineBody
  | missingLeadingParams
  | unrecognizedFactory
  | factoryOnSignatureLine
  | misalignedArguments
  | inheritedConstructorArguments
  | unknownParamService
  deriving DecidableEq, Repr

def ShapeProblem.message : ShapeProblem → String
  | .notAClass name => name ++ " is not a class"
  | .singleLineBody => "class body on a single line"
  | .missingLeadingParams => "constructor lacks the role's leading parameters"
  | .unrecognizedFactory =>
    "create() does not return new static() or a parent::create() instance"
  | .factoryOnSignatureLine => "create() body on the signature line"
  | .misalignedArguments =>
    "create() arguments do not line up with the constructor parameters"
  | .inheritedConstructorArguments => "create() passes arguments to an inherited constructor"
  | .unknownParamService => "a constructor parameter has no known service"

inductive RefactorError where
  | noEnclosingClass
  | unsupportedRole (tag : String)
  | unsupportedShape (problem : ShapeProblem)
  | nothingToInject
  deriving DecidableEq, Repr

def RefactorError.message : RefactorError → String
  | .noEnclosingClass => "no class encloses the requested position"
  | .unsupportedRole tag => "no injection strategy for role `" ++ tag ++ "`"
  | .unsupportedShape problem => "unsupported class shape: " ++ problem.message
  | .nothingToInject => "nothing to inject"

/-- The class that services are injected into. -/
structure Subject where
  source : Source
  outline : Outline
  conventions : Conventions
  style : CodeStyle

namespace Subject

/-- The column behind the last character of a line. -/
def lineEnd (subject : Subject) (n : Nat) : Nat := Text.width16 (subject.source.raw n)

def isBlankLine (subject : Subject) (n : Nat) : Bool := Text.isBlankLine (subject.source.raw n)

def indentOf (subject : Subject) (n : Nat) : String :=
  String.ofList (Text.leadingBlanks (subject.source.raw n))

end Subject

end ServiceInjection
