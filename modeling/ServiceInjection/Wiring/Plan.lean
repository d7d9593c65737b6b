import ServiceInjection.Wiring.Subject

/-!
# Wiring.Plan

Which of the two methods that wire services up have to be written or extended.
The constructor and the factory go together: every parameter of the one needs its
argument in the other.
-/

namespace ServiceInjection

/-- What happens to a method. -/
inductive MethodAction where
  | keep
  | create
  | merge
  deriving DecidableEq, Repr

/-- What happens to the constructor and to the factory. -/
structure MethodPlan where
  constructor : MethodAction
  factory : MethodAction
  deriving DecidableEq, Repr

/-- The plan for a class with a factory that returns a new object. -/
def planNewStatic (factory : Factory) (constructor : Option Constructor) (leading : List String)
    (arguments : List String) (returnLine : Nat) : Except ShapeProblem MethodPlan :=
  if returnLine ≤ factory.openBraceLine then .error .factoryOnSignatureLine
  else match constructor with
    | some ctor =>
      if ctor.params.length == arguments.length then .ok ⟨.merge, .merge⟩
      else .error .misalignedArguments
    | none =>
      if arguments == leading then .ok ⟨.create, .merge⟩
      else .error .inheritedConstructorArguments

/-- The plan for injecting services into a class whose role gives its constructor
the `leading` arguments. -/
def planMethods (outline : Outline) (leading : List String) : Except ShapeProblem MethodPlan :=
  match outline.factory, outline.constructor with
  | none, none => .ok ⟨.create, .create⟩
  | none, some ctor =>
    if ctor.params.length < leading.length then .error .missingLeadingParams
    else .ok ⟨.merge, .create⟩
  | some factory, constructor =>
    match factory.shape with
    | .instanceAssign _ _ _ => .ok ⟨.keep, .merge⟩
    | .unrecognized => .error .unrecognizedFactory
    | .newStatic _ arguments _ returnLine _ =>
      planNewStatic factory constructor leading arguments returnLine

end ServiceInjection
