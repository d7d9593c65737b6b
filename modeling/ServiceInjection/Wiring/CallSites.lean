import ServiceInjection.Call.Detect
import ServiceInjection.Edit.Basic
import ServiceInjection.Wiring.Binding
import ServiceInjection.Wiring.Existing
import ServiceInjection.Wiring.Plan

/-!
# Wiring.CallSites

Replacing static calls by the injected service. A call in a method uses the
property; a call in the constructor uses the parameter, since the property may
not be set yet. Calls in a constructor that is written anew anyway become patches
of its body, all others become edits of their own. Calls in static methods stay.
-/

namespace ServiceInjection

/-- A call and the text that takes its place. -/
structure Replacement where
  call : StaticCall
  text : String
  deriving DecidableEq, Repr

def Replacement.edit (replacement : Replacement) : Edit :=
  let call := replacement.call
  { description := "Replace " ++ call.text ++ " with " ++ replacement.text
    range := ⟨⟨call.line, call.startColumn⟩, ⟨call.line, call.endColumn⟩⟩
    text := replacement.text }

/-- Whether the factory sets properties after construction. -/
def Outline.assignsInstance (outline : Outline) : Bool :=
  match outline.factory with
  | some factory =>
    match factory.shape with
    | .instanceAssign _ _ _ => true
    | _ => false
  | none => false

def Outline.inConstructor (outline : Outline) (line : Nat) : Bool :=
  match outline.constructor with
  | some ctor => ctor.startLine ≤ line && line ≤ ctor.endLine
  | none => false

/-- The expression for the service of a call, if it can be had where the call
stands. -/
def receiverOf (outline : Outline) (wiring : ExistingWiring) (bindings : List Binding)
    (call : StaticCall) : Option String :=
  let binding := bindings.find? (·.serviceId == call.serviceId)
  let property := ((binding.map (·.field)).or (wiring.fieldOf? call.serviceId)).map ("$this->" ++ ·)
  if outline.inConstructor call.line then
    if outline.assignsInstance then none
    else
      let param := (binding.map (·.param)).or (wiring.paramOf? call.serviceId)
      (param.map ("$" ++ ·)).or property
  else property

def replacementOf (outline : Outline) (wiring : ExistingWiring) (bindings : List Binding)
    (call : StaticCall) : Option Replacement :=
  if (outline.staticMethodAt? call.line).isSome then none
  else (receiverOf outline wiring bindings call).map fun receiver =>
    match call.accessor with
    | some accessor =>
      ⟨call, receiver ++ "->" ++ accessor.method ++ "(" ++ accessor.arguments ++ ")"⟩
    | none => ⟨call, receiver⟩

/-! ### Patching a constructor body -/

/-- Replaces the first occurrence of `needle`. -/
def replaceFirst (needle new : List Char) : List Char → List Char
  | [] => []
  | c :: cs =>
    if needle.isPrefixOf (c :: cs) then new ++ (c :: cs).drop needle.length
    else c :: replaceFirst needle new cs

/-- Replaces the text between two columns of a line. -/
def replaceColumns (start stop : Nat) (new : String) (line : String) : String :=
  let cs := line.toList
  let front := Text.upToColumn start cs
  let through := Text.upToColumn stop cs
  String.ofList (front ++ new.toList ++ cs.drop through.length)

/-- Patches a body on one line. -/
def patchSingleLine (body : List String) (patches : List Replacement) : List String :=
  patches.foldl
    (fun body patch =>
      match body with
      | [] => []
      | line :: rest =>
        String.ofList (replaceFirst patch.call.text.toList patch.text.toList line.toList) :: rest)
    body

/-- Patches a body on lines of its own, from its end to its start. A call on a line
of one of the braces stays. -/
def patchLines (ctor : Constructor) (patches : List Replacement) : List String :=
  let fromEnd := patches.mergeSort fun a b =>
    (⟨b.call.line, b.call.startColumn⟩ : Position).le ⟨a.call.line, a.call.startColumn⟩
  fromEnd.foldl
    (fun body patch =>
      let line := patch.call.line
      if line ≤ ctor.openBraceLine || ctor.endLine ≤ line then body
      else body.modify (line - ctor.openBraceLine - 1)
        (replaceColumns patch.call.startColumn patch.call.endColumn patch.text))
    ctor.body

/-- The body of a constructor with its calls replaced. -/
def patchedBody (ctor : Constructor) (patches : List Replacement) : List String :=
  if ctor.openBraceLine == ctor.endLine then patchSingleLine ctor.body patches
  else patchLines ctor patches

end ServiceInjection
