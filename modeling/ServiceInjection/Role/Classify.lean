import ServiceInjection.Outline.Analyze
import ServiceInjection.Role.Basic

/-!
# Role.Classify

Guessing the role of a class from its declaration: by its parent, where the
parents of a project may be added, and else by the interfaces it implements.
-/

namespace ServiceInjection

/-- Additional parents and the roles of their subclasses. -/
abbrev RoleMapping := List (String × Role)

/-- What the declaration of a class says about its role. -/
structure Hierarchy where
  role : Role
  /-- The short name of the parent, if there is one. -/
  ancestors : List String
  /-- The short names of the interfaces that the class is known to have. -/
  interfaces : List String
  deriving DecidableEq, Repr

namespace Hierarchy

/-- The role of the subclasses of a parent. Additional parents come first. -/
def roleOfParent (mapping : RoleMapping) (parent : String) : Option Role :=
  match mapping.lookup parent with
  | some role => some role
  | none =>
    if baseClassParents.contains parent then some .baseClass
    else if pluginParents.contains parent then some .pluginFactory
    else none

/-- The role of a class with the given interfaces. -/
def roleOfInterfaces (interfaces : List String) : Option Role :=
  if interfaces.contains containerFactoryPluginInterface then some .pluginFactory
  else if interfaces.contains containerInjectionInterface then some .baseClass
  else none

/-- The hierarchy of a declared class. The known base classes have the marker
interface of their role, so it is added to the interfaces. -/
def ofDeclaration (mapping : RoleMapping) (decl : Declaration) : Hierarchy :=
  let parent := decl.parent.map Text.shortName
  let interfaces := decl.interfaces.map Text.shortName
  let role := ((parent.bind (roleOfParent mapping)).or (roleOfInterfaces interfaces)).getD
    (.other (parent.getD "plain"))
  let marked := role == .baseClass && parent.any baseClassParents.contains &&
    !interfaces.contains containerInjectionInterface
  { role
    ancestors := parent.toList
    interfaces := if marked then interfaces ++ [containerInjectionInterface] else interfaces }

/-- The hierarchy of the class around a line. -/
def at? (mapping : RoleMapping) (source : Source) (line : Nat) : Option Hierarchy :=
  (Outline.at? source line).map fun outline => ofDeclaration mapping outline.decl

end Hierarchy

end ServiceInjection
