import ServiceInjection.Workspace.Tree

/-!
# Workspace.Files

The access to files that the program needs, in whatever monad provides it: a real
file system, or a tree of files that is kept as a state.
-/

namespace ServiceInjection

structure Files (m : Type → Type) where
  read : String → m (Except ReadError String)
  write : String → String → m (Except ReadError Unit)
  /-- A file or directory with all that is below it. -/
  tree : String → m (Option Tree)
  readUserSettings : m (Except ReadError String)

namespace Files

/-- Files in a tree; paths start at its outermost directory. -/
def inTree (userSettings : Option String) : Files (StateM Tree) where
  read path := do return (← get).read path
  write path text := do
    match (← get).read path with
    | .error .isADirectory => return .error .isADirectory
    | _ =>
      modify (·.write path text)
      return .ok ()
  tree path := do return ((← get).find path).toOption
  readUserSettings := return match userSettings with
    | some text => .ok text
    | none => .error .notFound

end Files

end ServiceInjection
