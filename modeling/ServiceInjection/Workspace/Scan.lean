import ServiceInjection.Service.Declarations
import ServiceInjection.Workspace.Ignore

/-!
# Workspace.Scan

Gathering the services that the files of a workspace declare.
-/

namespace ServiceInjection

/-- The services of a workspace, and how many files declare them. -/
structure ServiceIndex where
  registry : Registry := {}
  filesScanned : Nat := 0
  deriving Repr

namespace ServiceIndex

/-- Whether a file declares services, by its name. -/
def isServicesFile (name : String) : Bool :=
  ".services.yml".toList.isSuffixOf name.toList

/-- Whether a scan looks at the text of a file with a name. -/
def looksAt (name : String) : Bool :=
  isServicesFile name || [".ignore", ".gitignore", "exclude"].contains name

/-- Adds the services of a file. A file that cannot be read does not count. -/
def addFile (index : ServiceIndex) (text : Option String) : ServiceIndex :=
  match text.bind Declarations.parse with
  | some definitions =>
    { registry := definitions.foldl Registry.insert index.registry
      filesScanned := index.filesScanned + 1 }
  | none => index

mutual

/-- Adds the services below a file or directory with a name. -/
def addTree (levels : List IgnoreLevel) (index : ServiceIndex) (name : String) :
    Tree → ServiceIndex
  | .file text => if isServicesFile name then index.addFile text else index
  | .directory entries =>
    let level := IgnoreLevel.ofDirectory (.directory entries)
    addEntries (level :: levels.map (·.enter name)) index entries

/-- Adds the services of the entries of a directory. -/
def addEntries (levels : List IgnoreLevel) (index : ServiceIndex) :
    List (String × Tree) → ServiceIndex
  | [] => index
  | (name, tree) :: rest =>
    let isDirectory := match tree with
      | .directory _ => true
      | .file _ => false
    let index := if isLeftOut levels name isDirectory then index else addTree levels index name tree
    addEntries levels index rest

end

/-- The services of a workspace. A file alone counts by its name. -/
def scan (name : String) (tree : Tree) : ServiceIndex := addTree [] {} name tree

end ServiceIndex

end ServiceInjection
