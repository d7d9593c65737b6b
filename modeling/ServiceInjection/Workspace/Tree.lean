import ServiceInjection.Text.Lines

/-!
# Workspace.Tree

Files and directories, as far as the program looks at them. A path names its
directories from the outside in; `.` stays where it is and `..` goes up.
-/

namespace ServiceInjection

/-- A file or a directory. -/
inductive Tree where
  /-- A file, with its text if that is valid UTF-8. -/
  | file (text : Option String)
  | directory (entries : List (String × Tree))
  deriving Repr

/-- Why a file cannot be read. -/
inductive ReadError where
  | notFound
  | notADirectory
  | isADirectory
  | invalidText
  | other (text : String)
  deriving DecidableEq, Repr

def ReadError.message : ReadError → String
  | .notFound => "No such file or directory (os error 2)"
  | .notADirectory => "Not a directory (os error 20)"
  | .isADirectory => "Is a directory (os error 21)"
  | .invalidText => "stream did not contain valid UTF-8"
  | .other text => text

namespace Tree

def empty : Tree := .directory []

def entry? (name : String) : Tree → Option Tree
  | .directory entries => entries.lookup name
  | .file _ => none

/-- The parts of a path. -/
def pathParts (path : String) : List String :=
  (Text.splitBy (· == '/') path.toList).map String.ofList

/-! ### Reading -/

/-- Follows the parts of a path; `above` holds the directories on the way, the
innermost first. There is nothing above the outermost directory. -/
def follow (above : List Tree) (here : Tree) : List String → Except ReadError Tree
  | [] => .ok here
  | part :: rest =>
    match here with
    | .file _ => .error .notADirectory
    | .directory entries =>
      if part == "" || part == "." then follow above here rest
      else if part == ".." then
        match above with
        | outer :: above => follow above outer rest
        | [] => .error .notFound
      else
        match entries.lookup part with
        | some next => follow (here :: above) next rest
        | none => .error .notFound

/-- What a path leads to. -/
def find (tree : Tree) (path : String) : Except ReadError Tree :=
  if path.isEmpty then .error .notFound else follow [] tree (pathParts path)

def read (tree : Tree) (path : String) : Except ReadError String := do
  match ← tree.find path with
  | .file (some text) => .ok text
  | .file none => .error .invalidText
  | .directory _ => .error .isADirectory

/-! ### Writing -/

/-- Puts an entry in place of the one with the same name, or adds it. -/
def putEntry (name : String) (tree : Tree) (entries : List (String × Tree)) :
    List (String × Tree) :=
  match entries with
  | [] => [(name, tree)]
  | (other, old) :: rest =>
    if other == name then (name, tree) :: rest else (other, old) :: putEntry name tree rest

/-- Writes a file, with the directories around it. -/
def writeParts (text : String) : List String → Tree → Tree
  | [], _ => .file (some text)
  | part :: rest, tree =>
    let entries := match tree with
      | .directory entries => entries
      | .file _ => []
    let old := (entries.lookup part).getD empty
    .directory (putEntry part (writeParts text rest old) entries)

/-- The parts of a path without `.` and with `..` carried out. -/
def plainParts (parts : List String) : List String :=
  parts.foldl
    (fun plain part =>
      if part == "" || part == "." then plain
      else if part == ".." then plain.dropLast
      else plain ++ [part])
    []

def write (tree : Tree) (path text : String) : Tree :=
  writeParts text (plainParts (pathParts path)) tree

/-- The directory that holds files given by their paths. -/
def ofFiles (files : List (String × String)) : Tree :=
  files.foldl (fun tree (path, text) => tree.write path text) empty

end Tree

end ServiceInjection
