import ServiceInjection.Text.Blank
import ServiceInjection.Workspace.Glob
import ServiceInjection.Workspace.Tree

/-!
# Workspace.Ignore

Which entries of a directory are left out. The rules of a file named `.ignore` hold
for its directory and all below; those of `.gitignore`, and of the exclude file of a
repository, hold up to the innermost repository around. The last rule that fits
decides. Entries with a dot in front are left out unless a rule keeps them.
-/

namespace ServiceInjection

structure IgnoreRule where
  /-- Whether the rule keeps what it fits. -/
  keeps : Bool
  directoriesOnly : Bool
  globs : List Glob
  deriving Repr

namespace IgnoreRule

/-- The text of a rule without the blanks behind it, unless the last one is taken
as it is. -/
def trimmed (line : List Char) : List Char :=
  if [' ', '\\'].isPrefixOf line.reverse then line else Text.trimEnd line

/-- Drops a slash at the end, and a backslash in front of it; tells whether there
was one. -/
def dropSlash (line : List Char) : List Char × Bool :=
  match line.reverse with
  | '/' :: '\\' :: rest => (rest.reverse, true)
  | '/' :: rest => (rest.reverse, true)
  | _ => (line, false)

/-- The pattern of a rule. Without a slash it may fit in any directory below; what
ends with two asterisks fits only what is inside. -/
def pattern (anchored : Bool) (line : List Char) : List Char :=
  let anywhere := !anchored && !line.contains '/'
  let hasStars := line == ['*', '*'] || ['*', '*', '/'].isPrefixOf line
  let text := if anywhere && !hasStars then ['*', '*', '/'] ++ line else line
  if ['*', '*', '/'].isPrefixOf text.reverse then text ++ ['/', '*'] else text

/-- The rule of a line, or none if the line holds none. -/
def ofLine (line : List Char) : Option IgnoreRule :=
  let line := trimmed line
  if line.isEmpty || line.head? == some '#' then none
  else
    let escaped := ['\\', '!'].isPrefixOf line || ['\\', '#'].isPrefixOf line
    let keeps := !escaped && line.head? == some '!'
    let line := if escaped || keeps then line.drop 1 else line
    let anchored := line.head? == some '/'
    let line := if anchored && !escaped then line.drop 1 else line
    let (line, directoriesOnly) := dropSlash line
    (Glob.parse (pattern anchored line)).map (⟨keeps, directoriesOnly, ·⟩)

def ofText (text : String) : List IgnoreRule :=
  let cs := match text.toList with
    | '\ufeff' :: cs => cs
    | cs => cs
  (Text.lines cs).filterMap ofLine

def fits (rule : IgnoreRule) (path : List String) (isDirectory : Bool) : Bool :=
  (isDirectory || !rule.directoriesOnly) &&
    rule.globs.any (Glob.matchesBytes · ("/".intercalate path).toUTF8.toList)

end IgnoreRule

/-- What rules say about a path. -/
inductive Verdict where
  | leave
  | keep
  deriving DecidableEq, Repr

/-- What the last rule that fits says. -/
def verdict (rules : List IgnoreRule) (path : List String) (isDirectory : Bool) :
    Option Verdict :=
  (rules.reverse.find? (·.fits path isDirectory)).map fun rule =>
    if rule.keeps then .keep else .leave

/-- The rules of a directory. -/
structure IgnoreLevel where
  /-- The way from the directory to where the rules are asked. -/
  path : List String := []
  rules : List IgnoreRule
  gitRules : List IgnoreRule
  excludeRules : List IgnoreRule
  isRepository : Bool
  deriving Repr

namespace IgnoreLevel

/-- The rules of the file at a path. -/
def rulesAt (tree : Tree) (path : String) : List IgnoreRule :=
  match tree.read path with
  | .ok text => IgnoreRule.ofText text
  | .error _ => []

/-- The rules of a directory. -/
def ofDirectory (tree : Tree) : IgnoreLevel :=
  { rules := rulesAt tree ".ignore"
    gitRules := rulesAt tree ".gitignore"
    excludeRules := rulesAt tree ".git/info/exclude"
    isRepository := (tree.entry? ".git").isSome || (tree.entry? ".jj").isSome }

/-- The same rules, asked one directory further in. -/
def enter (name : String) (level : IgnoreLevel) : IgnoreLevel :=
  { level with path := level.path ++ [name] }

end IgnoreLevel

/-- The levels up to the innermost repository; none if there is no repository. -/
def repositoryLevels : List IgnoreLevel → Option (List IgnoreLevel)
  | [] => none
  | level :: outer =>
    if level.isRepository then some [level] else (repositoryLevels outer).map (level :: ·)

/-- What the rules around say about an entry, the innermost directory first. -/
def levelsVerdict (levels : List IgnoreLevel) (name : String) (isDirectory : Bool) :
    Option Verdict :=
  let first := fun (rules : IgnoreLevel → List IgnoreRule) (levels : List IgnoreLevel) =>
    levels.findSome? fun level => verdict (rules level) (level.path ++ [name]) isDirectory
  let inRepository := (repositoryLevels levels).getD []
  ((first (·.rules) levels).or (first (·.gitRules) inRepository)).or
    (first (·.excludeRules) inRepository)

/-- Whether an entry is left out. -/
def isLeftOut (levels : List IgnoreLevel) (name : String) (isDirectory : Bool) : Bool :=
  match levelsVerdict levels name isDirectory with
  | some decision => decision == .leave
  | none => name.toList.head? == some '.'

end ServiceInjection
