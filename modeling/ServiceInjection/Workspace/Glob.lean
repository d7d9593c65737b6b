/-!
# Workspace.Glob

Patterns for paths. A question mark stands for a byte and an asterisk for any
number of them, within one part of the path; two asterisks stand for whole parts.
Brackets list the bytes to choose from, braces list patterns, and a backslash takes
the next character as it is.
-/

namespace ServiceInjection

/-- A part of a pattern. -/
inductive GlobPart where
  | byte (value : UInt8)
  | anyByte
  /-- Any bytes of a name. -/
  | anyBytes
  /-- Any directories in front. -/
  | leadingDirectories
  /-- A slash and anything behind it. -/
  | below
  /-- A slash, and maybe directories and another one. -/
  | innerDirectories
  /-- One byte in the ranges, or with `negated` one outside of them. -/
  | choice (negated : Bool) (ranges : List (UInt8 × UInt8))
  deriving DecidableEq, Repr

abbrev Glob := List GlobPart

namespace Glob

/-! ### Matching -/

/-- The byte between the parts of a path. -/
def slash : UInt8 := '/'.toNat.toUInt8

/-- Whether `accepts` holds of some end of the path, of which the bytes in front
all satisfy `passes`. -/
def someSuffix (passes : UInt8 → Bool) (accepts : List UInt8 → Bool) : List UInt8 → Bool
  | [] => accepts []
  | b :: bs => accepts (b :: bs) || (passes b && someSuffix passes accepts bs)

/-- Whether `accepts` holds of what follows some slash. -/
def behindSlash (accepts : List UInt8 → Bool) : List UInt8 → Bool
  | [] => false
  | b :: bs => (b == slash && accepts bs) || behindSlash accepts bs

/-- Whether a pattern describes a whole path. -/
def matchesBytes : Glob → List UInt8 → Bool
  | [], path => path.isEmpty
  | part :: rest, path =>
    let accepts := matchesBytes rest
    match part, path with
    | .byte value, b :: bs => value == b && accepts bs
    | .anyByte, b :: bs => b != slash && accepts bs
    | .anyBytes, _ => someSuffix (· != slash) accepts path
    | .leadingDirectories, _ => accepts path || behindSlash accepts path
    | .below, b :: bs => b == slash && someSuffix (fun _ => true) accepts bs
    | .innerDirectories, b :: bs => b == slash && (accepts bs || behindSlash accepts bs)
    | .choice negated ranges, b :: bs =>
      ranges.any (fun (first, last) => first ≤ b && b ≤ last) != negated && accepts bs
    | _, [] => false

/-! ### Braces -/

/-- A way to take a text with braces: what has been chosen so far. -/
abbrev Choices := List (List Char)

def Choices.push (choices : Choices) (c : Char) : Choices := choices.map (· ++ [c])

/-- An open brace: the choices in front of it, and those of its finished items. -/
structure OpenBrace where
  before : Choices
  finished : Choices

/-- The patterns without braces that a pattern stands for. `inClass` tells whether
the text is inside brackets, where braces have no meaning; `choices` are those of
the item being read. -/
def expand (inClass : Bool) : List OpenBrace → Choices → List Char → Option Choices
  | [], choices, [] => some choices
  | _ :: _, _, [] => none
  | stack, choices, '\\' :: c :: cs =>
    if inClass then expand (c != ']') stack ((choices.push '\\').push c) cs
    else expand false stack ((choices.push '\\').push c) cs
  | stack, choices, c :: cs =>
    if inClass then expand (c != ']') stack (choices.push c) cs
    else if c == '[' then expand (cs.drop 1 |>.contains ']') stack (choices.push c) cs
    else if c == '\x7b' then expand false (⟨choices, []⟩ :: stack) [[]] cs
    else if c == '\x7d' then
      match stack with
      | [] => none
      | brace :: outer =>
        let items := (brace.finished ++ choices).filter (!·.isEmpty)
        let items := if items.isEmpty then [[]] else items
        expand false outer (brace.before.flatMap fun front => items.map (front ++ ·)) cs
    else if c == ',' then
      match stack with
      | [] => expand false [] (choices.push c) cs
      | brace :: outer =>
        expand false ({ brace with finished := brace.finished ++ choices } :: outer) [[]] cs
    else expand false stack (choices.push c) cs

/-! ### Reading -/

/-- The bytes of a character. -/
def bytesOf (c : Char) : List UInt8 := c.toString.toUTF8.toList

/-- The parts for characters taken as they are. -/
def literal (c : Char) : List GlobPart := (bytesOf c).map .byte

/-- The byte ranges from one character to another. -/
def byteRange (first last : Char) : List (UInt8 × UInt8) :=
  let a := bytesOf first
  let b := bytesOf last
  let single := fun (byte : UInt8) => (byte, byte)
  if first == last then a.map single
  else a.dropLast.map single ++ [(a.getLastD 0, b.headD 0)] ++ (b.drop 1).map single

/-- Ends the last range with `c`, which must not come before its start. -/
def endRange (ranges : List (Char × Char)) (c : Char) : Option (List (Char × Char)) := do
  let (first, _) ← ranges.getLast?
  if c < first then none else some (ranges.dropLast ++ [(first, c)])

/-- Reads the ranges of a bracket up to its end. A closing bracket or a dash that
comes first stands for itself, as does a dash at the end; `inRange` tells whether a
dash came last. -/
def classRanges (first inRange : Bool) (ranges : List (Char × Char)) :
    List Char → Option (List (Char × Char) × List Char)
  | [] => none
  | c :: cs =>
    if c == ']' && !first then some (if inRange then ranges ++ [('-', '-')] else ranges, cs)
    else if inRange then
      match endRange ranges c with
      | some ranges => classRanges false false ranges cs
      | none => none
    else if c == '-' && !first then classRanges false true ranges cs
    else classRanges false false (ranges ++ [(c, c)]) cs

/-- Reads a bracket behind its opening. -/
def class? (cs : List Char) : Option (GlobPart × List Char) :=
  let negated := cs.head? == some '!' || cs.head? == some '^'
  (classRanges true false [] (if negated then cs.drop 1 else cs)).map fun (ranges, rest) =>
    (.choice negated (ranges.flatMap fun (first, last) => byteRange first last), rest)

/-- Whether a bracket is closed, behind its opening. -/
def isClosed (cs : List Char) : Bool :=
  let cs := if cs.head? == some '!' || cs.head? == some '^' then cs.drop 1 else cs
  (cs.drop 1).contains ']'

/-- Replaces the last part, which stands for a slash, by a part that includes it. -/
def replaceLast (parts : Glob) (part : GlobPart) : Glob :=
  match parts.getLast? with
  | some .leadingDirectories => parts
  | some .below => parts
  | _ => parts.dropLast ++ [part]

/-- Reads two asterisks behind the character `before`; gives back the parts and
whether the slash behind them is used up. -/
def doubleStar (parts : Glob) (before next : Option Char) : Glob × Bool :=
  let plain := (parts ++ [.anyBytes, .anyBytes], false)
  if parts.isEmpty then
    if next.all (· == '/') then ([.leadingDirectories], next.isSome) else plain
  else if before != some '/' then plain
  else match next with
    | none => (replaceLast parts .below, false)
    | some '/' => (replaceLast parts .innerDirectories, true)
    | some _ => plain

/-- Reads a pattern without braces, `parts` being those in front and `before` the
last character. A bracket that is not closed stands for itself. -/
def parseFrom : Nat → Glob → Option Char → List Char → Option Glob
  | 0, _, _, _ => none
  | _ + 1, parts, _, [] => some parts
  | fuel + 1, parts, before, c :: cs =>
    match c, cs with
    | '?', _ => parseFrom fuel (parts ++ [.anyByte]) (some c) cs
    | '*', '*' :: rest =>
      let (parts, usesSlash) := doubleStar parts before rest.head?
      if usesSlash then parseFrom fuel parts (some '/') (rest.drop 1)
      else parseFrom fuel parts (some '*') rest
    | '*', _ => parseFrom fuel (parts ++ [.anyBytes]) (some c) cs
    | '\\', [] => none
    | '\\', d :: rest => parseFrom fuel (parts ++ literal d) (some d) rest
    | '[', _ =>
      if isClosed cs then do
        let (part, rest) ← class? cs
        parseFrom fuel (parts ++ [part]) (some ']') rest
      else parseFrom fuel (parts ++ literal c) (some c) cs
    | _, _ => parseFrom fuel (parts ++ literal c) (some c) cs

/-- The pattern of two asterisks alone stands for everything. -/
def finish (glob : Glob) : Glob :=
  if glob == [.leadingDirectories] then [.leadingDirectories, .anyBytes] else glob

/-- The patterns that a text stands for, or none if it is no pattern. -/
def parse (text : List Char) : Option (List Glob) := do
  (← expand false [] [[]] text).mapM fun cs => do
    some (finish (← parseFrom (cs.length + 1) [] none cs))

end Glob

end ServiceInjection
