import ServiceInjection.Text.Digits
import ServiceInjection.Yaml.Cursor

/-!
# Yaml.Scalar

Reading the scalars of a YAML text: plain ones, quoted ones and blocks of lines.
-/

namespace ServiceInjection.Yaml

/-! ### Plain scalars -/

/-- Whether a character parts the items of a collection in brackets. -/
def isFlowMark (c : Char) : Bool := [',', '[', ']', '\x7b', '\x7d'].contains c

/-- Reads a word of a plain scalar. Inside brackets a colon must not stand right
before a mark. -/
def plainWord (inFlow : Bool) : List Char → Option (List Char × List Char)
  | [] => some ([], [])
  | c :: cs =>
    if isSpaceOrTab c || isBreak c then some ([], c :: cs)
    else if inFlow && c == ':' && cs.head?.any (fun d => d == '?' || isFlowMark d) then none
    else if (c == ':' && endsWord cs.head?) || (inFlow && isFlowMark c) then some ([], c :: cs)
    else (plainWord inFlow cs).map fun (word, rest) => (c :: word, rest)

/-- A scalar that was read: its text, whether a line ended behind its last word,
and the place behind it. -/
structure PlainText where
  text : List Char
  brokeLine : Bool
  after : Cursor

/-- Reads a plain scalar whose later lines start at column `level` or behind it. -/
def plainText (inFlow : Bool) (level : Nat) : Nat → Cursor → Option PlainText
  | 0, _ => none
  | fuel + 1, cursor => do
    let (word, rest) ← plainWord inFlow cursor.rest
    let after := cursor.upTo rest
    if rest.isEmpty || !endsWord after.next? then some ⟨word, false, after⟩
    else
      let (gap, next) ← after.gap level false
      let stops := (!inFlow && next.column < level) || next.atDocumentMark || next.sees '#'
      if stops then some ⟨word, gap.hasBreak, next⟩
      else
        let more ← plainText inFlow level fuel next
        if more.text.isEmpty then some ⟨word, gap.hasBreak, next⟩
        else some { more with text := word ++ gap.folded ++ more.text }

/-! ### Quoted scalars -/

/-- Reads a word between single quotes, where a quote is written twice. -/
def singleWord : List Char → List Char × List Char
  | [] => ([], [])
  | '\'' :: '\'' :: cs => let (word, rest) := singleWord cs; ('\'' :: word, rest)
  | c :: cs =>
    if c == '\'' || isSpaceOrTab c || isBreak c then ([], c :: cs)
    else let (word, rest) := singleWord cs; (c :: word, rest)

/-- Reads an escape behind its backslash. -/
def escape? : List Char → Option (Char × List Char)
  | '0' :: cs => some ('\x00', cs)
  | 'a' :: cs => some ('\x07', cs)
  | 'b' :: cs => some ('\x08', cs)
  | 't' :: cs => some ('\t', cs)
  | '\t' :: cs => some ('\t', cs)
  | 'n' :: cs => some ('\n', cs)
  | 'v' :: cs => some ('\x0b', cs)
  | 'f' :: cs => some ('\x0c', cs)
  | 'r' :: cs => some ('\r', cs)
  | 'e' :: cs => some ('\x1b', cs)
  | ' ' :: cs => some (' ', cs)
  | '"' :: cs => some ('"', cs)
  | '/' :: cs => some ('/', cs)
  | '\\' :: cs => some ('\\', cs)
  | 'N' :: cs => some ('\u0085', cs)
  | '_' :: cs => some ('\u00a0', cs)
  | 'L' :: cs => some ('\u2028', cs)
  | 'P' :: cs => some ('\u2029', cs)
  | 'x' :: cs => Text.codePoint? 2 cs
  | 'u' :: cs => Text.codePoint? 4 cs
  | 'U' :: cs => Text.codePoint? 8 cs
  | _ => none

/-- Reads a word between double quotes. The word also ends in front of a line break
with a backslash before it. -/
def doubleWord (cs : List Char) : Option (List Char × List Char) :=
  match cs with
  | [] => some ([], [])
  | '\\' :: rest =>
    if rest.head?.any isBreak then some ([], cs)
    else match escape? rest with
      | some (c, rest') =>
        if rest'.length ≤ rest.length then
          (doubleWord rest').map fun (word, rest) => (c :: word, rest)
        else none
      | none => none
  | c :: rest =>
    if c == '"' || isSpaceOrTab c || isBreak c then some ([], c :: rest)
    else (doubleWord rest).map fun (word, rest) => (c :: word, rest)
termination_by cs.length

/-- Reads a scalar in quotes, behind the opening one. -/
def quotedText (quote : Char) : Nat → Cursor → Option (List Char × Cursor)
  | 0, _ => none
  | fuel + 1, cursor =>
    if cursor.atDocumentMark then none
    else do
      let (word, rest) ←
        if quote == '"' then doubleWord cursor.rest else some (singleWord cursor.rest)
      let after := cursor.upTo rest
      match rest with
      | [] => none
      | c :: _ =>
        if c == quote then some (word, after.skip 1)
        else if c == '\\' then
          let (gap, next) ← (after.skip 1).nextLine.gap 0 true
          let (more, last) ← quotedText quote fuel next
          some (word ++ gap.breaks ++ more, last)
        else
          let (gap, next) ← after.gap 0 false
          let (more, last) ← quotedText quote fuel next
          some (word ++ gap.folded ++ more, last)

/-! ### Blocks of lines -/

/-- What becomes of the line breaks at the end of a block. -/
inductive Chomping where
  | clip
  | strip
  | keep
  deriving DecidableEq, Repr

/-- The first line of a block. -/
structure BlockHeader where
  chomping : Chomping := .clip
  /-- The indentation of the lines above that of the block around, if given. -/
  increment : Option Nat := none

def chompingMark? : List Char → Option (Chomping × List Char)
  | '+' :: cs => some (.keep, cs)
  | '-' :: cs => some (.strip, cs)
  | _ => none

/-- Reads an indentation, which is not zero. -/
def incrementMark? : List Char → Option (Nat × List Char)
  | c :: cs => if '1' ≤ c && c ≤ '9' then some (c.toNat - '0'.toNat, cs) else none
  | [] => none

/-- Reads the marks behind the sign of a block, in either order. -/
def blockHeader (cs : List Char) : BlockHeader × List Char :=
  match chompingMark? cs with
  | some (chomping, cs) =>
    match incrementMark? cs with
    | some (increment, cs) => (⟨chomping, some increment⟩, cs)
    | none => (⟨chomping, none⟩, cs)
  | none =>
    match incrementMark? cs with
    | some (increment, cs) =>
      match chompingMark? cs with
      | some (chomping, cs) => (⟨chomping, some increment⟩, cs)
      | none => (⟨.clip, some increment⟩, cs)
    | none => (⟨.clip, none⟩, cs)

/-- Skips spaces and a comment up to the end of a line, and the end itself. -/
def finishLine (cursor : Cursor) : Option Cursor :=
  let cursor := cursor.skipWhile isSpaceOrTab
  let cursor := if cursor.sees '#' then cursor.skipWhile (!isBreak ·) else cursor
  if endsLine cursor.next? then some cursor.nextLine else none

/-- Reads empty lines and the indentation of the first line that is not empty: the
line breaks, the largest column reached and the place. An `indent` of zero is not
known yet. -/
def emptyLines (indent : Nat) : Nat → Nat → Cursor → Option (List Char × Nat × Cursor)
  | 0, _, _ => none
  | fuel + 1, largest, cursor =>
    let spaces := (cursor.rest.takeWhile (· == ' ')).length
    let cursor :=
      cursor.skip (if indent == 0 then spaces else min spaces (indent - cursor.column))
    let largest := max largest cursor.column
    if (indent == 0 || cursor.column < indent) && cursor.sees '\t' then none
    else
      match lineBreak? cursor.rest with
      | some (stands, _, _) => do
        let (breaks, largest, last) ← emptyLines indent fuel largest cursor.nextLine
        some (stands :: breaks, largest, last)
      | none => some ([], largest, cursor)

/-- The lines of a block so far. -/
structure BlockText where
  text : List Char := []
  /-- The break at the end of the last line. -/
  lastBreak : List Char := []
  /-- The breaks of empty lines behind it. -/
  emptyBreaks : List Char := []
  /-- Whether the last line starts with a blank. -/
  indented : Bool := false

/-- Adds a line. In a folded block the break in front of it becomes a space, or
nothing if empty lines follow it, unless one of the two lines is indented more. -/
def BlockText.addLine (block : BlockText) (folded : Bool) (line : List Char) : BlockText :=
  let indented := line.head?.any isSpaceOrTab
  let joint :=
    if folded && block.lastBreak == ['\n'] && !block.indented && !indented then
      (if block.emptyBreaks.isEmpty then [' '] else [])
    else block.lastBreak
  { block with text := block.text ++ joint ++ block.emptyBreaks ++ line, indented }

/-- The text of a block with its end chomped. -/
def BlockText.chomped (block : BlockText) : Chomping → List Char
  | .clip => block.text ++ block.lastBreak
  | .strip => block.text
  | .keep => block.text ++ block.lastBreak ++ block.emptyBreaks

/-- Reads the lines of a block that start at column `indent`. -/
def blockLines (folded : Bool) (indent : Nat) : Nat → BlockText → Cursor →
    Option (BlockText × Cursor)
  | 0, _, _ => none
  | fuel + 1, block, cursor =>
    if cursor.column != indent || cursor.rest.isEmpty then some (block, cursor)
    else do
      let line := cursor.rest.takeWhile (!isBreak ·)
      let atEnd := cursor.skip line.length
      let lastBreak := match lineBreak? atEnd.rest with
        | some (stands, _, _) => [stands]
        | none => []
      let (breaks, _, next) ← emptyLines indent (atEnd.rest.length + 1) 0 atEnd.nextLine
      let block := { block.addLine folded line with lastBreak, emptyBreaks := breaks }
      blockLines folded indent fuel block next

/-- Reads a block behind its sign; its lines start at column `level` or behind it. -/
def blockText (folded : Bool) (level : Nat) (cursor : Cursor) : Option (List Char × Cursor) := do
  let (header, rest) := blockHeader cursor.rest
  let start ← finishLine (cursor.upTo rest)
  let fuel := start.rest.length + 1
  let given := match header.increment with
    | some increment => level - 1 + increment
    | none => 0
  let (breaks, largest, first) ← emptyLines given fuel 0 start
  let indent := if given == 0 then max largest (max level 1) else given
  let (block, last) ← blockLines folded indent fuel { emptyBreaks := breaks } first
  some (block.chomped header.chomping, last)

end ServiceInjection.Yaml
