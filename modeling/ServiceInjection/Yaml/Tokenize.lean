import ServiceInjection.Text.Lines
import ServiceInjection.Yaml.Property

/-!
# Yaml.Tokenize

Splitting a YAML text into tokens. Whether a scalar is a key shows only at the
colon behind it, so the place of each possible key is remembered, and a token for
the key, and for the mapping that it starts, is put there later.
-/

namespace ServiceInjection.Yaml

structure KeyPlace where
  /-- Whether nothing but a key can stand there. -/
  required : Bool
  /-- How many tokens stand in front of it. -/
  tokenCount : Nat
  index : Nat
  line : Nat
  column : Nat
  deriving Repr

/-- What has been read of a text. -/
structure Scanner where
  cursor : Cursor
  tokens : List Token := []
  /-- The columns of the open blocks, the innermost first. -/
  blocks : List Nat := []
  /-- Whether a key may start at the next token. -/
  keyAllowed : Bool := true
  /-- The possible key outside of all brackets. -/
  outerKey : Option KeyPlace := none
  /-- The possible keys inside each open bracket, the innermost first. -/
  flowKeys : List (Option KeyPlace) := []

namespace Scanner

/-- Whether the text is inside brackets. -/
def inFlow (scanner : Scanner) : Bool := !scanner.flowKeys.isEmpty

/-- The least column of what belongs to the innermost block. -/
def level (scanner : Scanner) : Nat :=
  match scanner.blocks with
  | column :: _ => column + 1
  | [] => 0

def push (scanner : Scanner) (token : Token) : Scanner :=
  { scanner with tokens := scanner.tokens ++ [token] }

/-- Puts a token behind the first `count` ones. -/
def insertAt (scanner : Scanner) (count : Nat) (token : Token) : Scanner :=
  { scanner with tokens := scanner.tokens.take count ++ token :: scanner.tokens.drop count }

def moveTo (scanner : Scanner) (cursor : Cursor) : Scanner := { scanner with cursor }

def allowKey (scanner : Scanner) (keyAllowed : Bool) : Scanner := { scanner with keyAllowed }

/-! ### Possible keys -/

/-- The possible key of the innermost bracket, or outside of all. -/
def currentKey (scanner : Scanner) : Option KeyPlace :=
  match scanner.flowKeys with
  | key :: _ => key
  | [] => scanner.outerKey

def setKey (scanner : Scanner) (key : Option KeyPlace) : Scanner :=
  match scanner.flowKeys with
  | _ :: rest => { scanner with flowKeys := key :: rest }
  | [] => { scanner with outerKey := key }

/-- Gives up the current possible key, which must not be required. -/
def dropKey (scanner : Scanner) : Option Scanner :=
  if scanner.currentKey.any (·.required) then none else some (scanner.setKey none)

/-- Remembers that a key may start here. -/
def markKey (scanner : Scanner) : Option Scanner :=
  if scanner.keyAllowed then do
    let cursor := scanner.cursor
    let required := !scanner.inFlow && scanner.blocks.head? == some cursor.column
    let scanner ← scanner.dropKey
    some (scanner.setKey
      (some ⟨required, scanner.tokens.length, cursor.index, cursor.line, cursor.column⟩))
  else some scanner

/-- Whether a possible key is too far back: a key is on one line, and at most 1024
characters long. -/
def isStale (cursor : Cursor) (key : KeyPlace) : Bool :=
  key.line < cursor.line || key.index + 1024 < cursor.index

/-- Gives up the possible keys that are too far back. -/
def dropStaleKeys (scanner : Scanner) : Option Scanner :=
  let stale := isStale scanner.cursor
  let keys := scanner.outerKey :: scanner.flowKeys
  if keys.any (·.any fun key => stale key && key.required) then none
  else
    let keep := fun (key : Option KeyPlace) => key.filter (!stale ·)
    some { scanner with
      outerKey := keep scanner.outerKey, flowKeys := scanner.flowKeys.map keep }

/-! ### Blocks -/

/-- Opens a block at a column, unless one is open there; its token stands behind
the first `count` ones. -/
def openBlock (scanner : Scanner) (column count : Nat) (token : Token) : Scanner :=
  if scanner.inFlow || scanner.blocks.head?.any (column ≤ ·) then scanner
  else { scanner.insertAt count token with blocks := column :: scanner.blocks }

/-- Closes the blocks that `closes` holds of, from the innermost on. -/
def closeBlocks (scanner : Scanner) (closes : Nat → Bool) : Scanner :=
  if scanner.inFlow then scanner
  else
    let closed := scanner.blocks.takeWhile closes
    { scanner with
      blocks := scanner.blocks.drop closed.length
      tokens := scanner.tokens ++ closed.map fun _ => Token.blockEnd }

def closeAllBlocks (scanner : Scanner) : Scanner := scanner.closeBlocks fun _ => true

/-! ### Between tokens -/

/-- Skips blanks, comments and line breaks. Outside of brackets, a tab must not
stand where a key may start, and a key may start behind a line break. -/
def skipToToken : Nat → Scanner → Scanner
  | 0, scanner => scanner
  | fuel + 1, scanner =>
    let tabs := scanner.inFlow || !scanner.keyAllowed
    let cursor := scanner.cursor.skipWhile fun c => c == ' ' || (tabs && c == '\t')
    let cursor := if cursor.sees '#' then cursor.skipWhile (!isBreak ·) else cursor
    match lineBreak? cursor.rest with
    | some _ =>
      skipToToken fuel
        ((scanner.moveTo cursor.nextLine).allowKey (scanner.keyAllowed || !scanner.inFlow))
    | none => scanner.moveTo cursor

/-! ### Tokens -/

/-- A mark of `length` characters that ends all blocks. -/
def documentMark (scanner : Scanner) (token : Token) : Option Scanner := do
  let scanner ← scanner.closeAllBlocks.dropKey
  some (((scanner.allowKey false).push token).moveTo (scanner.cursor.skip 3))

def directive (scanner : Scanner) : Option Scanner := do
  let scanner ← scanner.closeAllBlocks.dropKey
  let (token, cursor) ← directive? (scanner.cursor.skip 1)
  some (((scanner.allowKey false).push token).moveTo cursor)

def openFlow (scanner : Scanner) (token : Token) : Option Scanner := do
  let scanner ← scanner.markKey
  let scanner := { scanner with flowKeys := none :: scanner.flowKeys }
  some (((scanner.allowKey true).push token).moveTo (scanner.cursor.skip 1))

def closeFlow (scanner : Scanner) (token : Token) : Option Scanner := do
  let scanner ← scanner.dropKey
  let scanner := { scanner with flowKeys := scanner.flowKeys.drop 1 }
  some (((scanner.allowKey false).push token).moveTo (scanner.cursor.skip 1))

/-- A comma. -/
def flowEntry (scanner : Scanner) : Option Scanner := do
  let scanner ← scanner.dropKey
  some (((scanner.allowKey true).push .flowEntry).moveTo (scanner.cursor.skip 1))

def blockEntry (scanner : Scanner) : Option Scanner := do
  guard (scanner.inFlow || scanner.keyAllowed)
  let scanner :=
    scanner.openBlock scanner.cursor.column scanner.tokens.length .blockSequenceStart
  let scanner ← scanner.dropKey
  some (((scanner.allowKey true).push .blockEntry).moveTo (scanner.cursor.skip 1))

/-- A question mark in front of a key. -/
def explicitKey (scanner : Scanner) : Option Scanner := do
  guard (scanner.inFlow || scanner.keyAllowed)
  let scanner :=
    scanner.openBlock scanner.cursor.column scanner.tokens.length .blockMappingStart
  let scanner ← scanner.dropKey
  some (((scanner.allowKey (!scanner.inFlow)).push .key).moveTo (scanner.cursor.skip 1))

def valueMark (scanner : Scanner) : Option Scanner := do
  let scanner ← match scanner.currentKey with
    | some place =>
      let scanner := scanner.insertAt place.tokenCount .key
      let scanner := scanner.openBlock place.column place.tokenCount .blockMappingStart
      some ((scanner.setKey none).allowKey false)
    | none =>
      guard (scanner.inFlow || scanner.keyAllowed)
      let scanner :=
        scanner.openBlock scanner.cursor.column scanner.tokens.length .blockMappingStart
      some (scanner.allowKey (!scanner.inFlow))
  some ((scanner.push .value).moveTo (scanner.cursor.skip 1))

/-- A name behind an ampersand or an asterisk. -/
def anchorMark (scanner : Scanner) (token : String → Token) : Option Scanner := do
  let scanner ← scanner.markKey
  let (name, cursor) ← anchorName (scanner.cursor.skip 1)
  some (((scanner.allowKey false).push (token name)).moveTo cursor)

def tagMark (scanner : Scanner) : Option Scanner := do
  let scanner ← scanner.markKey
  let (mark, cursor) ← tag? scanner.inFlow scanner.cursor
  some (((scanner.allowKey false).push (.tag mark)).moveTo cursor)

def block (scanner : Scanner) (folded : Bool) : Option Scanner := do
  let scanner ← scanner.dropKey
  let (text, cursor) ← blockText folded scanner.level (scanner.cursor.skip 1)
  let token := Token.scalar .quoted (String.ofList text)
  some (((scanner.allowKey true).push token).moveTo cursor)

def quotedScalar (scanner : Scanner) (quote : Char) : Option Scanner := do
  let scanner ← scanner.markKey
  let start := scanner.cursor.skip 1
  let (text, cursor) ← quotedText quote (start.rest.length + 1) start
  let token := Token.scalar .quoted (String.ofList text)
  some (((scanner.allowKey false).push token).moveTo cursor)

/-- A plain scalar. If a line ends behind it, a key may follow. -/
def plainScalar (scanner : Scanner) : Option Scanner := do
  let scanner ← scanner.markKey
  let cursor := scanner.cursor
  let plain ← plainText scanner.inFlow scanner.level (cursor.rest.length + 1) cursor
  let token := Token.scalar .plain (String.ofList plain.text)
  some (((scanner.allowKey plain.brokeLine).push token).moveTo plain.after)

/-- Whether a plain scalar starts with `c`, which `next` follows. Some marks start
one if they are not followed by a blank. -/
def startsPlain (inFlow : Bool) (c : Char) (next : Option Char) : Bool :=
  let marks := ['-', '?', ':', ',', '[', ']', '\x7b', '\x7d', '#', '&', '*', '!', '|', '>', '\'',
    '"', '%', '@', '\x60']
  !(isSpaceOrTab c || isBreak c || marks.contains c) ||
    (c == '-' && !next.any isSpaceOrTab) ||
    (!inFlow && (c == '?' || c == ':') && !endsWord next)

def token (scanner : Scanner) (c : Char) : Option Scanner :=
  let cursor := scanner.cursor
  let inFlow := scanner.inFlow
  let next := cursor.peek 1
  if cursor.column == 0 && c == '%' then scanner.directive
  else if cursor.atIndicator '-' then scanner.documentMark .documentStart
  else if cursor.atIndicator '.' then scanner.documentMark .documentEnd
  else if c == '[' then scanner.openFlow .flowSequenceStart
  else if c == '\x7b' then scanner.openFlow .flowMappingStart
  else if c == ']' then scanner.closeFlow .flowSequenceEnd
  else if c == '\x7d' then scanner.closeFlow .flowMappingEnd
  else if c == ',' then scanner.flowEntry
  else if c == '-' && endsWord next then scanner.blockEntry
  else if c == '?' && (inFlow || endsWord next) then scanner.explicitKey
  else if c == ':' && (inFlow || endsWord next) then scanner.valueMark
  else if c == '*' then scanner.anchorMark .reference
  else if c == '&' then scanner.anchorMark .anchor
  else if c == '!' then scanner.tagMark
  else if c == '|' && !inFlow then scanner.block false
  else if c == '>' && !inFlow then scanner.block true
  else if c == '\'' || c == '"' then scanner.quotedScalar c
  else if startsPlain inFlow c next then scanner.plainScalar
  else none

/-- Reads the tokens up to the end of the text. -/
def run : Nat → Scanner → Option Scanner
  | 0, _ => none
  | fuel + 1, scanner => do
    let scanner ← (skipToToken (scanner.cursor.rest.length + 1) scanner).dropStaleKeys
    let column := scanner.cursor.column
    let scanner := scanner.closeBlocks (column < ·)
    match scanner.cursor.rest with
    | [] => scanner.closeAllBlocks.dropKey
    | c :: _ => run fuel (← scanner.token c)

end Scanner

/-- The tokens of a text, or none if it cannot be split into tokens. -/
def tokenize (text : String) : Option (List Token) := do
  let cs := Text.dropMark text.toList
  guard (cs.all isAllowed)
  let scanner ← Scanner.run (cs.length + 1) { cursor := { rest := cs } }
  some scanner.tokens

end ServiceInjection.Yaml
