import ServiceInjection.Yaml.Tokenize

/-!
# Yaml.Node

The nodes of a YAML document. Anchored nodes are numbered, and a reference names
the number of the last anchor with its name in front of it. The nodes that the
numbers stand for are kept beside the document, since a node may refer to a node
around it.
-/

namespace ServiceInjection.Yaml

inductive Node where
  | reference (number : Nat)
  | scalar (tag : Option String) (style : Style) (text : String)
  | sequence (tag : Option String) (items : List Node)
  | mapping (tag : Option String) (entries : List (Node × Node))
  deriving Repr

/-- The scalar where nothing is written. -/
def Node.empty : Node := .scalar none .plain ""

structure Composer where
  tokens : List Token
  /-- The names of anchors and their numbers, the last first. -/
  names : List (String × Nat) := []
  /-- The anchored nodes by number. -/
  targets : List (Nat × Node) := []
  /-- What handles in tags stand for. -/
  handles : List (String × String) := []

/-- A step that reads tokens, and fails where they do not fit. -/
abbrev Compose := StateT Composer Option

namespace Compose

def peek : Compose (Option Token) := do return (← get).tokens.head?

/-- Passes the next token. -/
def advance : Compose Unit := modify fun state => { state with tokens := state.tokens.drop 1 }

/-- Passes the next token, which has to be `token`. -/
def expect (token : Token) : Compose Unit := do
  if (← peek) == some token then advance else failure

/-- Passes the next token if it is `token`, and tells whether it was. -/
def accept (token : Token) : Compose Bool := do
  if (← peek) == some token then
    advance
    return true
  else return false

/-- Whether the next token is one of `tokens`. -/
def sees (tokens : List Token) : Compose Bool := do
  return (← peek).any (tokens.contains ·)

/-! ### Anchors and tags -/

/-- Gives an anchor its number. -/
def declare (name : String) : Compose Nat := do
  let state ← get
  let number := state.names.length
  set { state with names := (name, number) :: state.names }
  return number

/-- Keeps the node of an anchor. -/
def define (number : Nat) (node : Node) : Compose Unit :=
  modify fun state => { state with targets := (number, node) :: state.targets }

/-- The reference to an anchor, which has to be known. -/
def refer (name : String) : Compose Node := do
  match (← get).names.lookup name with
  | some number => return .reference number
  | none => failure

/-- The tag that a mark stands for. -/
def tagOf (mark : TagMark) : Compose String := do
  if mark.handle.isEmpty then return mark.suffix
  else match (← get).handles.lookup mark.handle with
    | some meaning => return meaning ++ mark.suffix
    | none => failure

/-- What stands in front of a node. -/
structure Properties where
  anchor : Option Nat := none
  tag : Option String := none

/-- Reads an anchor, if one comes next. -/
def anchor? : Compose (Option Nat) := do
  match ← peek with
  | some (.anchor name) =>
    advance
    return some (← declare name)
  | _ => return none

/-- Reads a tag, if one comes next. -/
def tag? : Compose (Option String) := do
  match ← peek with
  | some (.tag mark) =>
    advance
    return some (← tagOf mark)
  | _ => return none

/-- Reads an anchor and a tag in either order. -/
def properties : Compose Properties := do
  let first ← anchor?
  let tag ← tag?
  let anchor ← if first.isSome then pure first else anchor?
  return { anchor, tag }

/-- On scalars the tag that is a lone exclamation mark says nothing. -/
def scalarTag (tag : Option String) : Option String := tag.filter (· != "!")

/-! ### Nodes -/

mutual

/-- Reads a node. Brackets hold no blocks, so `block` tells whether one may come;
in the value of a key a sequence may stand without indentation, and `indentless`
tells whether it may. -/
def node (block indentless : Bool) : Nat → Compose Node
  | 0 => failure
  | fuel + 1 => do
    match ← peek with
    | some (.reference name) =>
      advance
      refer name
    | _ =>
      let properties ← properties
      let node ← content block indentless properties fuel
      if let some number := properties.anchor then define number node
      return node

/-- Reads a node behind its anchor and its tag. -/
def content (block indentless : Bool) (properties : Properties) : Nat → Compose Node
  | 0 => failure
  | fuel + 1 => do
    let tag := properties.tag
    match ← peek with
    | some (.scalar style text) =>
      advance
      return .scalar (scalarTag tag) style text
    | some .flowSequenceStart =>
      advance
      return .sequence tag (← flowItems true fuel)
    | some .flowMappingStart =>
      advance
      return .mapping tag (← flowEntries true fuel)
    | some .blockSequenceStart =>
      if block then
        advance
        return .sequence tag (← blockItems fuel)
      else bare properties
    | some .blockMappingStart =>
      if block then
        advance
        return .mapping tag (← blockEntries fuel)
      else bare properties
    | some .blockEntry =>
      if indentless then return .sequence tag (← indentlessItems fuel) else bare properties
    | _ => bare properties

/-- The items of a sequence with its own indentation. -/
def blockItems : Nat → Compose (List Node)
  | 0 => failure
  | fuel + 1 => do
    if ← accept .blockEnd then return []
    expect .blockEntry
    let item ←
      if ← sees [.blockEntry, .blockEnd] then pure Node.empty else node true false fuel
    return item :: (← blockItems fuel)

/-- The items of a sequence without indentation. -/
def indentlessItems : Nat → Compose (List Node)
  | 0 => failure
  | fuel + 1 => do
    if ← accept .blockEntry then
      let item ←
        if ← sees [.blockEntry, .key, .value, .blockEnd] then pure Node.empty
        else node true false fuel
      return item :: (← indentlessItems fuel)
    else return []

/-- The entries of a block mapping. -/
def blockEntries : Nat → Compose (List (Node × Node))
  | 0 => failure
  | fuel + 1 => do
    if ← accept .blockEnd then return []
    expect .key
    let ends := sees [.key, .value, .blockEnd]
    let key ← if ← ends then pure Node.empty else node true true fuel
    let value ←
      if ← accept .value then
        (do if ← ends then pure Node.empty else node true true fuel)
      else pure Node.empty
    return (key, value) :: (← blockEntries fuel)

/-- The items of a sequence in brackets. An item may be a single entry of a
mapping. -/
def flowItems (first : Bool) : Nat → Compose (List Node)
  | 0 => failure
  | fuel + 1 => do
    if ← accept .flowSequenceEnd then return []
    if !first then expect .flowEntry
    if ← accept .flowSequenceEnd then return []
    let item ←
      if ← accept .key then
        (do return Node.mapping none [← flowPair fuel])
      else node false false fuel
    return item :: (← flowItems false fuel)

/-- The single entry of a mapping in a sequence. Where no key is written, the next
token is passed over. -/
def flowPair : Nat → Compose (Node × Node)
  | 0 => failure
  | fuel + 1 => do
    let key ←
      if ← sees [.value, .flowEntry, .flowSequenceEnd] then
        (do
          advance
          return Node.empty)
      else node false false fuel
    let value ←
      if ← accept .value then
        (do
          if ← sees [.flowEntry, .flowSequenceEnd] then pure Node.empty
          else node false false fuel)
      else pure Node.empty
    return (key, value)

/-- The entries of a mapping in braces. -/
def flowEntries (first : Bool) : Nat → Compose (List (Node × Node))
  | 0 => failure
  | fuel + 1 => do
    if ← accept .flowMappingEnd then return []
    if !first then expect .flowEntry
    if ← accept .flowMappingEnd then return []
    let entry ←
      if ← accept .key then
        (do
          let key ←
            if ← sees [.value, .flowEntry, .flowMappingEnd] then pure Node.empty
            else node false false fuel
          let value ←
            if ← accept .value then
              (do
                if ← sees [.flowEntry, .flowMappingEnd] then pure Node.empty
                else node false false fuel)
            else pure Node.empty
          return (key, value))
      else (do return (← node false false fuel, Node.empty))
    return entry :: (← flowEntries false fuel)

/-- A node of which only an anchor or a tag is written. -/
def bare (properties : Properties) : Compose Node :=
  if properties.anchor.isSome || properties.tag.isSome then
    return .scalar properties.tag .plain ""
  else failure

end

/-! ### Documents -/

/-- What the handles without a directive stand for. -/
def defaultHandles : List (String × String) := [("!", "!"), ("!!", "tag:yaml.org,2002:")]

/-- Reads the directives in front of a document: at most one version, and each
handle once. Gives back whether there were any. -/
def directives : Nat → Option (Nat × Nat) → List (String × String) → Compose Bool
  | 0, _, _ => failure
  | fuel + 1, version, handles => do
    match ← peek with
    | some (.version major minor) =>
      if version.isSome || major != 1 || !(minor == 1 || minor == 2) then failure
      advance
      directives fuel (some (major, minor)) handles
    | some (.handle name meaning) =>
      if (handles.lookup name).isSome then failure
      advance
      directives fuel version ((name, meaning) :: handles)
    | _ =>
      modify fun state => { state with handles := handles ++ defaultHandles }
      return version.isSome || !handles.isEmpty

/-- Passes the marks of the end of a document. -/
def documentEnds : Nat → Compose Unit
  | 0 => failure
  | fuel + 1 => do if ← accept .documentEnd then documentEnds fuel

/-- Reads a text with at most one document. -/
def singleDocument : Compose (Option Node) := do
  let fuel := 2 * (← get).tokens.length + 4
  let directed ← directives fuel none []
  let started ← accept .documentStart
  if directed && !started then failure
  if (← peek).isNone && !started then return none
  let root ←
    if started && ((← peek).isNone || (← sees [.documentStart, .documentEnd])) then
      pure Node.empty
    else node true false fuel
  documentEnds fuel
  if (← peek).isNone then return some root else failure

end Compose

/-- A document: its outermost node, if there is one, and its anchored nodes. -/
structure Document where
  root : Option Node
  targets : List (Nat × Node)

namespace Document

/-- The document that tokens make up, if they make up one. -/
def ofTokens? (tokens : List Token) : Option Document := do
  let (root, state) ← Compose.singleDocument.run { tokens }
  some ⟨root, state.targets⟩

/-- The node that a node stands for. -/
def resolve (document : Document) : Node → Option Node
  | .reference number => document.targets.lookup number
  | node => some node

end Document

end ServiceInjection.Yaml
