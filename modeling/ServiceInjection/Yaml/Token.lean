/-!
# Yaml.Token

The tokens of a YAML text. Blocks are marked by their indentation alone, so tokens
for their starts and ends stand between those that are written.
-/

namespace ServiceInjection.Yaml

/-- Whether a scalar is written without quotes. Only such a scalar may be something
other than a string. -/
inductive Style where
  | plain
  | quoted
  deriving DecidableEq, Repr

/-- A tag as it is written: a handle, whose meaning directives may set, and the
rest. -/
structure TagMark where
  handle : String
  suffix : String
  deriving DecidableEq, Repr

inductive Token where
  /-- The version of YAML that a document asks for. -/
  | version (major minor : Nat)
  /-- What a handle in tags stands for. -/
  | handle (name : String) (meaning : String)
  | documentStart
  | documentEnd
  | blockSequenceStart
  | blockMappingStart
  | blockEnd
  | flowSequenceStart
  | flowSequenceEnd
  | flowMappingStart
  | flowMappingEnd
  /-- The dash in front of an item. -/
  | blockEntry
  /-- The comma behind an item. -/
  | flowEntry
  | key
  | value
  | reference (name : String)
  | anchor (name : String)
  | tag (mark : TagMark)
  | scalar (style : Style) (text : String)
  deriving DecidableEq, Repr

end ServiceInjection.Yaml
