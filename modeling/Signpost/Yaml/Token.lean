/-! # Tokens

The tokens that a YAML text is made of. Indentation and keys that are not marked as such are made
plain: blocks have a start and an end, and every key has a token before it.
-/
namespace Signpost.Yaml

/-- The octets of a tag, or of a part of one. -/
abbrev Octets := List UInt8

inductive Token where
  | version (major minor : Nat)
  | tagDirective (handle : List Char) (start : Octets)
  | documentStart
  | documentEnd
  | blockSequenceStart
  | blockMappingStart
  | blockEnd
  | blockEntry
  | flowSequenceStart
  | flowSequenceEnd
  | flowMappingStart
  | flowMappingEnd
  | flowEntry
  | key
  | value
  | alias (name : List Char)
  | anchor (name : List Char)
  | tag (handle : List Char) (suffix : Octets)
  | scalar (text : List Char) (plain : Bool)
  deriving DecidableEq, Repr

end Signpost.Yaml
