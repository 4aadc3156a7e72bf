import Signpost.Text.Numeral
import Signpost.Yaml.Source
import Signpost.Yaml.Token

/-! # Names, tags and directives

Nodes are named by anchors and typed by tags; directives at the start of a document give its
version and abbreviate tags. Tags are addresses, in which octets may be escaped.
-/
namespace Signpost.Yaml
open Signpost.Text

/-- The name of an anchor or an alias. It ends before a gap or a mark. -/
def anchorName? (s : Source) : Option (List Char × Source) :=
  let (name, rest) := s.takeText isNameChar
  let ends := rest.atGap || rest.startsIn ['?', ':', ',', ']', '\x7d', '%', '@', '\x60']
  if !name.isEmpty && ends then some (name, rest) else none

def isAddressChar (verbatim : Bool) (c : Char) : Bool :=
  isNameChar c || ";/?:@&=+$.%!~*'()".toList.contains c || (verbatim && [',', '[', ']'].contains c)

def followers? (octet : Nat) : Option Nat :=
  if octet < 0x80 then some 0
  else if octet / 32 = 6 then some 1
  else if octet / 16 = 14 then some 2
  else if octet / 8 = 30 then some 3
  else none

/-- How many octets of a character are missing after one more, when `missing` were before it. -/
def octetStep? (missing octet : Nat) : Option Nat :=
  if missing = 0 then followers? octet
  else if octet / 64 = 2 then some (missing - 1)
  else none

def escapedOctet? (high low : Char) : Option Nat :=
  if Numeral.isDigit 16 high && Numeral.isDigit 16 low then
    some (16 * Numeral.digitValue high + Numeral.digitValue low)
  else none

/-- Reads on after `taken`, which is held in reverse. Every octet of a character is escaped if
the first one is. -/
def addressFrom? (verbatim : Bool) (missing : Nat) (taken : Octets) :
    Source → Option (Octets × Source)
  | [] => if missing = 0 then some (taken.reverse, []) else none
  | p :: rest =>
    if p.char = '%' then
      match rest with
      | high :: low :: rest =>
        match escapedOctet? high.char low.char with
        | some octet =>
          match octetStep? missing octet with
          | some missing => addressFrom? verbatim missing (UInt8.ofNat octet :: taken) rest
          | none => none
        | none => none
      | _ => none
    else if missing ≠ 0 then none
    else if isAddressChar verbatim p.char then
      addressFrom? verbatim 0 (UInt8.ofNat p.char.toNat :: taken) rest
    else some (taken.reverse, p :: rest)

def address? (verbatim : Bool) (s : Source) : Option (Octets × Source) :=
  (addressFrom? verbatim 0 [] s).filter fun (octets, _) => !octets.isEmpty

def octets (cs : List Char) : Octets :=
  cs.map fun c => UInt8.ofNat c.toNat

def verbatimTag? (s : Source) : Option (Token × Source) := do
  let (suffix, rest) ← address? true s
  if rest.startsWith '>' then some (.tag [] suffix, rest.drop 1) else none

/-- A tag with a handle between two exclamation marks, or with the handle of one mark. The mark
alone is a tag of its own. -/
def handledTag? (s : Source) : Option (Token × Source) := do
  let (name, after) := s.takeText isNameChar
  if after.startsWith '!' then
    let (suffix, rest) ← address? false (after.drop 1)
    return (.tag ('!' :: (name ++ ['!'])) suffix, rest)
  else
    let (suffix, rest) ← addressFrom? false 0 (octets name).reverse after
    return (if suffix.isEmpty then .tag [] (octets ['!']) else .tag ['!'] suffix, rest)

/-- The tag after its first exclamation mark. It ends before a gap, and in collections before a
comma. -/
def tag? (flow : Bool) (s : Source) : Option (Token × Source) := do
  let (token, rest) ← if s.startsWith '<' then verbatimTag? (s.drop 1) else handledTag? s
  if rest.atGap || (flow && rest.startsWith ',') then some (token, rest) else none

def versionNumber? (s : Source) : Option (Nat × Source) :=
  let (digits, rest) := s.takeText Char.isDigit
  if digits.isEmpty || 9 < digits.length then none
  else some (Numeral.value 10 digits, rest)

def versionDirective? (s : Source) : Option (Token × Source) := do
  let (major, rest) ← versionNumber? s
  if rest.startsWith '.' then
    let (minor, rest) ← versionNumber? (rest.drop 1)
    return (.version major minor, rest)
  else none

def directiveHandle? (s : Source) : Option (List Char × Source) :=
  let (name, rest) := Source.takeText isNameChar (s.drop 1)
  if !s.startsWith '!' then none
  else if rest.startsWith '!' then some ('!' :: (name ++ ['!']), rest.drop 1)
  else if name.isEmpty then some (['!'], rest)
  else none

def tagDirective? (s : Source) : Option (Token × Source) := do
  let (handle, rest) ← directiveHandle? s
  if rest.atGap && !rest.atLineEnd then
    let (start, rest) ← address? true rest.dropBlanks
    if rest.atGap then some (.tagDirective handle start, rest) else none
  else none

def directive? (s : Source) : Option (Token × Source) := do
  let (name, rest) := s.takeText isNameChar
  if !rest.atGap then none
  else
    let (token, rest) ←
      if name = "YAML".toList then versionDirective? rest.dropBlanks
      else if name = "TAG".toList then tagDirective? rest.dropBlanks
      else none
    return (token, ← rest.endLine?)

end Signpost.Yaml
