import Signpost.Yaml.Token

/-! # Nodes

The tree that the tokens of one document write. Nodes carry anchors and tags; an alias stands for
a node elsewhere. What names a node is a parameter: a text at first, then a number, and in a tree
without aliases nothing.
-/
namespace Signpost.Yaml

structure Properties (Name : Type) where
  anchor : Option Name
  tag : Option Octets
  deriving DecidableEq, Repr

inductive Node (Name : Type) where
  | alias (name : Name)
  | scalar (properties : Properties Name) (text : String) (plain : Bool)
  | sequence (properties : Properties Name) (items : List (Node Name))
  | mapping (properties : Properties Name) (pairs : List (Node Name × Node Name))

namespace Node

def missing {Name : Type} : Node Name :=
  scalar ⟨none, none⟩ "" true

end Node

abbrev TagTable := List (List Char × Octets)

namespace Grammar

abbrev Named := Node (List Char)

def fullTag? (tags : TagTable) (handle : List Char) (suffix : Octets) : Option Octets :=
  if handle.isEmpty then some suffix
  else (tags.lookup handle).map (· ++ suffix)

def properties? (tags : TagTable) : List Token → Option (Properties (List Char) × List Token)
  | .anchor name :: .tag handle suffix :: rest =>
    (fullTag? tags handle suffix).map fun tag => (⟨some name, some tag⟩, rest)
  | .tag handle suffix :: .anchor name :: rest =>
    (fullTag? tags handle suffix).map fun tag => (⟨some name, some tag⟩, rest)
  | .anchor name :: rest => some (⟨some name, none⟩, rest)
  | .tag handle suffix :: rest =>
    (fullTag? tags handle suffix).map fun tag => (⟨none, some tag⟩, rest)
  | rest => some (⟨none, none⟩, rest)

/-- The tag of one exclamation mark says nothing about a scalar that is there. -/
def writtenScalar (p : Properties (List Char)) (text : List Char) (plain : Bool) : Named :=
  let tag := p.tag.filter (· != [33])
  .scalar { p with tag } (String.ofList text) plain

def unwritten? (p : Properties (List Char)) (rest : List Token) : Option (Named × List Token) :=
  if p.anchor.isSome || p.tag.isSome then some (.scalar p "" true, rest) else none

def startsIn (ends : List Token) : List Token → Bool
  | [] => false
  | t :: _ => ends.contains t

mutual

/-- The node at the start; `block` allows blocks, and `indentless` also the entries of a sequence
that is indented no more than the key before it. -/
def node? (tags : TagTable) (block indentless : Bool) :
    Nat → List Token → Option (Named × List Token)
  | 0, _ => none
  | _ + 1, .alias name :: rest => some (.alias name, rest)
  | fuel + 1, ts => do
    let (p, ts) ← properties? tags ts
    match ts with
    | .scalar text plain :: rest => some (writtenScalar p text plain, rest)
    | .flowSequenceStart :: rest =>
      let (items, rest) ← flowItems? tags true fuel rest
      return (.sequence p items, rest)
    | .flowMappingStart :: rest =>
      let (pairs, rest) ← flowPairs? tags true fuel rest
      return (.mapping p pairs, rest)
    | .blockEntry :: _ =>
      if indentless then
        let (items, rest) ← indentlessItems? tags fuel ts
        return (.sequence p items, rest)
      else unwritten? p ts
    | .blockSequenceStart :: rest =>
      if block then
        let (items, rest) ← blockItems? tags fuel rest
        return (.sequence p items, rest)
      else unwritten? p ts
    | .blockMappingStart :: rest =>
      if block then
        let (pairs, rest) ← blockPairs? tags fuel rest
        return (.mapping p pairs, rest)
      else unwritten? p ts
    | _ => unwritten? p ts

def optional? (tags : TagTable) (block indentless : Bool) (ends : List Token) :
    Nat → List Token → Option (Named × List Token)
  | 0, _ => none
  | fuel + 1, ts =>
    if startsIn ends ts then some (.missing, ts) else node? tags block indentless fuel ts

def afterColon? (tags : TagTable) (block : Bool) (ends : List Token) :
    Nat → List Token → Option (Named × List Token)
  | 0, _ => none
  | fuel + 1, .value :: rest => optional? tags block block ends fuel rest
  | _ + 1, ts => some (.missing, ts)

def blockItems? (tags : TagTable) : Nat → List Token → Option (List Named × List Token)
  | fuel + 1, .blockEntry :: rest => do
    let (item, rest) ← optional? tags true false [.blockEntry, .blockEnd] fuel rest
    let (items, rest) ← blockItems? tags fuel rest
    return (item :: items, rest)
  | _ + 1, .blockEnd :: rest => some ([], rest)
  | _, _ => none

def indentlessItems? (tags : TagTable) : Nat → List Token → Option (List Named × List Token)
  | 0, _ => none
  | fuel + 1, .blockEntry :: rest => do
    let (item, rest) ←
      optional? tags true false [.blockEntry, .key, .value, .blockEnd] fuel rest
    let (items, rest) ← indentlessItems? tags fuel rest
    return (item :: items, rest)
  | _ + 1, ts => some ([], ts)

def blockPairs? (tags : TagTable) : Nat → List Token → Option (List (Named × Named) × List Token)
  | fuel + 1, .key :: rest => do
    let (key, rest) ← optional? tags true true [.key, .value, .blockEnd] fuel rest
    let (value, rest) ← afterColon? tags true [.key, .value, .blockEnd] fuel rest
    let (pairs, rest) ← blockPairs? tags fuel rest
    return ((key, value) :: pairs, rest)
  | _ + 1, .blockEnd :: rest => some ([], rest)
  | _, _ => none

/-- A pair inside brackets, after the mark of its key. The token that ends an empty key there is
dropped. -/
def singlePair? (tags : TagTable) : Nat → List Token → Option (Named × List Token)
  | 0, _ => none
  | fuel + 1, ts => do
    let (key, rest) ←
      if startsIn [.value, .flowEntry, .flowSequenceEnd] ts then some (.missing, ts.tail)
      else node? tags false false fuel ts
    let (value, rest) ← afterColon? tags false [.flowEntry, .flowSequenceEnd] fuel rest
    return (.mapping ⟨none, none⟩ [(key, value)], rest)

/-- Items in brackets; a comma stands before each but the first. -/
def flowItems? (tags : TagTable) (first : Bool) :
    Nat → List Token → Option (List Named × List Token)
  | 0, _ => none
  | _ + 1, .flowSequenceEnd :: rest => some ([], rest)
  | fuel + 1, ts => do
    let ts ← if first then some ts else
      match ts with
      | .flowEntry :: rest => some rest
      | _ => none
    match ts with
    | .flowSequenceEnd :: rest => return ([], rest)
    | .key :: rest =>
      let (item, rest) ← singlePair? tags fuel rest
      let (items, rest) ← flowItems? tags false fuel rest
      return (item :: items, rest)
    | _ =>
      let (item, rest) ← node? tags false false fuel ts
      let (items, rest) ← flowItems? tags false fuel rest
      return (item :: items, rest)

/-- Pairs in braces; a key that is not marked as such has no value. -/
def flowPairs? (tags : TagTable) (first : Bool) :
    Nat → List Token → Option (List (Named × Named) × List Token)
  | 0, _ => none
  | _ + 1, .flowMappingEnd :: rest => some ([], rest)
  | fuel + 1, ts => do
    let ts ← if first then some ts else
      match ts with
      | .flowEntry :: rest => some rest
      | _ => none
    match ts with
    | .flowMappingEnd :: rest => return ([], rest)
    | .key :: rest =>
      let (key, rest) ←
        optional? tags false false [.value, .flowEntry, .flowMappingEnd] fuel rest
      let (value, rest) ← afterColon? tags false [.flowEntry, .flowMappingEnd] fuel rest
      let (pairs, rest) ← flowPairs? tags false fuel rest
      return ((key, value) :: pairs, rest)
    | _ =>
      let (key, rest) ← node? tags false false fuel ts
      let (pairs, rest) ← flowPairs? tags false fuel rest
      return ((key, .missing) :: pairs, rest)

end

structure Preamble where
  versioned : Bool
  tags : TagTable

/-- Reads directives; each may be given once, and the version has to be 1.1 or 1.2. -/
def directives? (d : Preamble) : List Token → Option (TagTable × List Token)
  | .version major minor :: rest =>
    if d.versioned || major ≠ 1 || !(minor = 1 || minor = 2) then none
    else directives? { d with versioned := true } rest
  | .tagDirective handle start :: rest =>
    if (d.tags.lookup handle).isSome then none
    else directives? { d with tags := d.tags ++ [(handle, start)] } rest
  | ts => some (d.tags, ts)

def defaultTags : TagTable :=
  [(['!'], [33]), (['!', '!'], "tag:yaml.org,2002:".toUTF8.toList)]

def startsMarked : List Token → Bool
  | .version _ _ :: _ => true
  | .tagDirective _ _ :: _ => true
  | .documentStart :: _ => true
  | _ => false

def content? (tags : TagTable) (fuel : Nat) (ts : List Token) : Option (Named × List Token) :=
  if ts.isEmpty || startsMarked ts || startsIn [.documentEnd] ts then some (.missing, ts)
  else node? tags true false fuel ts

def document? (fuel : Nat) (ts : List Token) : Option (Named × List Token) :=
  if startsMarked ts then do
    let (tags, ts) ← directives? ⟨false, []⟩ ts
    match ts with
    | .documentStart :: rest => content? (tags ++ defaultTags) fuel rest
    | _ => none
  else node? defaultTags true false fuel ts

def root? (ts : List Token) : Option (Option Named) :=
  if ts.isEmpty then some none
  else do
    let (root, rest) ← document? (4 * ts.length + 4) ts
    if rest.all (· == .documentEnd) then some (some root) else none

end Grammar

end Signpost.Yaml
