import Signpost.Yaml.Node

/-! # Aliases

Anchors are numbered in the order of the text by how many names are known before each; an alias
has the number of its name, and leads to the last node that got this number. Aliases are replaced
by what they lead to, within limits on depth and on the number of replacements.
-/
namespace Signpost.Yaml

abbrev Tree := Node Empty

namespace Alias

abbrev Names := List (List Char × Nat)

/-- Numbers a name; a name that is known gets a new number too. -/
def number (names : Names) (name : List Char) : Nat × Names :=
  (names.length, (name, names.length) :: names.filter (·.1 != name))

def numberProperties (names : Names) (p : Properties (List Char)) : Properties Nat × Names :=
  match p.anchor with
  | some name =>
    let (n, names) := number names name
    (⟨some n, p.tag⟩, names)
  | none => (⟨none, p.tag⟩, names)

mutual

def link? (names : Names) : Node (List Char) → Option (Node Nat × Names)
  | .alias name => (names.lookup name).map fun n => (.alias n, names)
  | .scalar p text plain =>
    let (p, names) := numberProperties names p
    some (.scalar p text plain, names)
  | .sequence p items => do
    let (p, names) := numberProperties names p
    let (items, names) ← linkItems? names items
    return (.sequence p items, names)
  | .mapping p pairs => do
    let (p, names) := numberProperties names p
    let (pairs, names) ← linkPairs? names pairs
    return (.mapping p pairs, names)

def linkItems? (names : Names) : List (Node (List Char)) → Option (List (Node Nat) × Names)
  | [] => some ([], names)
  | item :: items => do
    let (item, names) ← link? names item
    let (items, names) ← linkItems? names items
    return (item :: items, names)

def linkPairs? (names : Names) :
    List (Node (List Char) × Node (List Char)) → Option (List (Node Nat × Node Nat) × Names)
  | [] => some ([], names)
  | (key, value) :: pairs => do
    let (key, names) ← link? names key
    let (value, names) ← link? names value
    let (pairs, names) ← linkPairs? names pairs
    return ((key, value) :: pairs, names)

end

def anchorOf (p : Properties Nat) (node : Node Nat) : List (Nat × Node Nat) :=
  match p.anchor with
  | some n => [(n, node)]
  | none => []

mutual

def anchored : Node Nat → List (Nat × Node Nat)
  | .alias _ => []
  | .scalar p text plain => anchorOf p (.scalar p text plain)
  | .sequence p items => anchorOf p (.sequence p items) ++ anchoredItems items
  | .mapping p pairs => anchorOf p (.mapping p pairs) ++ anchoredPairs pairs

def anchoredItems : List (Node Nat) → List (Nat × Node Nat)
  | [] => []
  | item :: items => anchored item ++ anchoredItems items

def anchoredPairs : List (Node Nat × Node Nat) → List (Nat × Node Nat)
  | [] => []
  | (key, value) :: pairs => anchored key ++ anchored value ++ anchoredPairs pairs

end

mutual

/-- The number of scalars, aliases, and ends of collections. -/
def weight : Node Nat → Nat
  | .alias _ => 1
  | .scalar _ _ _ => 1
  | .sequence _ items => 2 + weightItems items
  | .mapping _ pairs => 2 + weightPairs pairs

def weightItems : List (Node Nat) → Nat
  | [] => 0
  | item :: items => weight item + weightItems items

def weightPairs : List (Node Nat × Node Nat) → Nat
  | [] => 0
  | (key, value) :: pairs => weight key + weight value + weightPairs pairs

end

def maxDepth : Nat := 128

/-- A computation that spends a number of replacements. -/
abbrev Spend := StateT Nat Option

def follow (anchors : List (Nat × Node Nat)) : Node Nat → Spend (Node Nat)
  | .alias n => do
    match ← get with
    | 0 => failure
    | left + 1 => set left
    match anchors.reverse.lookup n with
    | some node => pure node
    | none => failure
  | node => pure node

/-- Replaces aliases in a node whose collections are nested at most `depth` deep. -/
def expand (anchors : List (Nat × Node Nat)) : Nat → Node Nat → Spend Tree
  | 0, node => do
    match ← follow anchors node with
    | .scalar p text plain => pure (.scalar ⟨none, p.tag⟩ text plain)
    | _ => failure
  | depth + 1, node => do
    match ← follow anchors node with
    | .scalar p text plain => pure (.scalar ⟨none, p.tag⟩ text plain)
    | .sequence p items => return .sequence ⟨none, p.tag⟩ (← items.mapM (expand anchors depth))
    | .mapping p pairs =>
      return .mapping ⟨none, p.tag⟩ (← pairs.mapM fun (key, value) => do
        return (← expand anchors depth key, ← expand anchors depth value))
    | .alias _ => failure

/-- The tree of a document; a hundred replacements are allowed for each part of it. -/
def tree? (root : Node (List Char)) : Option Tree := do
  let (root, _) ← link? [] root
  let (tree, _) ← (expand (anchored root) maxDepth root).run (100 * weight root)
  return tree

end Alias

end Signpost.Yaml
