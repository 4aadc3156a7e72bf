import Signpost.Pattern
import Signpost.Placeholder

/-! # Scopes

A scope is a chain of levels, outermost first. Each level has its own conditions, parameters and
placeholders; a scope merges them: the path fragments of its levels are joined, and of other
conditions, parameters and placeholders the innermost wins.
-/
namespace Signpost

abbrev Params := Entries String String

/-- A condition made ready: its expression with groups for placeholders, the expression as it was
declared, and the template if it is one. -/
structure Condition where
  source : List Char
  declared : String
  template : Option String
  isRegex : Bool
  deriving DecidableEq, Repr

structure Level where
  conditions : Entries Field Condition
  /-- Where each placeholder is captured: the field, and the group within this level. -/
  placeholders : Entries String (Field × Nat)
  params : Params
  hasRegex : Bool
  deriving DecidableEq, Repr

namespace Level

def isEmptyPath (field : Field) (source : String) : Bool :=
  field == .path && (source == "" || source == "^$")

def kept (conditions : Conditions) : List (Field × Pattern) :=
  conditions.filter fun (field, p) => !isEmptyPath field (p.source field)

def condition (field : Field) (p : Pattern) : Condition :=
  let declared := p.source field
  ⟨(Placeholder.substitute declared.toList).1, declared, p.template?, p.isRegex⟩

def found (field : Field) (p : Pattern) : List (String × (Field × Nat)) :=
  (Placeholder.substitute (p.source field).toList).2.map fun (name, group) =>
    (name, (field, group))

/-- A level that declares conditions and parameters. Every placeholder is a parameter of its own
name unless the declaration gives that parameter. -/
def declare (conditions : Conditions) (params : List (String × String)) : Level :=
  let kept := kept conditions
  let found := kept.flatMap fun (field, p) => found field p
  { conditions := kept.map fun (field, p) => (field, condition field p)
    placeholders := Entries.ofList found
    params := (Entries.ofList (found.map fun (name, _) => (name, ":" ++ name))).extend params
    hasRegex := kept.any fun (_, p) => p.isRegex }

def pathGroups (l : Level) : Nat :=
  match l.conditions.find? .path with
  | some c => Placeholder.countGroups c.source
  | none => 0

end Level

/-- The levels around a declaration, outermost first. -/
abbrev Scope := List Level

namespace Scope

/-- Joins two path fragments, without the anchors that meet where they join. -/
def joinFragments (head tail : List Char) : List Char :=
  let head := if head.getLast? = some '$' then head.dropLast else head
  let tail := if tail.head? = some '^' then tail.drop 1 else tail
  head ++ tail

def mergeCondition (merged : Entries Field (List Char)) (field : Field) (text : List Char) :
    Entries Field (List Char) :=
  match field, merged.find? .path with
  | .path, some head => merged.insert .path (joinFragments head text)
  | field, _ => merged.insert field text

def merge (pick : Condition → List Char) (s : Scope) : Entries Field (List Char) :=
  s.foldl (fun merged l =>
    l.conditions.foldl (fun merged (field, c) => mergeCondition merged field (pick c)) merged) []

def sources (s : Scope) : Entries Field (List Char) :=
  merge Condition.source s

def declaredSources (s : Scope) : Entries Field (List Char) :=
  merge (·.declared.toList) s

def template : Scope → Except Irreversible (List Char)
  | [] => .ok []
  | l :: rest =>
    match l.conditions.find? .path with
    | none => template rest
    | some c =>
      match c.template with
      | some text => (template rest).map (text.toList ++ ·)
      | none => .error (.expression c.declared)

def segments (s : Scope) : Except Irreversible (List Segment) :=
  s.template.bind Segment.ofTemplate

def params (s : Scope) : Params :=
  s.foldl (fun merged l => merged.extend l.params) []

/-- The placeholder's place when `before` groups of the path precede its level. -/
def shift (before : Nat) (place : Field × Nat) : Field × Nat :=
  if place.1 = .path then (place.1, place.2 + before) else place

/-- Placeholders of all levels; groups of the path are counted across the levels. -/
def placeholdersFrom (before : Nat) (merged : Entries String (Field × Nat)) :
    Scope → Entries String (Field × Nat)
  | [] => merged
  | l :: rest =>
    placeholdersFrom (before + l.pathGroups)
      (merged.extend (l.placeholders.mapValues (shift before))) rest

def placeholders (s : Scope) : Entries String (Field × Nat) :=
  placeholdersFrom 0 [] s

def hasRegex (s : Scope) : Bool :=
  s.any (·.hasRegex)

def within (s : Scope) (conditions : Conditions) (params : List (String × String)) : Scope :=
  s ++ [Level.declare conditions params]

end Scope

end Signpost
