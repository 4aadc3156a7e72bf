import Signpost.RouteFile.Entry
import Signpost.Unicode.Property
import Signpost.Yaml.Alias
import Signpost.Yaml.Data
import Signpost.Yaml.Layout

/-! # Reading route files

An entry is of the first kind whose fields it has. Its fields are given by name, or all in their
order. Fields that a kind does not have are refused; in patterns they are ignored.
-/
namespace Signpost
open Signpost.Yaml

namespace Read

def text? : Data → Option String
  | .text s => some s
  | _ => none

def bool? : Data → Option Bool
  | .bool b => some b
  | _ => none

def paramValue? : Data → Option ParamValue
  | .text s => some (.text s)
  | .bool b => some (.bool b)
  | data => data.numberText?.map .number

/-- A map from texts, in which the last entry for a key counts. -/
def map? {α : Type} (value? : Data → Option α) : Data → Option (Entries String α)
  | .map pairs =>
    (pairs.mapM fun (key, value) => do return (← text? key, ← value? value)).map Entries.ofList
  | _ => none

def params? : Data → Option ParamValues :=
  map? paramValue?

def methods? : Data → Option Methods
  | .text s => some (.one s)
  | .list items => (items.mapM text?).map .many
  | _ => none

/-- Whether a key stands for a field, the first and only one: by its name or its number. Other
texts and numbers stand for no field. -/
def selects? (field : String) : Data → Option Bool
  | .text s => some (s = field)
  | .natural n => some (n = 0)
  | _ => none

def valuesOf? (field : String) (pairs : List (Data × Data)) : Option (List Data) := do
  let values ← pairs.mapM fun (key, value) => do
    return if ← selects? field key then [value] else []
  return values.flatten

def onlyField? (field : String) (pairs : List (Data × Data)) : Option String :=
  match valuesOf? field pairs with
  | some [value] => text? value
  | _ => none

def pattern? : Data → Option Pattern
  | .text s => some (.literal s)
  | .map pairs =>
    ((onlyField? "regex" pairs).map Pattern.regex).or
      ((onlyField? "symbol" pairs).map Pattern.symbol)
  | _ => none

end Read

/-- A value, and the entries that it is read as where entries are expected. -/
structure Cell where
  data : Data
  entries? : Option (List Entry)

structure Fields where
  cells : List (String × Cell)
  ordered : Bool

namespace Fields

def fieldName? (names : List String) : Data → Option String
  | .text s => if names.contains s then some s else none
  | .natural n => names[n]?
  | _ => none

/-- Fields by name; every key is a field, and none comes twice. -/
def named? (names : List String) (cells : List (Data × Cell)) : Option Fields := do
  let cells ← cells.mapM fun (key, cell) => (fieldName? names key).map (·, cell)
  if (cells.map Prod.fst).Nodup then some ⟨cells, false⟩ else none

/-- Fields in their order; the last ones may be missing. -/
def ordered? (names : List String) (cells : List Cell) : Option Fields :=
  if cells.length ≤ names.length then some ⟨names.zip cells, true⟩ else none

variable {α : Type}

def cell? (f : Fields) (name : String) : Option Cell :=
  f.cells.lookup name

def required? (f : Fields) (name : String) (read? : Data → Option α) : Option α :=
  (f.cell? name).bind fun cell => read? cell.data

def nullable? (read? : Data → Option α) : Data → Option (Option α)
  | .null => some none
  | data => (read? data).map some

/-- A field that may be missing or nothing; among fields in order it must not be missing. -/
def optional? (f : Fields) (name : String) (read? : Data → Option α) : Option (Option α) :=
  match f.cell? name with
  | some cell => nullable? read? cell.data
  | none => if f.ordered then none else some none

def defaulted? (f : Fields) (name : String) (default : α) (read? : Data → Option α) : Option α :=
  match f.cell? name with
  | some cell => read? cell.data
  | none => some default

def nested? (f : Fields) (name : String) : Option (List Entry) :=
  match f.cell? name with
  | some cell => cell.entries?
  | none => some []

end Fields

inductive EntryKind where
  | resources
  | resource
  | defaultRoutes
  | matching
  deriving DecidableEq, Repr

namespace EntryKind

def all : List EntryKind :=
  [resources, resource, defaultRoutes, matching]

def fieldNames : EntryKind → List String
  | resources =>
    ["resources", "name_prefix", "controller", "singular", "member", "collection", "params",
     "scope"]
  | resource => ["resource", "name_prefix", "controller", "params", "scope"]
  | defaultRoutes => ["default_routes", "params"]
  | matching => ["path", "conditions", "params", "name", "scope", "catch_all"]

def readResources? (f : Fields) : Option Entry := do
  let entry : ResourcesEntry := {
    resources := ← f.required? "resources" Read.text?
    namePrefix := ← f.optional? "name_prefix" Read.text?
    controller := ← f.optional? "controller" Read.text?
    singular := ← f.optional? "singular" Read.text?
    member := ← f.defaulted? "member" [] (Read.map? Read.methods?)
    collection := ← f.defaulted? "collection" [] (Read.map? Read.methods?)
    params := ← f.defaulted? "params" [] Read.params? }
  return .resources entry (← f.nested? "scope")

def readResource? (f : Fields) : Option Entry := do
  let entry : ResourceEntry := {
    resource := ← f.required? "resource" Read.text?
    namePrefix := ← f.optional? "name_prefix" Read.text?
    controller := ← f.optional? "controller" Read.text?
    params := ← f.defaulted? "params" [] Read.params? }
  return .resource entry (← f.nested? "scope")

def readDefaultRoutes? (f : Fields) : Option Entry := do
  return .defaultRoutes (← f.required? "default_routes" Read.bool?)
    (← f.defaulted? "params" [] Read.params?)

def readMatching? (f : Fields) : Option Entry := do
  let entry : MatchEntry := {
    path := ← f.defaulted? "path" none (Fields.nullable? Read.pattern?)
    conditions := ← f.defaulted? "conditions" [] (Read.map? Read.pattern?)
    params := ← f.defaulted? "params" [] Read.params?
    name := ← f.optional? "name" Read.text?
    catchAll := ← f.optional? "catch_all" Read.params? }
  return .matching entry (← f.nested? "scope")

def read? : EntryKind → Fields → Option Entry
  | resources => readResources?
  | resource => readResource?
  | defaultRoutes => readDefaultRoutes?
  | matching => readMatching?

def ofNamed? (kind : EntryKind) (cells : List (Data × Cell)) : Option Entry :=
  (Fields.named? kind.fieldNames cells).bind kind.read?

def ofOrdered? (kind : EntryKind) (cells : List Cell) : Option Entry :=
  (Fields.ordered? kind.fieldNames cells).bind kind.read?

end EntryKind

namespace Entry

mutual

def ofData? (kinds : List EntryKind) : Data → Option Entry
  | .map pairs =>
    let cells := namedCells kinds pairs
    kinds.findSome? (·.ofNamed? cells)
  | .list items =>
    let cells := orderedCells kinds items
    kinds.findSome? (·.ofOrdered? cells)
  | _ => none

def listOfData? (kinds : List EntryKind) : Data → Option (List Entry)
  | .list items => ofItems? kinds items
  | _ => none

def ofItems? (kinds : List EntryKind) : List Data → Option (List Entry)
  | [] => some []
  | item :: items => do
    let entry ← ofData? kinds item
    let entries ← ofItems? kinds items
    return entry :: entries

def namedCells (kinds : List EntryKind) : List (Data × Data) → List (Data × Cell)
  | [] => []
  | (key, value) :: pairs => (key, ⟨value, listOfData? kinds value⟩) :: namedCells kinds pairs

def orderedCells (kinds : List EntryKind) : List Data → List Cell
  | [] => []
  | item :: items => ⟨item, listOfData? kinds item⟩ :: orderedCells kinds items

end

end Entry

namespace RouteFile

def keyText? : Tree → Option String
  | .scalar _ text _ => some text
  | _ => none

/-- A plain scalar without text stands for an empty collection. -/
def isAbsent : Tree → Bool
  | .scalar _ text plain => plain && text = ""
  | _ => false

/-- A plain scalar that says that there is nothing: by its form, or by its tag and its form. -/
def isNothing? (tag : Option Octets) (text : String) (plain : Bool) : Option Bool :=
  if !plain then some false
  else
    match tag with
    | none => some (Scalar.isNull text)
    | some tag =>
      if tag = Scalar.standardTag "null" then
        if Scalar.isNull text && text ≠ "" then some true else none
      else some false

def paramsOfPairs? (pairs : List (Tree × Tree)) : Option ParamValues :=
  (pairs.mapM fun (key, value) => do
    return (← keyText? key, ← (Data.ofTree? value).bind Read.paramValue?)).map Entries.ofList

def defaults? : Tree → Option (Option ParamValues)
  | .mapping _ pairs => (paramsOfPairs? pairs).map some
  | .scalar p text plain =>
    match isNothing? p.tag text plain with
    | some true => some none
    | some false => if plain && text = "" then some (some []) else none
    | none => none
  | _ => none

def routes? (kinds : List EntryKind) (tree : Tree) : Option (List Entry) :=
  match tree with
  | .sequence _ items => (Data.ofItems? items).bind (Entry.ofItems? kinds)
  | _ => if isAbsent tree then some [] else none

/-- The file with one more field, which it must not have yet. -/
def addField? (kinds : List EntryKind) (key : String) (value : Tree) :
    Option (Option ParamValues) × Option (List Entry) →
      Option (Option (Option ParamValues) × Option (List Entry))
  | (defaults, routes) =>
    if key = "defaults" ∧ defaults.isNone then
      (defaults? value).map fun d => (some d, routes)
    else if key = "routes" ∧ routes.isNone then
      (routes? kinds value).map fun r => (defaults, some r)
    else none

def ofTree? (kinds : List EntryKind) (tree : Tree) : Option RouteFile :=
  match tree with
  | .mapping _ pairs => do
    let (defaults, routes) ← pairs.foldlM (fun fields (key, value) => do
      addField? kinds (← keyText? key) value fields) (none, none)
    return ⟨defaults.join, routes.getD []⟩
  | _ => if isAbsent tree then some empty else none

/-- The tree that a text writes, if it writes at most one; `some none` if it writes none. -/
def tree? (text : String) : Option (Option Tree) := do
  if !text.toList.all isAllowed then none
  let tokens ← Layout.tokens? (Source.ofText text)
  match ← Grammar.root? tokens with
  | some root => return some (← Alias.tree? root)
  | none => return none

inductive Problem where
  | blank
  | malformed
  deriving DecidableEq, Repr

def Problem.message : Problem → String
  | blank => "route file is empty"
  | malformed => "Failed to parse route file"

/-- Reads a file with entries of some kinds. Blank text is refused, and so is never taken for a
file without routes. -/
def ofTextWith (kinds : List EntryKind) (text : String) : Except Problem RouteFile :=
  if (Unicode.trim text.toList).isEmpty then .error .blank
  else
    match tree? text with
    | some none => .ok empty
    | some (some tree) =>
      match ofTree? kinds tree with
      | some file => .ok file
      | none => .error .malformed
    | none => .error .malformed

def ofText (text : String) : Except Problem RouteFile :=
  ofTextWith EntryKind.all text

end RouteFile

end Signpost
