import Signpost.Decimal.Floating
import Signpost.Text.Numeral
import Signpost.Yaml.Node

/-! # Data

What a tree says, without regard to how it is written. Plain scalars are read as numbers, truth
values or nothing where they have that form; all other scalars are texts.
-/
namespace Signpost.Yaml
open Signpost.Decimal (Floating)
open Signpost.Text

inductive Data where
  | null
  | bool (b : Bool)
  | natural (n : Nat)
  /-- An integer with a minus sign before its size. -/
  | negative (size : Nat)
  | float (x : Floating)
  | text (s : String)
  | list (items : List Data)
  | map (pairs : List (Data × Data))

namespace Scalar

def isNull (text : String) : Bool :=
  ["", "null", "Null", "NULL", "~"].contains text

def bool? (text : String) : Option Bool :=
  if ["true", "True", "TRUE"].contains text then some true
  else if ["false", "False", "FALSE"].contains text then some false
  else none

/-- Digits that start with a zero are no number, unless the zero is alone. -/
def hasLeadingZero (cs : List Char) : Bool :=
  let digits := match cs with
    | '-' :: rest => rest
    | '+' :: rest => rest
    | _ => cs
  match digits with
  | '0' :: c :: rest => (c :: rest).all Char.isDigit
  | _ => false

def size? : List Char → Option Nat
  | '0' :: 'x' :: digits => Numeral.digits? 16 digits
  | '0' :: 'o' :: digits => Numeral.digits? 8 digits
  | '0' :: 'b' :: digits => Numeral.digits? 2 digits
  | digits => Numeral.digits? 10 digits

def integer? (cs : List Char) : Option (Bool × Nat) :=
  if hasLeadingZero cs then none
  else
    match cs with
    | '-' :: rest => (size? rest).map (true, ·)
    | '+' :: rest => (size? rest).map (false, ·)
    | _ => (size? cs).map (false, ·)

/-- What an integer is read as: integers of more than 64 bits are refused, and beyond 128 bits
they count as floating numbers. -/
inductive Range where
  | small (data : Data)
  | refused
  | beyond

def range : Bool × Nat → Range
  | (false, n) =>
    if n < Nat.pow 2 64 then .small (.natural n)
    else if n < Nat.pow 2 128 then .refused
    else .beyond
  | (true, n) =>
    if n ≤ Nat.pow 2 63 then .small (.negative n)
    else if n ≤ Nat.pow 2 127 then .refused
    else .beyond

def float? (text : String) : Option Floating :=
  let cs := text.toList
  let unsigned := match cs with
    | '+' :: rest => rest
    | _ => cs
  if [".inf", ".Inf", ".INF"].contains (String.ofList unsigned) then some (.infinite false)
  else if ["-.inf", "-.Inf", "-.INF"].contains text then some (.infinite true)
  else if [".nan", ".NaN", ".NAN"].contains text then some .nan
  else
    match cs, unsigned with
    | '+' :: _, '+' :: _ => none
    | '+' :: _, '-' :: _ => none
    | _, _ => Floating.read? unsigned

def plain? (text : String) : Option Data :=
  let cs := text.toList
  let other : Data :=
    if hasLeadingZero cs then .text text
    else
      match float? text with
      | some x => .float x
      | none => .text text
  if isNull text then some .null
  else
    match bool? text, (integer? cs).map range with
    | some b, _ => some (.bool b)
    | none, some (.small data) => some data
    | none, some .refused => none
    | none, _ => some other

def standardTag (name : String) : Octets :=
  ("tag:yaml.org,2002:" ++ name).toUTF8.toList

def isLocal (tag : Octets) : Bool :=
  tag.head? == some 33

/-- A tag is a text, and not only octets. -/
def isText (tag : Octets) : Bool :=
  (String.fromUTF8? tag.toByteArray).isSome

/-- A scalar by its tag, and by its form if it is plain. -/
def data? (tag : Option Octets) (text : String) (plain : Bool) : Option Data :=
  let formed := if plain then plain? text else some (.text text)
  match tag with
  | none => formed
  | some tag =>
    if isLocal tag then
      if isText tag then none else formed
    else if tag = standardTag "bool" then (bool? text).map .bool
    else if tag = standardTag "int" then
      match (integer? text.toList).map range with
      | some (.small data) => some data
      | _ => none
    else if tag = standardTag "float" then (float? text).map .float
    else if tag = standardTag "null" then
      if isNull text && text ≠ "" then some .null else none
    else some (.text text)

end Scalar

namespace Data

/-- A collection may have a tag, but not one of one's own. -/
def admits (tag : Option Octets) : Bool :=
  match tag with
  | some tag => !(Scalar.isLocal tag && Scalar.isText tag)
  | none => true

mutual

def ofTree? : Node Empty → Option Data
  | .scalar p s plain => Scalar.data? p.tag s plain
  | .sequence p items =>
    if admits p.tag then (ofItems? items).map .list else none
  | .mapping p pairs =>
    if admits p.tag then (ofPairs? pairs).map .map else none

def ofItems? : List (Node Empty) → Option (List Data)
  | [] => some []
  | item :: items => do
    let item ← ofTree? item
    let items ← ofItems? items
    return item :: items

def ofPairs? : List (Node Empty × Node Empty) → Option (List (Data × Data))
  | [] => some []
  | (key, value) :: pairs => do
    let key ← ofTree? key
    let value ← ofTree? value
    let pairs ← ofPairs? pairs
    return (key, value) :: pairs

end

def numberText? : Data → Option String
  | natural n => some (toString n)
  | negative n => some (if n = 0 then "0" else "-" ++ toString n)
  | float x => some x.text
  | _ => none

end Data

end Signpost.Yaml
