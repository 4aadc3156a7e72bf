import Signpost.Decimal.Floating
import Signpost.Log.Level
import Signpost.Regex.Search
import Signpost.Unicode.Property

/-! # Log directives

A directive sets the level for a target, for a span, for events with a field, or for a
combination of these: `target[span=field]=level` with the field in braces after the span. Without
a level everything is logged, and a single word is a level if it can be one.
-/
namespace Signpost.Log
open Signpost.Text
open Signpost.Decimal (Floating)

inductive FieldValue where
  | bool (b : Bool)
  | natural (n : Nat)
  | integer (n : Int)
  | float (x : Floating)
  | pattern (source : String)
  deriving DecidableEq, Repr

structure FieldTest where
  name : String
  value : Option FieldValue
  deriving DecidableEq, Repr

structure Directive where
  target : Option String
  span : Option String
  field : Option FieldTest
  level : Level
  deriving DecidableEq, Repr

namespace FieldValue

/-- A number in decimal form, an infinity, or the word for no number. -/
def float? (cs : List Char) : Option Floating :=
  let (negative, body) := Decimal.Numeral.splitSign cs
  let word := String.ofList (Level.foldWord body)
  if word = "inf" ∨ word = "infinity" then some (.infinite negative)
  else if word = "nan" then some .nan
  else
    match Decimal.Numeral.read? body with
    | none => none
    | some x => some ((x.nearest?.map (.finite negative)).getD (.infinite negative))

/-- The first form that fits: a truth value, a number, or an expression. -/
def read? (cs : List Char) : Option FieldValue :=
  if cs = "true".toList then some (.bool true)
  else if cs = "false".toList then some (.bool false)
  else
    match Numeral.unsigned? 10 64 cs, Numeral.signed? 10 64 cs, float? cs with
    | some n, _, _ => some (.natural n)
    | none, some n, _ => some (.integer n)
    | none, none, some x => some (.float x)
    | none, none, none =>
      match Regex.compile (String.ofList cs) false with
      | .ok _ => some (.pattern (String.ofList cs))
      | .error _ => none

def floatText : Floating → String
  | .finite negative x =>
    let n := Floating.numeral x
    let digits := Nat.toDigits 10 n.digits
    let text := Floating.positional digits (n.exponent + digits.length)
    let whole := text.length - 2
    Floating.signText negative ++
      String.ofList (if text.drop whole = ".0".toList then text.take whole else text)
  | .infinite negative => Floating.signText negative ++ "inf"
  | .nan => "NaN"

def text : FieldValue → String
  | bool b => if b then "true" else "false"
  | natural n => toString n
  | integer n => toString n
  | float x => floatText x
  | pattern source => source

end FieldValue

namespace FieldTest

/-- A name, and after an equals sign the value up to the next one. -/
def read? (cs : List Char) : Option FieldTest :=
  let name := String.ofList (cs.takeWhile (· ≠ '='))
  match cs.dropWhile (· ≠ '=') with
  | [] => some ⟨name, none⟩
  | _ :: rest => (FieldValue.read? (rest.takeWhile (· ≠ '='))).map fun value => ⟨name, some value⟩

def text (t : FieldTest) : String :=
  match t.value with
  | some value => t.name ++ "=" ++ value.text
  | none => t.name

end FieldTest

namespace Directive

def slice (cs : List Char) (start stop : Nat) : List Char :=
  (cs.drop start).take (stop - start)

/-- A level, which is the most verbose one if nothing is written. -/
def level? (cs : List Char) : Option Level :=
  if cs.isEmpty then some .trace else Level.read? cs

/-- What follows a target and a span: nothing, or a level after an equals sign. `at_` is the
position of `rest` in the directive. -/
def levelPart? (full : List Char) (at_ : Nat) : List Char → Option Level
  | [] => some .trace
  | c :: _ => if c = '=' then level? (full.drop (at_ + 1)) else none

def fieldPart? (full : List Char) (at_ : Nat) (rest : List Char) (target span : Option String) :
    Option Directive := do
  let length := (rest.takeWhile (· ≠ '\x7d')).length
  match rest.drop length with
  | _ :: ']' :: after =>
    let written := slice full at_ (at_ + length)
    if written.isEmpty then none
    else
      let field ← FieldTest.read? written
      let level ← levelPart? full (at_ + length + 2) after
      return ⟨target, span, some field, level⟩
  | _ => none

def spanPart? (full : List Char) (at_ : Nat) (rest : List Char) (target : Option String) :
    Option Directive :=
  let length := (rest.takeWhile fun c => c ≠ ']' ∧ c ≠ '\x7b').length
  let span := String.ofList (slice full at_ (at_ + length))
  match rest.drop length with
  | ']' :: after =>
    (levelPart? full (at_ + length + 1) after).map fun level => ⟨target, some span, none, level⟩
  | '\x7b' :: after =>
    fieldPart? full (at_ + length + 1) after target (if span = "" then none else some span)
  | _ => none

def isStart (c : Char) : Bool :=
  c = '-' || c = ':' || c = '_' || Unicode.isAlphabetic c || Unicode.isNumeric c

/-- A directive by the form of its trimmed text. The parts themselves are cut out of the whole
text at the same positions. -/
def read? (full : List Char) : Option Directive :=
  match Unicode.trim full with
  | [] => none
  | c :: rest =>
    if c = '[' then spanPart? full 1 rest none
    else if !isStart c then none
    else
      let length := ((c :: rest).takeWhile fun c => c ≠ '=' ∧ c ≠ '[').length
      let target := some (String.ofList (slice full 0 length))
      match (c :: rest).drop length with
      | '=' :: _ =>
        (level? (full.drop (length + 1))).map fun level => ⟨target, none, none, level⟩
      | '[' :: after => spanPart? full (length + 1) after target
      | _ =>
        match Level.read? full with
        | some level => some ⟨none, none, none, level⟩
        | none => some ⟨some (String.ofList full), none, none, .trace⟩

def text (d : Directive) : String :=
  let field := match d.field with
    | some test => "\x7b" ++ test.text ++ "\x7d"
    | none => ""
  let inside :=
    if d.span.isSome || d.field.isSome then "[" ++ d.span.getD "" ++ field ++ "]" else ""
  let scope := d.target.getD "" ++ inside
  if d.target.isSome || inside ≠ "" then scope ++ "=" ++ d.level.name else d.level.name

/-- The directive can be applied without knowing the open spans and the values of fields. -/
def isStatic (d : Directive) : Bool :=
  d.span.isNone && d.field.all fun test => test.value.isNone

def isDynamic (d : Directive) : Bool :=
  d.span.isSome || d.field.isSome

/-- Two directives for the same events; the later one counts. -/
def sameScope (a b : Directive) : Bool :=
  a.target == b.target && a.span == b.span && a.field == b.field

end Directive

end Signpost.Log
