import Signpost.Regex.Search
import Signpost.RouteError
import Signpost.Scope
import Signpost.Text.Quoted

/-! # Output templates

The value of a parameter is written as a template: texts, named placeholders, and groups by their
number. Compiled, it is a list of texts and groups that are put together when a route matches.
-/
namespace Signpost

inductive OutputPart where
  | literal (text : String)
  | capture (field : Field) (group : Nat)
  deriving DecidableEq, Repr

abbrev Output := List OutputPart

/-- A reference in a template: a name, a group of a named field, or a group of the path. -/
inductive OutputToken where
  | name (name : List Char)
  | fieldGroup (name digits : List Char)
  | pathGroup (digits : List Char)
  deriving DecidableEq, Repr

namespace OutputToken
open Placeholder (isNameStart isNameChar)

def bracketed? : List Char → Option (List Char × List Char)
  | '[' :: rest =>
    let digits := rest.takeWhile Unicode.isDecimalDigit
    match digits, rest.dropWhile Unicode.isDecimalDigit with
    | _ :: _, ']' :: after => some (digits, after)
    | _, _ => none
  | _ => none

theorem bracketed?_length {cs digits after : List Char}
    (h : bracketed? cs = some (digits, after)) : after.length < cs.length := by
  unfold bracketed? at h
  split at h
  · rename_i rest
    simp only at h
    split at h
    · rename_i hd
      simp only [Option.some.injEq, Prod.mk.injEq] at h
      obtain ⟨rfl, rfl⟩ := h
      have : (rest.dropWhile Unicode.isDecimalDigit).length ≤ rest.length :=
        (List.dropWhile_sublist _).length_le
      rw [hd] at this
      simp at this ⊢
      omega
    · simp at h
  · simp at h

def atStart? : List Char → Option (OutputToken × List Char)
  | ':' :: c :: rest =>
    if isNameStart c then
      let name := c :: rest.takeWhile isNameChar
      let after := rest.dropWhile isNameChar
      match bracketed? after with
      | some (digits, after) => some (fieldGroup name digits, after)
      | none => some (.name name, after)
    else none
  | cs => (bracketed? cs).map fun (digits, after) => (pathGroup digits, after)

theorem atStart?_length {cs rest : List Char} {t : OutputToken}
    (h : atStart? cs = some (t, rest)) : rest.length < cs.length := by
  unfold atStart? at h
  split at h
  · rename_i c more
    split at h
    · have hle : (more.dropWhile isNameChar).length ≤ more.length :=
        (List.dropWhile_sublist _).length_le
      simp only at h
      split at h
      · rename_i digits after hb
        have := bracketed?_length hb
        simp only [Option.some.injEq, Prod.mk.injEq] at h
        obtain ⟨_, rfl⟩ := h
        simp
        omega
      · simp only [Option.some.injEq, Prod.mk.injEq] at h
        obtain ⟨_, rfl⟩ := h
        simp
        omega
    · simp at h
  · obtain ⟨⟨digits, after⟩, hb, heq⟩ := Option.map_eq_some_iff.1 h
    simp only [Prod.mk.injEq] at heq
    obtain ⟨_, rfl⟩ := heq
    exact bracketed?_length hb

end OutputToken

/-- A template as texts, each followed by a reference, and the text after the last one. -/
def splitTemplate (before : List Char) (cs : List Char) :
    List (List Char × OutputToken) × List Char :=
  match _ : OutputToken.atStart? cs with
  | some (token, rest) =>
    let (parts, last) := splitTemplate [] rest
    ((before.reverse, token) :: parts, last)
  | none =>
    match cs with
    | [] => ([], before.reverse)
    | c :: rest => splitTemplate (c :: before) rest
termination_by cs.length
decreasing_by
  · exact OutputToken.atStart?_length ‹_›
  · simp

namespace Output

/-- An escaped underscore in a text is an underscore. -/
def unescape : List Char → List Char
  | [] => []
  | '\\' :: '_' :: rest => '_' :: unescape rest
  | c :: rest => c :: unescape rest

def literal (cs : List Char) : Output :=
  if cs.isEmpty then [] else [.literal (String.ofList (unescape cs))]

/-- The longest declared name that is `name` without some underscores at its end, which are held
in reverse in `peeled`. -/
def resolveFrom (placeholders : Entries String (Field × Nat)) (peeled : List Char) :
    List Char → Option ((Field × Nat) × List Char)
  | [] => none
  | c :: shorter =>
    match placeholders.find? (String.ofList (c :: shorter).reverse) with
    | some place => some (place, peeled)
    | none =>
      if c = '_' ∧ shorter ≠ [] then resolveFrom placeholders (c :: peeled) shorter else none

def resolve (placeholders : Entries String (Field × Nat)) (name : List Char) :
    Option ((Field × Nat) × List Char) :=
  resolveFrom placeholders [] name.reverse

/-- The number that ASCII digits write, below 2^64. -/
def groupNumber? (digits : List Char) : Option Nat :=
  let n := digits.foldl (fun n d => 10 * n + (d.toNat - '0'.toNat)) 0
  if digits.all Char.isDigit && n < Nat.pow 2 64 then some n else none

def group (param : String) (field : Field) (digits : List Char) : Except RouteError Output :=
  match groupNumber? digits with
  | some n => .ok [.capture field n]
  | none => .error (.invalidOptions (.groupOutOfRange (String.ofList digits) param))

def reference (param : String) (placeholders : Entries String (Field × Nat)) :
    OutputToken → Except RouteError Output
  | .pathGroup digits => group param .path digits
  | .fieldGroup name digits => group param (Field.ofName (String.ofList name)) digits
  | .name name =>
    match resolve placeholders name with
    | some ((field, n), trailing) => .ok (.capture field n :: literal trailing)
    | none => .error (.unknownPlaceholder param (String.ofList name))

def compileParts (param : String) (placeholders : Entries String (Field × Nat)) :
    List (List Char × OutputToken) → Except RouteError Output
  | [] => .ok []
  | (before, token) :: parts => do
    let here ← reference param placeholders token
    let rest ← compileParts param placeholders parts
    return literal before ++ here ++ rest

def compile (param template : String) (placeholders : Entries String (Field × Nat)) :
    Except RouteError Output := do
  let (parts, last) := splitTemplate [] template.toList
  return (← compileParts param placeholders parts) ++ literal last

def isLiteral (o : Output) : Bool :=
  o.all fun
    | OutputPart.literal _ => true
    | OutputPart.capture _ _ => false

def partValue (capture : Field → Nat → Option String) : OutputPart → Option String
  | .literal text => some text
  | .capture field n => capture field n

/-- The parts put together; none if a group took no part in the match. -/
def evaluate (o : Output) (capture : Field → Nat → Option String) : Option String :=
  (o.mapM (partValue capture)).map String.join

def partText : OutputPart → String
  | .literal text => Text.Quoted.quote text
  | .capture field n => field.name ++ "[" ++ toString n ++ "]"

def render (o : Output) : String :=
  if o.isEmpty then "\"\"" else " + ".intercalate (o.map partText)

end Output

end Signpost
