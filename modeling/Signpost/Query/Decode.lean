import Signpost.Query.Value
import Signpost.Text.Percent

/-! # Reading query strings

A query string is a sequence of pairs. The name of each pair is a path of steps through maps and
lists, and the pair's text is placed at the end of the path in what the pairs before it built.
-/
namespace Signpost.Query
open Signpost.Text

inductive QueryError where
  /-- A name is used both for a text and for a container, or for two kinds of containers. -/
  | typeMismatch (name : String)
  | invalidEncoding (component : String)
  | tooDeep (key : String)
  deriving DecidableEq, Repr

def maxNesting : Nat := 100

def QueryError.message : QueryError → String
  | typeMismatch name => "conflicting types for query parameter '" ++ name ++ "'"
  | invalidEncoding component =>
    "invalid percent-encoding in query component '" ++ component ++ "'"
  | tooDeep key =>
    "query parameter '" ++ key ++ "' nests deeper than " ++ toString maxNesting ++ " levels"

inductive Step where
  | key (k : String)
  | push
  deriving DecidableEq, Repr

/-- The steps that brackets write, when at most `room` of them are allowed. Text after the last
closed bracket does not count. -/
def bracketSteps (room : Nat) : Nat → List Char → Option (List Step)
  | 0, _ => some []
  | fuel + 1, cs =>
    match cs with
    | '[' :: inner =>
      let split := inner.span (· != ']')
      match split.2 with
      | [] => some []
      | _ :: rest =>
        match room with
        | 0 => none
        | room + 1 =>
          let step := if split.1.isEmpty then Step.push else .key (String.ofList split.1)
          (bracketSteps room fuel rest).map (step :: ·)
    | _ => some []

def keyPath (name : String) : Except QueryError (List Step) :=
  let split := name.toList.span (· != '[')
  let head := String.ofList split.1
  match bracketSteps (maxNesting - 1) (split.2.length + 1) split.2 with
  | some steps => .ok (.key head :: steps)
  | none => .error (.tooDeep head)

def Value.hasPath : List Step → Value → Bool
  | [], _ => true
  | .key k :: rest, .map entries =>
    match Entries.find? k entries with
    | some v => v.hasPath rest
    | none => false
  | _, _ => false

/-- The last item of a list takes the rest of a path if it is a list and the path goes on to a
list, or a map in which the path is still free. -/
def Value.takesPath (rest : List Step) : Value → Bool
  | .list _ => rest.head? == some .push
  | .map entries =>
    match rest with
    | .key _ :: _ => !(Value.map entries).hasPath rest
    | _ => false
  | .text _ => false

/-- The value that holds `v` at the end of the path and what `current` holds elsewhere; none if
a step meets a value of another kind. -/
def place (v : Value) : List Step → Option Value → Option Value
  | [], _ => some v
  | .key k :: rest, none => (place v rest none).map fun w => .map [(k, w)]
  | .key k :: rest, some (.map entries) =>
    (place v rest (Entries.find? k entries)).map fun w => .map (Entries.insert k w entries)
  | .push :: rest, none => (place v rest none).map fun w => .list [w]
  | .push :: rest, some (.list items) =>
    match items.getLast? with
    | some last =>
      if last.takesPath rest then
        (place v rest (some last)).map fun w => .list (items.dropLast ++ [w])
      else (place v rest none).map fun w => .list (items ++ [w])
    | none => (place v rest none).map fun w => .list [w]
  | _, some _ => none

def insertAt (m : QueryMap) (path : List Step) (s : String) : Option QueryMap :=
  match place (.text s) path (some (.map m)) with
  | some (.map entries) => some entries
  | _ => none

def decodeComponent (raw : List Char) : Except QueryError String :=
  let spaced := String.ofList (raw.map fun c => if c = '+' then ' ' else c)
  match Percent.decode? spaced with
  | some s => .ok s
  | none => .error (.invalidEncoding (String.ofList raw))

/-- The name and the text of a pair; a pair without an equals sign has an empty text. -/
def splitPair (pair : List Char) : List Char × List Char :=
  let split := pair.span (· != '=')
  (split.1, split.2.drop 1)

/-- Adds one pair to the parameters. A name with an empty head is left out. -/
def addPair (m : QueryMap) (pair : List Char) : Except QueryError QueryMap := do
  let (rawName, rawText) := splitPair pair
  let name ← decodeComponent rawName
  let text ← decodeComponent rawText
  let path ← keyPath name
  if path.head? = some (.key "") then return m
  match insertAt m path text with
  | some m => return m
  | none => throw (.typeMismatch name)

def splitAtEach (separator : Char → Bool) : List Char → List (List Char)
  | [] => [[]]
  | c :: rest =>
    if separator c then [] :: splitAtEach separator rest
    else match splitAtEach separator rest with
      | part :: parts => (c :: part) :: parts
      | [] => [[c]]

/-- The pairs of a query string; empty ones do not count. -/
def rawPairs (query : String) : List (List Char) :=
  (splitAtEach (fun c => c = '&' || c = ';') query.toList).filter (!·.isEmpty)

def decode (query : String) : Except QueryError QueryMap :=
  (rawPairs query).foldlM addPair []

end Signpost.Query
