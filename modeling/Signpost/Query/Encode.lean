import Signpost.Query.Value
import Signpost.Text.Percent

/-! # Writing query strings

Every text of a value is written as a pair of a name and a value. The name is the path to the
text: the parameter, then a key in brackets for each map and empty brackets for each list.
-/
namespace Signpost.Query
open Signpost.Text

def Value.pairs (name : String) : Value → List String
  | .text s => [name ++ "=" ++ Percent.encode s]
  | .list items => listPairs (name ++ "[]") items
  | .map entries => mapPairs name entries
where
  listPairs (name : String) : List Value → List String
    | [] => []
    | v :: rest => v.pairs name ++ listPairs name rest
  mapPairs (name : String) : List (String × Value) → List String
    | [] => []
    | (k, v) :: rest => v.pairs (name ++ "[" ++ Percent.encode k ++ "]") ++ mapPairs name rest

def pairs (m : QueryMap) : List String :=
  m.flatMap fun (k, v) => v.pairs (Percent.encode k)

def encode (m : QueryMap) : String :=
  "&".intercalate (pairs m)

/-- The form of a value inside a path: texts as they are, lists with slashes between their
items, maps as query strings. -/
def Value.pathText : Value → String
  | .text s => s
  | .list items => "/".intercalate (texts items)
  | .map entries => encode entries
where
  texts : List Value → List String
    | [] => []
    | v :: rest => v.pathText :: texts rest

end Signpost.Query
