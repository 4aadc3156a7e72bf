import Signpost.Query.Encode
import Signpost.Route

/-! # Addresses

An address is built from the segments of a route and a source of values for its placeholders.
Values that the path does not use are written after it as a query string.
-/
namespace Signpost

inductive LinkSource where
  | map (entries : Query.QueryMap)
  | texts (entries : Params)
  /-- Pairs in order, in which a later pair of a name counts. -/
  | pairs (entries : List (String × Query.Value))
  /-- A lookup by name, and what it has to show beside the names that were used. -/
  | lookup (value? : String → Option String)
    (rest : List String → Query.QueryMap := fun _ => [])

namespace LinkSource

/-- A map without an order: entries in any order, no two of one key. -/
def hashed (entries : List (String × Query.Value)) : LinkSource :=
  .lookup (fun name => (entries.lookup name).map Query.Value.pathText)
    fun used => Entries.ofList (entries.filter fun (k, _) => !used.contains k)

def text? (source : LinkSource) (name : String) : Option String :=
  match source with
  | map entries => (entries.find? name).map Query.Value.pathText
  | texts entries => entries.find? name
  | pairs entries => (entries.reverse.lookup name).map Query.Value.pathText
  | lookup value? _ => value? name

def residual (source : LinkSource) (used : List String) : Query.QueryMap :=
  match source with
  | map entries => entries.filter fun (k, _) => !used.contains k
  | texts entries =>
    Entries.mapValues Query.Value.text (entries.filter fun (k, _) => !used.contains k)
  | pairs entries =>
    Entries.ofList ((entries.filter fun (k, _) => !used.contains k).map fun (k, v) =>
      (k, Query.Value.text v.pathText))
  | lookup _ rest => rest used

end LinkSource

namespace Link

def squeeze : List Char → List Char
  | '/' :: '/' :: rest => squeeze ('/' :: rest)
  | c :: rest => c :: squeeze rest
  | [] => []

/-- Squeezes slashes and drops one at the end; an empty path is a slash. -/
def finishPath (cs : List Char) : List Char :=
  let squeezed := squeeze cs
  let trimmed := if squeezed.getLast? = some '/' then squeezed.dropLast else squeezed
  if trimmed.isEmpty then ['/'] else trimmed

/-- The text of a segment. A value is looked up in the source, then among the fallback values,
and is empty if neither has it. -/
def segmentText (source : LinkSource) (fallback : Query.QueryMap) : Segment → String
  | .literal text => text
  | .placeholder name =>
    ((source.text? name).or ((fallback.find? name).map Query.Value.pathText)).getD ""

def path (segments : List Segment) (source : LinkSource) (fallback : Query.QueryMap) : String :=
  String.ofList
    (finishPath (String.join (segments.map (segmentText source fallback))).toList)

def placeholderNames (segments : List Segment) : List String :=
  segments.filterMap fun
    | .literal _ => none
    | .placeholder name => some name

def build (segments : List Segment) (source : LinkSource) (fallback : Query.QueryMap) : String :=
  let rest := source.residual (placeholderNames segments)
  path segments source fallback ++ (if rest.isEmpty then "" else "?" ++ Query.encode rest)

end Link

def Route.link (route : Route) (source : LinkSource) (fallback : Query.QueryMap) :
    Except RouteError String :=
  match route.segments with
  | .ok segments => .ok (Link.build segments source fallback)
  | .error reason => .error (.notReversible (route.name.getD "") reason)

end Signpost
