import Signpost.Link
import Signpost.Table

/-! # Routers

A router holds a routing table and the defaults for the next declaration. A change of the table
that fails changes nothing.
-/
namespace Signpost

structure Router where
  table : Table
  defaults : Params

structure RouteMatch where
  index : Option Nat
  params : Params
  deriving DecidableEq, Repr

namespace Router

def initialDefaults : Params :=
  [("action", "index")]

def new : Router :=
  ⟨Table.empty, initialDefaults⟩

def setDefaults (r : Router) (defaults : Params) : Router :=
  { r with defaults }

/-- The outcome of a change: the router after it, its failure, and what the declaration noted. -/
structure Change where
  router : Router
  failure : Option RouteError
  journal : List Note

/-- Runs a declaration under the given defaults, or under those of the router, and splices its
routes into the table. Given defaults are kept when the declaration succeeds. -/
def change (r : Router) (how : Splice) (defaults : Option Params) (body : List Statement) :
    Change :=
  match Statement.declare (defaults.getD r.defaults) body with
  | (.ok (), draft) =>
    ⟨⟨r.table.splice (Table.ofDraft draft) how, defaults.getD r.defaults⟩, none, draft.journal⟩
  | (.error e, draft) => ⟨r, some e, draft.journal⟩

def prepare (r : Router) (body : List Statement) : Change :=
  r.change .replace none body

def prepareWithDefaults (r : Router) (defaults : Params) (body : List Statement) : Change :=
  r.change .replace (some defaults) body

def prepend (r : Router) (body : List Statement) : Change :=
  r.change .prepend none body

def append (r : Router) (body : List Statement) : Change :=
  r.change .append none body

def size (r : Router) : Nat :=
  r.table.routes.length

def routeAt? (r : Router) (index : Nat) : Option Route :=
  r.table.routes[index]?

def routeNames (r : Router) : List String :=
  r.table.routeNames

def namedRoute? (r : Router) (name : String) : Option Route :=
  r.table.named? name

def matchRequest (r : Router) (request : Request) : RouteMatch :=
  match Table.findRoute request r.table.routes with
  | some (route, params) => ⟨some route.index, params⟩
  | none => ⟨none, []⟩

def generate (r : Router) (name : String) (source : LinkSource) (fallback : Query.QueryMap) :
    Except RouteError String :=
  match r.namedRoute? name with
  | some route => route.link source fallback
  | none => .error (.namedRouteNotFound name)

def url (r : Router) (name : String) (source : LinkSource) : Except RouteError String :=
  r.generate name source []

def summaries (r : Router) : List String :=
  r.table.routes.map Route.render

end Router

end Signpost
