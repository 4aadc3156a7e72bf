import Signpost.Statement

/-! # Routing tables

A table is a list of routes in order of priority, and names for some of them. Names lead to a
position of the list or to a route outside it. Tables are spliced: fresh routes come before or
after the old ones, or replace them, and fresh names take over old ones.
-/
namespace Signpost

inductive Named where
  | listed (index : Nat)
  | detached (route : Route)

structure Table where
  routes : List Route
  names : Entries String Named

inductive Splice where
  | replace
  | prepend
  | append
  deriving DecidableEq, Repr

namespace Table

def empty : Table :=
  ⟨[], []⟩

def namedOf (d : Draft) : Slot → Option Named
  | .listed index => some (.listed index)
  | .detached index => (d.detached[index]?).map .detached

def ofDraft (d : Draft) : Table :=
  ⟨d.routes, d.names.filterMap fun (name, slot) => (namedOf d slot).map (name, ·)⟩

def renumber (start : Nat) : List Route → List Route
  | [] => []
  | route :: rest => { route with index := start } :: renumber (start + 1) rest

def shiftNamed (by_ : Nat) : Named → Named
  | .listed index => .listed (index + by_)
  | .detached route => .detached route

def shiftNames (names : Entries String Named) (by_ : Nat) : Entries String Named :=
  names.mapValues (shiftNamed by_)

/-- Combines a table with fresh routes and names. -/
def splice (old fresh : Table) : Splice → Table
  | .replace => fresh
  | .prepend =>
    let offset := fresh.routes.length
    ⟨fresh.routes ++ renumber offset old.routes,
      (shiftNames old.names offset).extend fresh.names⟩
  | .append =>
    let offset := old.routes.length
    ⟨old.routes ++ renumber offset fresh.routes,
      old.names.extend (shiftNames fresh.names offset)⟩

def named? (t : Table) (name : String) : Option Route :=
  match t.names.find? name with
  | some (.listed index) => t.routes[index]?
  | some (.detached route) => some route
  | none => none

def routeNames (t : Table) : List String :=
  t.names.map Prod.fst

def findRoute (request : Request) : List Route → Option (Route × Params)
  | [] => none
  | route :: rest =>
    match route.accept? request with
    | some params => some (route, params)
    | none => findRoute request rest

end Table

end Signpost
