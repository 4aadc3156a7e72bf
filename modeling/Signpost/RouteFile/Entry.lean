import Signpost.Ordered
import Signpost.Pattern

/-! # Route files

A route file lists entries that declare routes: entries that match requests, entries for
resources, and the catch-all routes. Entries nest. A file may also give defaults.
-/
namespace Signpost

/-- The value of a parameter. Numbers are held as they are written in the end. -/
inductive ParamValue where
  | text (s : String)
  | number (written : String)
  | bool (b : Bool)
  deriving DecidableEq, Repr

def ParamValue.written : ParamValue → String
  | text s => s
  | number s => s
  | bool b => if b then "true" else "false"

abbrev ParamValues := Entries String ParamValue

inductive Methods where
  | one (method : String)
  | many (methods : List String)
  deriving DecidableEq, Repr

def Methods.toList : Methods → List String
  | one method => [method]
  | many methods => methods

structure MatchEntry where
  path : Option Pattern
  conditions : Entries String Pattern
  params : ParamValues
  name : Option String
  /-- Parameters of one more route, after the nested ones. -/
  catchAll : Option ParamValues
  deriving DecidableEq, Repr

structure ResourcesEntry where
  resources : String
  namePrefix : Option String
  controller : Option String
  singular : Option String
  member : Entries String Methods
  collection : Entries String Methods
  params : ParamValues
  deriving DecidableEq, Repr

structure ResourceEntry where
  resource : String
  namePrefix : Option String
  controller : Option String
  params : ParamValues
  deriving DecidableEq, Repr

inductive Entry where
  | matching (entry : MatchEntry) (scope : List Entry)
  | resources (entry : ResourcesEntry) (scope : List Entry)
  | resource (entry : ResourceEntry) (scope : List Entry)
  | defaultRoutes (on : Bool) (params : ParamValues)

structure RouteFile where
  defaults : Option ParamValues
  routes : List Entry

namespace RouteFile

def empty : RouteFile :=
  ⟨none, []⟩

end RouteFile

end Signpost
