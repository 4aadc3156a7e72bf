/-! # Request fields

A route can set a condition on the path, the method, the protocol and the host of a request, and
on any other field by its name. Fields are ordered: the four common ones first, then the others
by name.
-/
namespace Signpost

inductive Field where
  | path
  | method
  | protocol
  | host
  | custom (name : String)
  deriving DecidableEq, Repr, Inhabited

namespace Field

def ofName (name : String) : Field :=
  if name = "path" then path
  else if name = "method" then method
  else if name = "protocol" then protocol
  else if name = "host" then host
  else custom name

def name : Field → String
  | path => "path"
  | method => "method"
  | protocol => "protocol"
  | host => "host"
  | custom name => name

def rank : Field → Nat
  | path => 0
  | method => 1
  | protocol => 2
  | host => 3
  | custom _ => 4

instance : Ord Field where
  compare a b := (compare a.rank b.rank).then (compare a.name b.name)

end Field

end Signpost
