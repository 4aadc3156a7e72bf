import Signpost.Route

/-! # Drafts

A draft collects the routes and names of one declaration. Routes are listed in the order in which
they are declared; detached routes are kept aside, for building addresses only. A step of a
declaration that fails keeps what was declared before it.
-/
namespace Signpost

inductive Slot where
  | listed (index : Nat)
  | detached (index : Nat)
  deriving DecidableEq, Repr

def Slot.position? : Slot → Option Nat
  | listed index => some index
  | detached _ => none

/-- What a declaration reports while it runs. -/
inductive Note where
  | placed (position : Option Nat)
  | tried (failure : Option RouteError)
  deriving DecidableEq, Repr

structure Draft where
  defaults : Params
  routes : List Route
  detached : List Route
  names : Entries String Slot
  journal : List Note

/-- A step of a declaration: it changes a draft and may fail. -/
abbrev Declare := ExceptT RouteError (StateM Draft)

namespace Draft

def empty (defaults : Params) : Draft :=
  ⟨defaults, [], [], [], []⟩

def root (defaults : Params) : Scope :=
  [Level.declare [] defaults]

def route? (d : Draft) : Slot → Option Route
  | .listed index => d.routes[index]?
  | .detached index => d.detached[index]?

def modifyRoute (d : Draft) (f : Route → Route) : Slot → Draft
  | .listed index => { d with routes := d.routes.modify index f }
  | .detached index => { d with detached := d.detached.modify index f }

def addListed (d : Draft) (route : Route) : Draft :=
  { d with routes := d.routes ++ [{ route with index := d.routes.length }] }

def addDetached (d : Draft) (route : Route) : Draft :=
  { d with detached := d.detached ++ [route] }

def addName (d : Draft) (name : String) (slot : Slot) : Draft :=
  { d.modifyRoute (fun route => { route with name := some name }) slot with
    names := d.names.insert name slot }

def note (d : Draft) (n : Note) : Draft :=
  { d with journal := d.journal ++ [n] }

end Draft

namespace Declare

def build (s : Scope) (params : List (String × String)) (decision : Option Decision) :
    Declare Route := do
  let d ← get
  ExceptT.mk (pure (Route.ofScope s params d.defaults decision))

def listed (s : Scope) (params : List (String × String)) (decision : Option Decision) :
    Declare Slot := do
  let route ← build s params decision
  let d ← get
  set (d.addListed route)
  return .listed d.routes.length

/-- Declares a route that is never matched. -/
def detached (s : Scope) (params : List (String × String)) : Declare Slot := do
  let route ← build s params none
  let d ← get
  set (d.addDetached route)
  return .detached d.detached.length

/-- Gives a route a name, which is taken from a route that had it before. -/
def name (slot : Slot) (name : String) : Declare Unit := do
  let d ← get
  match (d.route? slot).map Route.segments with
  | some (.error reason) => throw (.notReversible name reason)
  | _ => set (d.addName name slot)

def address (s : Scope) (path routeName : String) : Declare Unit := do
  let slot ← detached (s.within [(.path, .literal path)] []) []
  name slot routeName

def note (n : Note) : Declare Unit :=
  modify (·.note n)

end Declare

end Signpost
