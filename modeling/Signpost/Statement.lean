import Signpost.Resource

/-! # Declarations

A declaration is a list of statements, which run in order on a scope. Statements open scopes,
declare routes and resources, and try parts whose failure is no failure of the whole.
-/
namespace Signpost

inductive Placement where
  | listed
  | detached
  | deferred (decision : Decision)
  /-- The catch-all route by controller, action and identifier. -/
  | catchAll

inductive Statement where
  | within (conditions : Conditions) (params : List (String × String)) (body : List Statement)
  | block (body : List Statement)
  | route (placement : Placement) (params : List (String × String)) (name : Option String)
  | resources (name : String) (options : ResourceOptions) (body : List Statement)
  | resource (name : String) (options : ResourceOptions) (body : List Statement)
  | attempt (body : List Statement)
  | reject (error : RouteError)

namespace Statement

def catchAllPath : Pattern :=
  .regex "^/:controller(/:action(/:id)?)?(\\.:format)?$"

def place (s : Scope) (params : List (String × String)) : Placement → Declare Slot
  | .listed => Declare.listed s params none
  | .detached => Declare.detached s params
  | .deferred decision => Declare.listed s params (some decision)
  | .catchAll => Declare.listed (s.within [(.path, catchAllPath)] []) params none

def declareRoute (s : Scope) (placement : Placement) (params : List (String × String))
    (name : Option String) : Declare Unit := do
  let slot ← place s params placement
  Declare.note (.placed slot.position?)
  match name with
  | some name => Declare.name slot name
  | none => pure ()

/-- Runs a step; its failure is noted and what it declared before stays. -/
def attempting (step : Declare Unit) : Declare Unit := do
  let outcome ← tryCatch (step *> pure none) (fun e => pure (some e))
  Declare.note (.tried outcome)

mutual

def run (s : Scope) : Statement → Declare Unit
  | within conditions params body => runAll (s.within conditions params) body
  | block body => runAll s body
  | route placement params name => declareRoute s placement params name
  | resources name options body => do
    let nested ← Resource.plural s name options
    runAll nested body
  | resource name options body => do
    let nested ← Resource.singular s name options
    runAll nested body
  | attempt body => attempting (runAll s body)
  | reject error => throw error

def runAll (s : Scope) : List Statement → Declare Unit
  | [] => pure ()
  | statement :: rest => do
    run s statement
    runAll s rest

end

end Statement

def Statement.declare (defaults : Params) (body : List Statement) :
    Except RouteError Unit × Draft :=
  (Statement.runAll (Draft.root defaults) body).run.run (Draft.empty defaults)

end Signpost
