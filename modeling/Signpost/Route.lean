import Signpost.Output
import Signpost.Request

/-! # Routes

A route is a scope made ready: an expression for every condition, a compiled template for every
parameter, and the segments of its path if addresses can be built from it. A request matches when
every condition is met; the groups of the conditions then give the parameters.
-/
namespace Signpost

/-- The last word of a route on a request and the parameters found for it. -/
abbrev Decision := Request → Params → Option Params

structure OutputParam where
  name : String
  output : Output
  /-- What stands for a captured value that is missing or empty. -/
  fallback : Option String
  deriving DecidableEq, Repr

structure Route where
  index : Nat
  conditions : List (Field × Regex)
  declared : Entries Field (List Char)
  outputs : List OutputParam
  name : Option String
  decision : Option Decision
  segments : Except Irreversible (List Segment)
  hasRegex : Bool

namespace Route

def outputParam (placeholders : Entries String (Field × Nat)) (defaults : Params)
    (name template : String) : Except RouteError OutputParam := do
  let output ← Output.compile name template placeholders
  return ⟨name, output, if output.isLiteral then none else defaults.find? name⟩

def outputParams (s : Scope) (params : List (String × String)) (defaults : Params) :
    Except RouteError (List OutputParam) :=
  (s.params.extend params).mapM fun (name, template) =>
    outputParam s.placeholders defaults name template

/-- Methods are matched without regard to case. -/
def compileCondition (field : Field) (source : List Char) : Except RouteError (Field × Regex) :=
  match Regex.compile (String.ofList source) (field == .method) with
  | .ok r => .ok (field, r)
  | .error cause => .error (.invalidPattern field (String.ofList source) cause)

def compileConditions (s : Scope) : Except RouteError (List (Field × Regex)) :=
  s.sources.mapM fun (field, source) => compileCondition field source

def ofScope (s : Scope) (params : List (String × String)) (defaults : Params)
    (decision : Option Decision) : Except RouteError Route := do
  let outputs ← outputParams s params defaults
  let conditions ← compileConditions s
  return { index := 0, conditions, declared := s.declaredSources, outputs, name := none, decision,
           segments := s.segments, hasRegex := s.hasRegex }

/-- What the conditions captured, in the order of the conditions. -/
abbrev CaptureSpace := List (Field × Regex.Captures)

def capture (conditions : List (Field × Regex)) (request : Request) : Option CaptureSpace :=
  conditions.mapM fun (field, r) => (r.captures? (request.value field)).map (field, ·)

def groupText (space : CaptureSpace) (field : Field) (group : Nat) : Option String :=
  match space.lookup field with
  | some c => c.get? group
  | none => none

/-- The value of a parameter, or its fallback when the value is missing or empty. -/
def paramValue (space : CaptureSpace) (p : OutputParam) : Option String :=
  match p.output.evaluate (groupText space), p.fallback with
  | some "", some fallback => some fallback
  | none, some fallback => some fallback
  | value, _ => value

def paramsOf (outputs : List OutputParam) (space : CaptureSpace) : Params :=
  Entries.ofList (outputs.filterMap fun p => (paramValue space p).map (p.name, ·))

def accept? (route : Route) (request : Request) : Option Params :=
  match capture route.conditions request with
  | none => none
  | some space =>
    let params := paramsOf route.outputs space
    match route.decision with
    | some decide => decide request params
    | none => some params

def isDeferred (route : Route) : Bool :=
  route.decision.isSome

def segments? (route : Route) : Option (List Segment) :=
  route.segments.toOption

def templateOf (segments : List Segment) : String :=
  String.join (segments.map Segment.written)

def template? (route : Route) : Option String :=
  route.segments?.map templateOf

def source? (route : Route) (field : Field) : Option String :=
  (route.conditions.lookup field).map Regex.source

def render (route : Route) : String :=
  "[" ++ toString route.index ++ "]" ++
  (match route.name with
    | some name => " " ++ name
    | none => "") ++
  String.join (route.declared.map fun (field, source) =>
    " " ++ field.name ++ "=/" ++ String.ofList source ++ "/") ++
  " =>" ++
  String.join (route.outputs.map fun p => " " ++ p.name ++ ": " ++ p.output.render) ++
  (if route.isDeferred then " (deferred)" else "")

end Route

end Signpost
