import Signpost.Proofs.Declaration.Run
import Signpost.Proofs.Scope.Chain
import Signpost.Router

/-! # Routers of one route

A declaration that opens scopes inside one another and declares one named route gives a router of
that route alone, whose address and matches are those of the route.
-/
namespace Signpost
open Entries

/-- Scopes opened inside one another around a statement. -/
def Statement.nest : List Declaration → Statement → Statement
  | [], body => body
  | d :: chain, body => .within d.conditions d.params [nest chain body]

theorem Statement.run_nest (s : Scope) (chain : List Declaration) (body : Statement) :
    run s (nest chain body) = run (s ++ Scope.ofChain chain) body := by
  induction chain generalizing s with
  | nil => simp [nest, Scope.ofChain]
  | cons d chain ih =>
    rw [nest, run, runAll, runAll, ih]
    simp [Scope.within, Scope.ofChain, Declaration.level]

/-- The root of a draft, as a declaration. -/
def Declaration.root (defaults : Params) : Declaration := ⟨[], defaults, sorted_nil⟩

theorem Scope.root_append (defaults : Params) (chain : List Declaration) :
    Draft.root defaults ++ ofChain chain = ofChain (.root defaults :: chain) := rfl

theorem Scope.find?_params_root (defaults : Params) (name : String) :
    find? name (ofChain [.root defaults]).params = find? name defaults.reverse := by
  change find? name (extend [] (ofList defaults)) = _
  rw [find?_extend_sorted _ _ (sorted_ofList defaults), find?_nil, Option.or_none, find?_ofList]

namespace Router
variable {defaults : Params} {chain : List Declaration} {params : List (String × String)}
  {route : Route} {segments : List Segment}

theorem declare_nest (name : String)
    (hroute : Route.ofScope (Scope.ofChain (.root defaults :: chain)) params defaults none =
      .ok route) (hsegments : route.segments = .ok segments) :
    Statement.declare defaults [.nest chain (.route .listed params (some name))] =
      (.ok (), ⟨defaults, [{ route with index := 0, name := some name }], [],
        [(name, .listed 0)], [.placed (some 0)]⟩) := by
  let s := Scope.ofChain (.root defaults :: chain)
  let placed : Draft := (Draft.empty defaults).addListed route
  have hplace : (Statement.place s params .listed).run.run (Draft.empty defaults) =
      (.ok (.listed 0), placed) := Declare.run_listed hroute
  have hnote : (Declare.note (.placed (some 0))).run.run placed =
      (.ok (), placed.note (.placed (some 0))) := rfl
  have hplaced : (placed.note (.placed (some 0))).route? (.listed 0) =
      some { route with index := 0 } := rfl
  have hname : (Declare.name (.listed 0) name).run.run (placed.note (.placed (some 0))) =
      (.ok (), (placed.note (.placed (some 0))).addName name (.listed 0)) :=
    Declare.run_name hplaced hsegments
  have hrun : (Statement.run s (.route .listed params (some name))).run.run
      (Draft.empty defaults) =
      (.ok (), (placed.note (.placed (some 0))).addName name (.listed 0)) := by
    rw [Statement.run, Statement.declareRoute]
    exact (Declare.run_bind hplace).trans ((Declare.run_bind hnote).trans hname)
  rw [Statement.declare, Statement.runAll, Statement.runAll, Statement.run_nest,
    Scope.root_append]
  exact (Declare.run_bind hrun).trans rfl

theorem prepare_nest (r : Router) (name : String)
    (hroute : Route.ofScope (Scope.ofChain (.root defaults :: chain)) params defaults none =
      .ok route) (hsegments : route.segments = .ok segments) :
    r.prepareWithDefaults defaults [.nest chain (.route .listed params (some name))] =
      ⟨⟨⟨[{ route with index := 0, name := some name }], [(name, .listed 0)]⟩, defaults⟩, none,
        [.placed (some 0)]⟩ := by
  rw [prepareWithDefaults, change, Option.getD_some, declare_nest name hroute hsegments]
  rfl

end Router

end Signpost
