import Signpost.Proofs.Route.Parameter
import Signpost.Proofs.Router.History

/-! # Defaults of routers

A declaration runs inside the parameters that the defaults give, so that each of its routes has a
parameter for every default: the default itself or what is declared in its place. A value that is
captured falls back on the default. Routes keep the defaults they were declared under, whatever is
declared around them later.
-/
namespace Signpost
open Entries

theorem Output.exists_evaluate {o : Output} (h : o.isLiteral = true)
    (capture : Field → Nat → Option String) : ∃ text, o.evaluate capture = some text := by
  suffices hparts : ∃ texts, o.mapM (partValue capture) = some texts by
    obtain ⟨texts, htexts⟩ := hparts
    exact ⟨_, by rw [evaluate, htexts]; rfl⟩
  induction o with
  | nil => exact ⟨[], rfl⟩
  | cons part o ih =>
    cases part with
    | capture field group => cases h
    | literal text =>
      obtain ⟨texts, htexts⟩ := ih h
      exact ⟨text :: texts, by rw [List.mapM_cons, htexts]; rfl⟩

namespace Route

/-- A parameter with a default has a value, and one that is not empty if it is captured and the
default is not empty. -/
theorem exists_paramValue {p : OutputParam} {default : String}
    (h : p.fallback = if p.output.isLiteral then none else some default) (space : CaptureSpace) :
    ∃ value, paramValue space p = some value ∧
      (default ≠ "" → p.output.isLiteral = false → value ≠ "") := by
  rw [paramValue_eq, h]
  cases hliteral : p.output.isLiteral with
  | true =>
    obtain ⟨text, htext⟩ := Output.exists_evaluate hliteral (groupText space)
    rw [htext]
    refine ⟨text, ?_, fun _ hfalse => absurd hfalse (by decide)⟩
    rw [if_pos rfl, settled, Option.none_or, ite_self]
  | false =>
    rw [if_neg Bool.false_ne_true]
    cases hvalue : p.output.evaluate (groupText space) with
    | none => exact ⟨default, rfl, fun hdefault _ => hdefault⟩
    | some text =>
      by_cases htext : text = ""
      · subst htext
        exact ⟨default, rfl, fun hdefault _ => hdefault⟩
      · exact ⟨text, settled_of_ne htext _, fun _ _ => htext⟩

theorem outputParam_fallback {placeholders : Entries String (Field × Nat)} {defaults : Params}
    {name template : String} {p : OutputParam}
    (h : outputParam placeholders defaults name template = .ok p) :
    p.fallback = if p.output.isLiteral then none else find? name defaults := by
  obtain ⟨output, -, h⟩ := exists_of_bind_eq_ok h
  cases h
  rfl

end Route

namespace Scope

theorem isSome_find?_params_foldl {k : String} {merged : Params} (h : (find? k merged).isSome)
    (s : Scope) : (find? k (s.foldl (fun merged l => merged.extend l.params) merged)).isSome := by
  induction s generalizing merged with
  | nil => exact h
  | cons l s ih => exact ih (isSome_find?_extend h l.params)

theorem isSome_find?_params {defaults : Params} {s : Scope} (hs : Draft.root defaults <+: s)
    {k : String} (hk : (find? k defaults).isSome) : (find? k s.params).isSome := by
  obtain ⟨inner, rfl⟩ := hs
  have hlevel : (find? k (Level.declare [] defaults).params).isSome :=
    isSome_find?_extend_later hk _
  exact isSome_find?_params_foldl (isSome_find?_extend_later hlevel []) inner

end Scope

namespace Route

/-- The parameters of the route are those of a scope inside the root of the defaults. -/
def DeclaredUnder (defaults : Params) (route : Route) : Prop :=
  ∃ (s : Scope) (params : List (String × String)), Draft.root defaults <+: s ∧
    outputParams s params defaults = .ok route.outputs

namespace DeclaredUnder
variable {defaults : Params} {route : Route}

theorem of_ofScope {s : Scope} {params : List (String × String)} {decision : Option Decision}
    (hs : Draft.root defaults <+: s) (h : ofScope s params defaults decision = .ok route) :
    route.DeclaredUnder defaults := by
  obtain ⟨outputs, conditions, houtputs, -, rfl, -, -⟩ := exists_of_ofScope h
  exact ⟨s, params, hs, houtputs⟩

theorem of_build {s : Scope} {params : List (String × String)} {placement : Placement}
    (hs : Draft.root defaults <+: s) (h : Trace.build defaults s params placement = .ok route) :
    route.DeclaredUnder defaults := by
  cases placement with
  | listed => exact of_ofScope hs h
  | detached => exact of_ofScope hs h
  | deferred decision => exact of_ofScope hs h
  | catchAll => exact of_ofScope (hs.trans (List.prefix_append _ _)) h

/-- In every match of the route a default has a value, and one that is not empty if it is captured
and the default is not empty. -/
theorem exists_value (h : route.DeclaredUnder defaults) {k v : String}
    (hk : find? k defaults = some v) (space : CaptureSpace) :
    ∃ value, find? k (paramsOf route.outputs space) = some value ∧
      (v ≠ "" → ∀ p ∈ route.outputs, p.name = k → p.output.isLiteral = false → value ≠ "") := by
  obtain ⟨s, params, hs, houtputs⟩ := h
  have hsorted : Sorted (s.params.extend params) :=
    sorted_extend (Scope.sorted_params s) params
  have hsome : (find? k (s.params.extend params)).isSome :=
    isSome_find?_extend (Scope.isSome_find?_params hs (by rw [hk]; rfl)) params
  obtain ⟨template, htemplate⟩ := Option.isSome_iff_exists.mp hsome
  obtain ⟨hinto, hfrom⟩ := mem_of_mapM_eq_ok houtputs
  obtain ⟨p, hp, hcompiled⟩ := hinto (k, template) (mem_of_find? htemplate)
  have hfallback : p.fallback = if p.output.isLiteral then none else some v := by
    rw [← hk]
    exact outputParam_fallback hcompiled
  obtain ⟨value, hvalue, hcaptured⟩ := exists_paramValue hfallback space
  refine ⟨value, (find?_paramsOf hsorted houtputs htemplate hcompiled space).trans hvalue, ?_⟩
  rintro hv p' hp' hname hliteral
  -- the parameter occurs once, so this is the one that gives the value
  obtain ⟨⟨name', template'⟩, hmem, hcompiled'⟩ := hfrom p' hp'
  obtain rfl : name' = k := (outputParam_name hcompiled').symm.trans hname
  cases (hsorted.find?_of_mem hmem).symm.trans htemplate
  cases hcompiled.symm.trans hcompiled'
  exact hcaptured hv hliteral

end DeclaredUnder

end Route

theorem Trace.declaredUnder_ofRoute (defaults : Params) :
    HoldsOfRoutes defaults (Draft.root defaults <+: ·) (·.route.DeclaredUnder defaults) := by
  refine .of_build (fun hs _ _ => hs.trans (List.prefix_append _ _))
    fun hs placement params route hbuild => ?_
  have hroute : route.DeclaredUnder defaults := .of_build hs hbuild
  constructor
  · rwa [route_placing]
  · intro name segments _
    rw [route_placing]
    exact hroute

theorem Route.DeclaredUnder.renumber {defaults : List Params} {routes : List Route}
    (h : List.Forall₂ DeclaredUnder defaults routes) (start : Nat) :
    List.Forall₂ DeclaredUnder defaults (Table.renumber start routes) :=
  Table.forall₂_renumber (fun _ _ _ hroute => hroute) h start

theorem Statement.declaredUnder_declare {defaults : Params} {body : List Statement}
    {outcome : Except RouteError Unit} {draft : Draft}
    (h : Statement.declare defaults body = (outcome, draft)) :
    List.Forall₂ Route.DeclaredUnder (List.replicate draft.routes.length defaults)
      draft.routes := by
  obtain ⟨journal, hdeclare⟩ := Statement.declare_eq defaults body
  rw [h] at hdeclare
  have hroutes : draft.routes = Table.renumber 0
      (Placing.listedRoutes (Trace.ofDeclaration defaults body).placings) := by
    rw [(Prod.mk.inj hdeclare).2, ← Table.routes_placeAll_empty, ← Router.ofDraft_declaration]
    rfl
  have hplaced := (Trace.declaredUnder_ofRoute defaults).ofDeclaration (List.prefix_refl _) body
  rw [hroutes, Table.length_renumber]
  refine Route.DeclaredUnder.renumber
    (List.forall₂_iff_get.mpr ⟨List.length_replicate, fun i _ hi => ?_⟩) 0
  obtain ⟨p, hp, hroute⟩ := List.mem_map.mp (List.get_mem _ ⟨i, hi⟩)
  rw [List.get_eq_getElem, List.getElem_replicate, ← hroute]
  exact hplaced p (List.mem_of_mem_filter hp)

namespace Call

def recordDefaults (r : Router) (known : List Params) (call : Call) : List Params :=
  match call.declaration? with
  | none => known
  | some (how, own, body) =>
    match Statement.declare (own.getD r.defaults) body with
    | (.error _, _) => known
    | (.ok _, draft) =>
      let fresh := List.replicate draft.routes.length (own.getD r.defaults)
      match how with
      | .replace => fresh
      | .prepend => fresh ++ known
      | .append => known ++ fresh

def recordAllDefaults (r : Router) (known : List Params) : List Call → List Params
  | [] => known
  | call :: calls => recordAllDefaults (r.perform call) (call.recordDefaults r known) calls

/-- The defaults that were in effect when each route of the router was declared. -/
def routeDefaults (calls : List Call) : List Params :=
  recordAllDefaults Router.new [] calls

end Call

namespace Router

theorem declaredUnder_perform {r : Router} {known : List Params}
    (h : List.Forall₂ Route.DeclaredUnder known r.table.routes) (call : Call) :
    List.Forall₂ Route.DeclaredUnder (call.recordDefaults r known) (r.perform call).table.routes := by
  rw [table_perform, Call.recordDefaults]
  cases call.declaration? with
  | none => exact h
  | some declared =>
    obtain ⟨how, own, body⟩ := declared
    cases hdeclare : Statement.declare (own.getD r.defaults) body with
    | mk outcome draft =>
      have hfresh := Statement.declaredUnder_declare hdeclare
      simp only [change, hdeclare]
      cases outcome with
      | error e => exact h
      | ok =>
        cases how with
        | replace => exact hfresh
        | prepend => exact List.rel_append hfresh (Route.DeclaredUnder.renumber h _)
        | append => exact List.rel_append h (Route.DeclaredUnder.renumber hfresh _)

theorem declaredUnder_performAll {r : Router} {known : List Params}
    (h : List.Forall₂ Route.DeclaredUnder known r.table.routes) (calls : List Call) :
    List.Forall₂ Route.DeclaredUnder (Call.recordAllDefaults r known calls)
      (r.performAll calls).table.routes := by
  induction calls generalizing r known with
  | nil => exact h
  | cons call calls ih => exact ih (declaredUnder_perform h call)

theorem declaredUnder_after (calls : List Call) :
    List.Forall₂ Route.DeclaredUnder (Call.routeDefaults calls) (after calls).table.routes :=
  declaredUnder_performAll (show List.Forall₂ _ [] new.table.routes from .nil) calls

/-- A match of a route whose parameters nothing decides has a value for each default that was in
effect when the route was declared, and one that is not empty if it is captured and the default is
not empty. -/
theorem defaults_present (calls : List Call) {i : Nat} {route : Route}
    (hroute : (after calls).routeAt? i = some route) (hdecision : route.decision = none)
    {request : Request} {params : Params}
    (hmatch : (after calls).matchRequest request = ⟨some i, params⟩) :
    ∃ defaults, (Call.routeDefaults calls)[i]? = some defaults ∧
      ∀ k v, find? k defaults = some v → ∃ value, find? k params = some value ∧
        (v ≠ "" → ∀ p ∈ route.outputs, p.name = k → p.output.isLiteral = false → value ≠ "") := by
  obtain ⟨space, -, hparams⟩ := accepts_of_matchRequest hroute hmatch
  rw [hdecision] at hparams
  obtain ⟨hlength, hunder⟩ := List.forall₂_iff_get.mp (declaredUnder_after calls)
  obtain ⟨hlt, hget⟩ := List.getElem?_eq_some_iff.mp hroute
  have hi : i < (Call.routeDefaults calls).length := hlength ▸ hlt
  refine ⟨_, List.getElem?_eq_getElem hi, fun k v hk => ?_⟩
  have hdeclared : route.DeclaredUnder (Call.routeDefaults calls)[i] := by
    have h := hunder i hi hlt
    rwa [List.get_eq_getElem, List.get_eq_getElem, hget] at h
  rw [← hparams]
  exact hdeclared.exists_value hk space

/-- A route that captures nothing for its default, behind one that is declared under others. -/
theorem defaults_present_of_prepended :
    let calls : List Call :=
      [.prepareWithDefaults [("k", "html")]
          [.within [(.path, .regex "^/a(:k)?$")] [] [.route .listed [] none]],
        .setDefaults [("l", "")], .prepend [.route (.deferred fun _ _ => none) [] none]]
    ∃ route, (after calls).routeAt? 1 = some route ∧ route.decision = none ∧
      (after calls).matchRequest { path := "/a" } = ⟨some 1, [("k", "html")]⟩ ∧
      Call.routeDefaults calls = [[("l", "")], [("k", "html")]] ∧
      ∃ value, find? "k" [("k", "html")] = some value ∧
        ∀ p ∈ route.outputs, p.name = "k" → p.output.isLiteral = false → value ≠ "" := by
  intro calls
  obtain ⟨hmatch, hdefaults, hat⟩ :
      (after calls).matchRequest { path := "/a" } = ⟨some 1, [("k", "html")]⟩ ∧
        Call.routeDefaults calls = [[("l", "")], [("k", "html")]] ∧
        ((after calls).routeAt? 1).map (·.decision.isSome) = some false := by decide +kernel
  obtain ⟨route, hroute, hsome⟩ := Option.map_eq_some_iff.mp hat
  have hdecision : route.decision = none := by simpa using hsome
  obtain ⟨defaults, hget, hpresent⟩ := defaults_present calls hroute hdecision hmatch
  rw [hdefaults] at hget
  cases hget
  obtain ⟨value, hvalue, hcaptured⟩ := hpresent "k" "html" rfl
  exact ⟨route, hroute, hdecision, hmatch, hdefaults, value, hvalue, hcaptured (by decide)⟩

end Router

end Signpost
