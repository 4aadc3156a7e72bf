import Signpost.Proofs.Declaration.Single
import Signpost.Proofs.Resource.Route
import Signpost.Proofs.Router.History

/-! # The parameters of a resource

A resource gives the same parameters to all actions that it lists. They count before those of the
scopes around a route and before what its path captures, so every match has them. The controller is
not one of them: it is an option of its own, or that of the scope around the resource, or the name.
-/
namespace Signpost
open Entries

/-- A parameter that a declaration itself gives is the one of every match, if its value is a text
without references. -/
theorem Route.find?_of_own_param {s : Scope} {params defaults : Params} {route : Route}
    (hroute : ofScope s params defaults none = .ok route) (hsorted : Sorted params) {k v : String}
    (hk : find? k params = some v) (hv : Resource.IsVerbatim v.toList) {request : Request}
    {found : Params} (haccept : route.accept? request = some found) : find? k found = some v := by
  obtain ⟨outputs, conditions, houtputs, -, rfl, -, hdecision⟩ := exists_of_ofScope hroute
  obtain ⟨space, -, hfound⟩ := accept?_eq_some_iff.mp haccept
  rw [hdecision] at hfound
  have hname : find? k (s.params.extend params) = some v := by
    rw [find?_extend_sorted _ _ hsorted, hk, Option.some_or]
  obtain ⟨o, ho, hvalue⟩ := Resource.exists_outputParam_verbatim hv s.placeholders defaults k
  rw [← hfound, find?_paramsOf (sorted_extend (Scope.sorted_params s) params) houtputs hname ho,
    paramValue_eq, hvalue]
  simp [settled]

namespace Resource

/-- The value is the last one that a list gives to the key. -/
def IsLast (params : List (String × String)) (k v : String) : Prop :=
  ∃ before after, params = before ++ (k, v) :: after ∧ ∀ e ∈ after, e.1 ≠ k

theorem find?_ofList_iff {params : List (String × String)} {k v : String} :
    find? k (ofList params) = some v ↔ IsLast params k v := by
  refine ⟨eq_append_of_find?_ofList, ?_⟩
  rintro ⟨before, after, rfl, hafter⟩
  have hnone : find? k after.reverse = none :=
    find?_eq_none fun e he => hafter e (List.mem_reverse.mp he)
  rw [find?_ofList, List.reverse_append, List.reverse_cons, find?_append, find?_append, hnone,
    Option.none_or, find?_cons, if_pos rfl, Option.some_or]

/-- What the options of a resource say of a parameter of its actions: the last value that they give
to it, but for the controller, which is the option, else that of the scope around, else the name. -/
def Sets (s : Scope) (name : String) (options : ResourceOptions) (k v : String) : Prop :=
  if k = "controller" then v = (options.controller.or (find? "controller" s.params)).getD name
  else IsLast options.params k v

variable {s : Scope} {name : String} {options : ResourceOptions} {r : Resolved} {k v : String}

theorem params_of_resolve (h : resolve s name options = .ok r) :
    r.params = (ofList options.params).insert "controller"
      ((options.controller.or (find? "controller" s.params)).getD name) := by
  rw [resolve] at h
  split at h
  · cases h
  · cases h
    rfl

theorem sorted_params_of_resolve (h : resolve s name options = .ok r) : Sorted r.params := by
  rw [params_of_resolve h]
  exact (sorted_ofList _).insert _ _

theorem find?_params_of_resolve (h : resolve s name options = .ok r) :
    find? k r.params = some v ↔ Sets s name options k v := by
  rw [params_of_resolve h, find?_insert, Sets]
  split
  · rw [Option.some_inj, eq_comm]
  · exact find?_ofList_iff

/-- A placing of a resource: a route that is kept aside, or a listed one with the parameters of the
resource. -/
def Carries (defaults : Params) (s : Scope) (name : String) (options : ResourceOptions) :
    Placing → Prop
  | .listed route => ∃ r s', resolve s name options = .ok r ∧
      Route.ofScope s' r.params defaults none = .ok route
  | .detached _ => True

end Resource

namespace Trace
open Resource
variable {defaults : Params} {s base : Scope} {name : String} {options : ResourceOptions}
  {r : Resolved}

theorem yields_resolve (P : Placing → Prop) :
    Yields P (fun r => resolve s name options = .ok r) (ofExcept (resolve s name options)) :=
  ⟨fun _ hp => absurd hp List.not_mem_nil, fun _ h => h⟩

theorem carries_of_address (path routeName : String) :
    Yields (Carries defaults s name options) (fun _ => True)
      (ofRoute defaults (base.within [(.path, .literal path)] []) .detached []
        (some routeName)) := by
  refine (Yields.ofExcept _).bind fun route _ => ⟨fun p hp => ?_, fun _ _ => trivial⟩
  rcases mem_place hp with rfl | ⟨_, _, -, rfl⟩ <;> exact trivial

theorem carries_of_action (hresolve : resolve s name options = .ok r) (s' : Scope) :
    Yields (Carries defaults s name options) (fun _ => True)
      (ofRoute defaults s' .listed r.params none) := by
  refine ⟨?_, fun _ _ => trivial⟩
  cases hroute : build defaults s' r.params .listed with
  | error e =>
    rw [ofRoute_of_error hroute]
    exact fun _ hp => absurd hp List.not_mem_nil
  | ok route =>
    rw [ofRoute_of_build hroute]
    exact List.forall_mem_singleton.mpr ⟨r, s', hresolve, hroute⟩

theorem carries_of_addresses (addresses : List (String × String)) :
    Yields (Carries defaults s name options) (fun _ => True)
      (ofAddresses defaults base addresses) := by
  induction addresses with
  | nil => exact .pure trivial
  | cons address addresses ih => exact (carries_of_address _ _).bind fun _ _ => ih

theorem carries_of_actions (hresolve : resolve s name options = .ok r) (scopes : List Scope) :
    Yields (Carries defaults s name options) (fun _ => True)
      (ofActions defaults r.params scopes) := by
  induction scopes with
  | nil => exact .pure trivial
  | cons s' scopes ih => exact (carries_of_action hresolve s').bind fun _ _ => ih

theorem carries_of_plural :
    Yields (Carries defaults s name options) (fun _ => True)
      (ofPlural defaults s name options) := by
  refine (yields_resolve _).bind fun r hresolve => ?_
  refine (carries_of_addresses _).bind fun _ _ => ?_
  refine (carries_of_addresses _).bind fun _ _ => ?_
  refine (carries_of_actions hresolve _).bind fun _ _ => ?_
  exact (carries_of_addresses _).bind fun _ _ => .pure trivial

theorem carries_of_singular :
    Yields (Carries defaults s name options) (fun _ => True)
      (ofSingular defaults s name options) := by
  rw [ofSingular]
  split
  · exact .ofExcept _
  refine (yields_resolve _).bind fun r hresolve => ?_
  refine (carries_of_actions hresolve _).bind fun _ _ => ?_
  exact (carries_of_addresses _).bind fun _ _ => .pure trivial

end Trace

namespace Resource
variable {s : Scope} {name : String} {options : ResourceOptions} {step : Declare Scope}

theorem routes_of_step (hstep : step ∈ [plural s name options, singular s name options])
    (d : Draft) :
    ∃ placings : List Placing, (∀ p ∈ placings, Carries d.defaults s name options p) ∧
      (step.run.run d).2.routes =
        d.routes ++ Table.renumber d.routes.length (Placing.listedRoutes placings) := by
  obtain ⟨t, hfollows, hplacings⟩ : ∃ t : Trace Scope, Declare.Follows d.defaults step t ∧
      ∀ p ∈ t.placings, Carries d.defaults s name options p := by
    rcases List.mem_pair.mp hstep with rfl | rfl
    · exact ⟨_, Declare.follows_plural s name options, Trace.carries_of_plural.placings⟩
    · exact ⟨_, Declare.follows_singular s name options, Trace.carries_of_singular.placings⟩
  exact ⟨t.placings, hplacings, Table.routes_of_follows hfollows⟩

def newScope (s : Scope) (name : String) : Scope :=
  usualScope (s.within [(.path, .literal ("/" ++ name))] []) ⟨"^[;/]new$", "get", "new"⟩

theorem new_prefix_singular {r : Resolved} {defaults : Params} {route : Route}
    (hmember : options.member = []) (hcollection : options.collection = [])
    (hresolve : resolve s name options = .ok r)
    (hroute : Route.ofScope (newScope s name) r.params defaults none = .ok route) :
    [.listed route] <+: (Trace.ofSingular defaults s name options).placings := by
  have hbuild : Trace.build defaults (newScope s name) r.params .listed = .ok route := hroute
  rw [Trace.ofSingular_of_resolve hmember hcollection hresolve, Statement.singularSingles,
    Trace.ofStatements_append, Trace.ofStatements_usual]
  change _ <+: ((Trace.ofActions defaults r.params (newScope s name :: _) >>= _) >>= _).placings
  refine List.IsPrefix.trans ?_ ((Trace.prefix_bind _ _).trans (Trace.prefix_bind _ _))
  rw [Trace.ofActions, Trace.ofRoute_of_build hbuild]
  exact Trace.prefix_bind ⟨[.listed route], .ok ()⟩ _

open Router (initialDefaults after)

/-- Options that give two values to the layout and one to the controller. -/
def account : ResourceOptions :=
  { params := [("layout", "plain"), ("controller", "articles"), ("layout", "wide")] }

def newAccount : Request := ⟨"/account/new", "get", "http://", "", []⟩

/-- A router that tries to declare the resource. -/
def tried : List Call := [.prepare [.attempt [.resource "account" account []]]]

theorem resolve_account : resolve (Draft.root initialDefaults) "account" account =
    .ok ⟨"account", "", [("controller", "account"), ("layout", "wide")]⟩ := by decide

theorem answer?_newAccount :
    Route.answer? (newScope (Draft.root initialDefaults) "account")
        [("controller", "account"), ("layout", "wide")] initialDefaults newAccount =
      some [("action", "new"), ("controller", "account"), ("layout", "wide")] := by
  have hsources : (newScope (Draft.root initialDefaults) "account").sources =
      [(.path, "^/account[;/]new$".toList), (.method, "^get$".toList)] := by decide +kernel
  have houtputs : Route.outputParams (newScope (Draft.root initialDefaults) "account")
      [("controller", "account"), ("layout", "wide")] initialDefaults =
        .ok [⟨"action", [.literal "new"], none⟩, ⟨"controller", [.literal "account"], none⟩,
          ⟨"layout", [.literal "wide"], none⟩] := by decide +kernel
  rw [Route.answer?_eq, houtputs, Route.compileConditions, hsources]
  decide +kernel

theorem routes_tried {route : Route}
    (hroute : Route.ofScope (newScope (Draft.root initialDefaults) "account")
      [("controller", "account"), ("layout", "wide")] initialDefaults none = .ok route) :
    ∃ rest, (after tried).table.routes = { route with index := 0 } :: rest := by
  obtain ⟨rest, hplacings⟩ := (new_prefix_singular rfl rfl resolve_account hroute).trans
    (Trace.prefix_bind _ fun nested => Trace.ofStatements initialDefaults nested [])
  have htrace : Router.new.changeTrace none [.attempt [.resource "account" account []]] =
      ⟨[.listed route] ++ rest, .ok ()⟩ := by
    rw [Router.changeTrace_new, Trace.ofDeclaration, Trace.ofStatements_singleton,
      Trace.ofStatement, Trace.ofStatements_singleton, Trace.ofStatement, ← hplacings]
  refine ⟨Table.renumber 1 (Placing.listedRoutes rest), ?_⟩
  rw [tried, Router.after_prepare, Router.prepare,
    (Router.change_of_ok (congrArg Trace.outcome htrace) .replace).2, htrace]
  exact Table.routes_placeAll_empty _

theorem exists_newAccount :
    ∃ (route : Route) (rest : List Route),
      ((singular (Draft.root initialDefaults) "account" account).run.run
        (Draft.empty initialDefaults)).2.routes = { route with index := 0 } :: rest ∧
      (after tried).routeAt? 0 = some { route with index := 0 } ∧
      (after tried).matchRequest newAccount =
        ⟨some 0, [("action", "new"), ("controller", "account"), ("layout", "wide")]⟩ := by
  obtain ⟨route, hroute, haccept⟩ := Route.exists_of_answer? answer?_newAccount
  obtain ⟨others, hplacings⟩ := new_prefix_singular rfl rfl resolve_account hroute
  obtain ⟨rest, hrest⟩ := routes_tried hroute
  have hat : (after tried).routeAt? 0 = some { route with index := 0 } := by
    rw [Router.routeAt?, hrest]
    rfl
  refine ⟨route, Table.renumber 1 (Placing.listedRoutes others), ?_, hat, ?_⟩
  · have hfollows : Declare.Follows (Draft.empty initialDefaults).defaults _
        (Trace.ofSingular initialDefaults (Draft.root initialDefaults) "account" account) :=
      Declare.follows_singular (Draft.root initialDefaults) "account" account
    rw [Table.routes_of_follows hfollows, ← hplacings]
    rfl
  · rw [Router.matchRequest_eq_some_iff (Router.numbered_after tried)]
    exact ⟨_, hat, Route.accept?_eq_some_iff.mp haccept, fun j hj => absurd hj (Nat.not_lt_zero j)⟩

/-- A resource, plural or singular, lists routes behind those of the draft. Every match of them has
the parameters that the options set, whatever the scopes and the path give: a match of the route
alone, and one of a router at the position where the route is. -/
theorem params_of_listed (s : Scope) (name : String) (options : ResourceOptions) (d : Draft)
    (hstep : step ∈ [plural s name options, singular s name options]) {k v : String}
    (hsets : Sets s name options k v) (hv : IsVerbatim v.toList) :
    ∃ fresh, (step.run.run d).2.routes = d.routes ++ fresh ∧ ∀ route ∈ fresh,
      (∀ request found, route.accept? request = some found → find? k found = some v) ∧
      ∀ calls i request found,
        (after calls).routeAt? i = some { route with index := i } →
        (after calls).matchRequest request = ⟨some i, found⟩ → find? k found = some v := by
  obtain ⟨placings, hplacings, hroutes⟩ := routes_of_step hstep d
  refine ⟨_, hroutes, fun route hroute => ?_⟩
  obtain ⟨original, horiginal, index, rfl⟩ := Table.exists_of_mem_renumber hroute
  obtain ⟨p, hp, rfl⟩ := List.mem_map.mp horiginal
  obtain ⟨hp, hlisted⟩ := List.mem_filter.mp hp
  cases p with
  | detached route => cases hlisted
  | listed route =>
    obtain ⟨r, s', hresolve, hbuilt⟩ := hplacings _ hp
    have hfind : find? k r.params = some v := (find?_params_of_resolve hresolve).mpr hsets
    have hmatch : ∀ request found, route.accept? request = some found → find? k found = some v :=
      fun _ _ haccept =>
        Route.find?_of_own_param hbuilt (sorted_params_of_resolve hresolve) hfind hv haccept
    refine ⟨hmatch, fun calls i request found hat hfound => ?_⟩
    have haccepts := Router.accepts_of_matchRequest hat hfound
    exact hmatch request found (Route.accept?_eq_some_iff.mpr haccepts)

/-- The last layout counts, and the name gives the controller. -/
theorem params_of_listed_account :
    Sets (Draft.root initialDefaults) "account" account "layout" "wide" ∧
      Sets (Draft.root initialDefaults) "account" account "controller" "account" ∧
      ∃ found, (after tried).matchRequest newAccount = ⟨some 0, found⟩ ∧
        find? "layout" found = some "wide" ∧ find? "controller" found = some "account" := by
  have hlayout : Sets (Draft.root initialDefaults) "account" account "layout" "wide" := by
    rw [Sets, if_neg (by decide)]
    exact ⟨[("layout", "plain"), ("controller", "articles")], [], rfl, nofun⟩
  have hcontroller :
      Sets (Draft.root initialDefaults) "account" account "controller" "account" := by
    rw [Sets, if_pos rfl]
    rfl
  obtain ⟨route, rest, hroutes, hat, hmatch⟩ := exists_newAccount
  have hfound : ∀ {k v : String},
      Sets (Draft.root initialDefaults) "account" account k v → IsVerbatim v.toList →
        find? k [("action", "new"), ("controller", "account"), ("layout", "wide")] = some v := by
    intro k v hsets hv
    obtain ⟨fresh, hfresh, hparams⟩ := params_of_listed (Draft.root initialDefaults)
      "account" account (Draft.empty initialDefaults)
      (List.mem_cons_of_mem _ List.mem_cons_self) hsets hv
    rw [hroutes] at hfresh
    have hmem : { route with index := 0 } ∈ fresh := by
      change _ = [] ++ fresh at hfresh
      rw [List.nil_append] at hfresh
      rw [← hfresh]
      exact List.mem_cons_self
    exact (hparams _ hmem).2 tried 0 newAccount _ hat hmatch
  exact ⟨hlayout, hcontroller, _, hmatch, hfound hlayout ⟨by decide, by decide, by decide⟩,
    hfound hcontroller ⟨by decide, by decide, by decide⟩⟩

/-- The controller among the parameters of the options is not that of a match. -/
theorem controller_of_listed_account :
    account.controller = none ∧ IsLast account.params "controller" "articles" ∧
      IsVerbatim "articles".toList ∧
      ∃ route ∈ ((singular (Draft.root initialDefaults) "account" account).run.run
          (Draft.empty initialDefaults)).2.routes,
        (after tried).routeAt? 0 = some route ∧
        ∃ found, (after tried).matchRequest newAccount = ⟨some 0, found⟩ ∧
          find? "controller" found = some "account" ∧
          find? "controller" found ≠ some "articles" := by
  obtain ⟨route, rest, hroutes, hat, hmatch⟩ := exists_newAccount
  refine ⟨rfl, ⟨[("layout", "plain")], [("layout", "wide")], rfl, by decide⟩,
    ⟨by decide, by decide, by decide⟩, _, ?_, hat, _, hmatch, by rfl, by decide⟩
  rw [hroutes]
  exact List.mem_cons_self

end Resource

end Signpost
