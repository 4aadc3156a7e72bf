import Signpost.Proofs.Router.History

/-! # Adding to routers

Routes that are appended answer only what was not answered before, and routes that are prepended
move the others by their number. Names that a declaration does not give lead where they led.
-/
namespace Signpost
open Entries

theorem Route.link_index (route : Route) (index : Nat) (source : LinkSource)
    (fallback : Query.QueryMap) :
    ({ route with index } : Route).link source fallback = route.link source fallback := rfl

namespace Table

theorem find?_ofDraft_of_free {d : Draft} {name : String} (h : find? name d.names = none) :
    find? name (ofDraft d).names = none := by
  refine find?_eq_none fun e he heq => ?_
  obtain ⟨⟨name', slot⟩, hslot, hnamed⟩ := List.mem_filterMap.mp he
  obtain ⟨named, -, rfl⟩ := Option.map_eq_some_iff.mp hnamed
  exact ne_of_find?_eq_none h _ hslot heq

section Names
variable {t u : Table} {name : String}

theorem find?_splice_append_of_free (hu : Sorted u.names) (hfree : find? name u.names = none) :
    find? name (t.splice u .append).names = find? name t.names := by
  change find? name (t.names.extend (shiftNames u.names t.routes.length)) = _
  rw [shiftNames, find?_extend_sorted _ _ (hu.mapValues _), find?_mapValues, hfree]
  rfl

theorem named?_splice_append (hu : Sorted u.names) (hfree : find? name u.names = none)
    (ht : find? name t.names ≠ none → (t.named? name).isSome) :
    (t.splice u .append).named? name = t.named? name := by
  simp only [named?, find?_splice_append_of_free hu hfree]
  cases hfind : find? name t.names with
  | none => rfl
  | some named =>
    cases named with
    | detached route => rfl
    | listed index =>
      have hsome : (t.routes[index]?).isSome := by
        simpa [named?, hfind] using ht
      have hlt : index < t.routes.length := by simpa using hsome
      exact List.getElem?_append_left hlt

theorem named?_splice_prepend (hu : Sorted u.names) (hfree : find? name u.names = none) :
    ∃ index, (t.splice u .prepend).named? name =
      (t.named? name).map fun route => { route with index } := by
  simp only [named?, find?_splice_prepend t hu, hfree, Option.none_or]
  cases find? name t.names with
  | none => exact ⟨0, rfl⟩
  | some named =>
    cases named with
    | detached route => exact ⟨route.index, rfl⟩
    | listed index =>
      refine ⟨u.routes.length + index, ?_⟩
      change (u.routes ++ renumber u.routes.length t.routes)[index + u.routes.length]? = _
      rw [List.getElem?_append_right (Nat.le_add_left _ _), Nat.add_sub_cancel, getElem?_renumber]

end Names

end Table

namespace Router
open Table

section Declared
variable {r : Router} {body : List Statement} {draft : Draft}

theorem change_of_declare {defaults : Option Params}
    (h : Statement.declare (defaults.getD r.defaults) body = (.ok (), draft)) (how : Splice) :
    r.change how defaults body =
      ⟨⟨r.table.splice (ofDraft draft) how, defaults.getD r.defaults⟩, none, draft.journal⟩ := by
  rw [change, h]

theorem sorted_of_declare {defaults : Params} {outcome : Except RouteError Unit}
    (h : Statement.declare defaults body = (outcome, draft)) : Sorted (ofDraft draft).names := by
  obtain ⟨journal, hdeclare⟩ := Statement.declare_eq defaults body
  rw [h] at hdeclare
  rw [(Prod.mk.inj hdeclare).2, ofDraft_declaration]
  exact sorted_placeAll sorted_nil _

end Declared

section Answers
variable {r : Router} {request : Request}

theorem matchRequest_eq (r : Router) (request : Request) :
    r.matchRequest request =
      ((findRoute request r.table.routes).map fun found =>
        (⟨some found.1.index, found.2⟩ : RouteMatch)).getD ⟨none, []⟩ := by
  rw [matchRequest]
  cases findRoute request r.table.routes <;> rfl

theorem matchRequest_append {added : List Route} {names : Entries String Named} {defaults : Params}
    (h : (r.matchRequest request).index ≠ none) :
    matchRequest ⟨⟨r.table.routes ++ added, names⟩, defaults⟩ request = r.matchRequest request := by
  rw [matchRequest_eq r] at h ⊢
  rw [matchRequest_eq, findRoute_append]
  cases hfound : findRoute request r.table.routes with
  | none =>
    rw [hfound] at h
    exact absurd rfl h
  | some found => rfl

theorem matchRequest_prepend (hr : r.table.Numbered) {fresh : List Route}
    {names : Entries String Named} {defaults : Params}
    (hfresh : ∀ route ∈ fresh, route.accept? request = none) :
    matchRequest ⟨⟨fresh ++ renumber fresh.length r.table.routes, names⟩, defaults⟩ request =
      ⟨(r.matchRequest request).index.map (· + fresh.length), (r.matchRequest request).params⟩ := by
  have hmoved := findRoute_renumber request 0 fresh.length r.table.routes
  rw [Nat.zero_add, show renumber 0 r.table.routes = r.table.routes from hr] at hmoved
  rw [matchRequest_eq, matchRequest_eq, findRoute_append, findRoute_eq_none_iff.mpr hfresh,
    Option.none_or, hmoved]
  cases findRoute request r.table.routes <;> rfl

end Answers

theorem isSome_namedRoute? {calls : List Call} {name : String}
    (h : find? name (after calls).table.names ≠ none) :
    ((after calls).table.named? name).isSome := by
  obtain ⟨p, position, -, -, hnamed, -⟩ := exists_named (mem_routeNames_iff.mpr h)
  rw [namedRoute?] at hnamed
  rw [hnamed]
  rfl

theorem generate_of_named? {r r' : Router} {name : String} {index : Nat}
    (h : r'.table.named? name = (r.table.named? name).map fun route => { route with index })
    (source : LinkSource) (fallback : Query.QueryMap) :
    r'.generate name source fallback = r.generate name source fallback := by
  rw [generate, generate, namedRoute?, namedRoute?, h]
  cases r.table.named? name with
  | none => rfl
  | some route => exact route.link_index index source fallback

/-- A declaration that is added to a router keeps what the router does. Appended routes leave each
answer as it was. Prepended ones move the position of each answer that none of them gives. Both
leave the addresses of all names that the declaration does not give. -/
theorem additions_conserve (calls : List Call) (body : List Statement) (draft : Draft)
    (h : Statement.declare (after calls).defaults body = (.ok (), draft)) :
    let r := after calls
    let appended := r.append body
    let prepended := r.prepend body
    (appended.failure = none ∧ appended.router.size = r.size + draft.routes.length) ∧
    (prepended.failure = none ∧ prepended.router.size = draft.routes.length + r.size) ∧
    (∀ request, (r.matchRequest request).index ≠ none →
      appended.router.matchRequest request = r.matchRequest request) ∧
    (∀ request, (∀ fresh ∈ draft.routes, ∀ params, ¬ fresh.Accepts request params) →
      prepended.router.matchRequest request =
        ⟨(r.matchRequest request).index.map (· + draft.routes.length),
          (r.matchRequest request).params⟩) ∧
    ∀ name, find? name draft.names = none → ∀ source fallback,
      appended.router.generate name source fallback = r.generate name source fallback ∧
      prepended.router.generate name source fallback = r.generate name source fallback := by
  intro r appended prepended
  have hdeclare : Statement.declare ((none : Option Params).getD r.defaults) body = (.ok (), draft) := h
  have happended : appended = _ := change_of_declare hdeclare .append
  have hprepended : prepended = _ := change_of_declare hdeclare .prepend
  have hsorted := sorted_of_declare h
  rw [happended, hprepended]
  refine ⟨⟨rfl, ?_⟩, ⟨rfl, ?_⟩, fun request hindex => ?_, fun request hfresh => ?_,
    fun name hname source fallback => ?_⟩
  · change (r.table.routes ++ renumber r.table.routes.length draft.routes).length = _
    rw [List.length_append, length_renumber]
    rfl
  · change (draft.routes ++ renumber draft.routes.length r.table.routes).length = _
    rw [List.length_append, length_renumber]
    rfl
  · exact matchRequest_append hindex
  · exact matchRequest_prepend (numbered_after calls) fun route hroute =>
      Route.accept?_eq_none_iff.mpr (hfresh route hroute)
  · have hfree := find?_ofDraft_of_free hname
    constructor
    · rw [generate, generate, namedRoute?, namedRoute?,
        named?_splice_append hsorted hfree isSome_namedRoute?]
    · obtain ⟨index, hnamed⟩ := named?_splice_prepend (t := r.table) hsorted hfree
      exact generate_of_named? hnamed source fallback

/-- A declaration with an attempt that fails and a name for an address, added to a router that
answers one path and has a name of its own. -/
theorem additions_conserve_of_attempted :
    let only (path : String) : Decision := fun request params =>
      if request.path = path then some params else none
    let calls : List Call :=
      [.prepare [.route (.deferred (only "/news")) [("section", "news")] none,
        .within [(.path, .literal "/archive")] [] [.route .listed [] (some "archive")]]]
    let body : List Statement :=
      [.within [(.path, .literal "/blog")] [] [.route .detached [] (some "blog")],
        .attempt [.route (.deferred (only "/about")) [] none, .reject (.namedRouteNotFound "old")]]
    let draft := (Statement.declare (after calls).defaults body).2
    let request : Request := { path := "/news" }
    let found : Params := [("action", "index"), ("section", "news")]
    Statement.declare (after calls).defaults body = (.ok (), draft) ∧ draft.routes.length = 1 ∧
      ((after calls).append body).router.matchRequest request = ⟨some 0, found⟩ ∧
      ((after calls).prepend body).router.matchRequest request = ⟨some 1, found⟩ ∧
      find? "archive" draft.names = none ∧ ∀ source fallback,
        ((after calls).append body).router.generate "archive" source fallback =
          (after calls).generate "archive" source fallback ∧
        ((after calls).prepend body).router.generate "archive" source fallback =
          (after calls).generate "archive" source fallback := by
  intro only calls body draft request found
  have hfound : (after calls).matchRequest request = ⟨some 0, found⟩ := by decide +kernel
  obtain ⟨hok, hlength, hname, hfresh⟩ :
      (Statement.declare (after calls).defaults body).1 = .ok () ∧ draft.routes.length = 1 ∧
        find? "archive" draft.names = none ∧
        ∀ fresh ∈ draft.routes, fresh.accept? request = none := by decide +kernel
  have hdeclare : Statement.declare (after calls).defaults body = (.ok (), draft) := by
    rw [← hok]
  obtain ⟨-, -, happended, hprepended, hgenerate⟩ := additions_conserve calls body draft hdeclare
  refine ⟨hdeclare, hlength, ?_, ?_, hname, hgenerate "archive" hname⟩
  · rw [happended request (by rw [hfound]; simp), hfound]
  · rw [hprepended request fun fresh h => Route.accept?_eq_none_iff.mp (hfresh fresh h), hfound,
      hlength]
    rfl

end Router

end Signpost
