import Signpost.Proofs.Declaration.Single
import Signpost.Proofs.Resource.Dispatch
import Signpost.Proofs.RouteFile.Order
import Signpost.Proofs.Router.Failure
import Signpost.RouteFile.Declare

/-! # Blocks of route files

Every entry of a route file stands for a block of routes, and the file for the blocks of its entries
in a row. A block is told in sketches, which say for every route its scope, its parameters and its
name. A file that is installed lists the routes of these sketches and no others.
-/
namespace Signpost
open Resource

/-- What a route is made of. -/
structure Sketch where
  scope : Scope
  params : List (String × String)
  name : Option String

namespace Sketch

/-- The route is the one that the scope declares, under the name. Its position is left open. -/
def Makes (defaults : Params) (k : Sketch) (route : Route) : Prop :=
  ∃ plain, Route.ofScope k.scope k.params defaults none = .ok plain ∧
    route = { plain with name := k.name, index := route.index }

def unnamed (params : Params) (scopes : List Scope) : List Sketch :=
  scopes.map fun s => ⟨s, params, none⟩

end Sketch

namespace Entry

def actionsByName (actions : Entries String Methods) : List ExtraAction :=
  extraActions (Entries.ofList actions)

def pluralBlock (base : Scope) (params : Params) (e : ResourcesEntry) : List Sketch :=
  Sketch.unnamed params <|
    (actionsByName e.member).map (extraScope base "^/:id[/;]") ++
      (actionsByName e.collection).map (extraScope base "^[/;]") ++
      pluralActions.map (usualScope base)

mutual

/-- The routes of an entry on a scope, those of the entries nested in it included. -/
def block (s : Scope) : Entry → List Sketch
  | .matching e scope =>
    let inner := s.within e.allConditions []
    if scope.isEmpty && e.catchAll.isNone then [⟨inner, e.params.pairs, e.name⟩]
    else
      let inner := inner.within [] e.params.pairs
      blocks inner scope ++
        match e.catchAll with
        | some params => [⟨inner, params.pairs, e.name⟩]
        | none => []
  | .resources e scope =>
    match resolve s e.resources e.options with
    | .ok r =>
      let base := s.within [(.path, .literal ("/" ++ e.resources))] []
      pluralBlock base r.params e ++
        blocks (base.within [(.path, .literal ("/:" ++ r.singular ++ "_id"))] []) scope
    | .error _ => []
  | .resource e scope =>
    match resolve s e.resource e.options with
    | .ok r =>
      let base := s.within [(.path, .literal ("/" ++ e.resource))] []
      Sketch.unnamed r.params (singularActions.map (usualScope base)) ++ blocks base scope
    | .error _ => []
  | .defaultRoutes on params =>
    if on then [⟨s.within [(.path, Statement.catchAllPath)] [], params.pairs, none⟩] else []

def blocks (s : Scope) : List Entry → List Sketch
  | [] => []
  | entry :: rest => block s entry ++ blocks s rest

end

mutual

def size : Entry → Nat
  | .matching e scope =>
    if scope.isEmpty && e.catchAll.isNone then 1
    else sizes scope + if e.catchAll.isSome then 1 else 0
  | .resources e scope => e.member.length + e.collection.length + 8 + sizes scope
  | .resource _ scope => 6 + sizes scope
  | .defaultRoutes on _ => if on then 1 else 0

def sizes : List Entry → Nat
  | [] => 0
  | entry :: rest => size entry + sizes rest

end

theorem blocks_eq_flatMap (s : Scope) (entries : List Entry) :
    blocks s entries = entries.flatMap (block s) := by
  induction entries with
  | nil => rfl
  | cons entry entries ih => rw [blocks, ih, List.flatMap_cons]

theorem sizes_eq_sum (entries : List Entry) : sizes entries = (entries.map size).sum := by
  induction entries with
  | nil => rfl
  | cons entry entries ih => rw [sizes, ih, List.map_cons, List.sum_cons]

theorem actionsByName_of_sorted {actions : Entries String Methods} (h : Entries.Sorted actions) :
    actionsByName actions = extraActions actions := by
  rw [actionsByName, h.ofList_of_perm (List.Perm.refl _)]

end Entry

namespace Trace
open Entry
variable {defaults params : Params} {s : Scope}

/-- When the step succeeds, the routes that it lists are made of the sketches, and there are `count`
of them. -/
def Lists (defaults : Params) (t : Trace Unit) (sketches : List Sketch) (count : Nat) : Prop :=
  t.outcome = .ok () →
    List.Forall₂ (Sketch.Makes defaults) sketches (Placing.listedRoutes t.placings) ∧
      sketches.length = count

theorem lists_nothing : Lists defaults (pure ()) [] 0 :=
  fun _ => ⟨.nil, rfl⟩

theorem lists_error (e : RouteError) (sketches : List Sketch) (count : Nat) :
    Lists defaults (ofExcept (.error e)) sketches count := by
  rintro ⟨⟩

theorem Lists.bind {t u : Trace Unit} {first second : List Sketch} {m n : Nat}
    (ht : Lists defaults t first m) (hu : Lists defaults u second n) :
    Lists defaults (t >>= fun _ => u) (first ++ second) (m + n) := by
  intro h
  cases hfirst : t.outcome with
  | error e =>
    rw [bind_of_error hfirst] at h
    cases h
  | ok =>
    rw [bind_of_ok hfirst] at h ⊢
    obtain ⟨htmakes, htcount⟩ := ht hfirst
    obtain ⟨humakes, hucount⟩ := hu h
    rw [Placing.listedRoutes_append, List.length_append, htcount, hucount]
    exact ⟨List.rel_append htmakes humakes, rfl⟩

theorem placings_of_ofRoute {placement : Placement} {own : List (String × String)}
    {name : Option String} (h : (ofRoute defaults s placement own name).outcome = .ok ()) :
    ∃ plain, build defaults s own placement = .ok plain ∧
      (ofRoute defaults s placement own name).placings =
        [placing placement { plain with name }] := by
  cases hbuild : build defaults s own placement with
  | error e =>
    rw [ofRoute_of_error hbuild] at h
    cases h
  | ok plain =>
    have hunnamed : { plain with name := none } = plain := by
      rw [← Declare.name_of_build hbuild]
    refine ⟨plain, rfl, ?_⟩
    rw [ofRoute_of_build hbuild] at h ⊢
    cases name with
    | none =>
      rw [hunnamed]
      rfl
    | some name =>
      cases hsegments : plain.segments with
      | ok segments => rw [place_of_ok hsegments, hsegments]
      | error reason =>
        rw [place_of_error hsegments] at h
        cases h

theorem lists_ofRoute {placement : Placement} {own : List (String × String)} {name : Option String}
    {k : Sketch} (hname : k.name = name)
    (hbuild : build defaults s own placement = Route.ofScope k.scope k.params defaults none)
    (hlisted : ∀ route, placing placement route = .listed route) :
    Lists defaults (ofRoute defaults s placement own name) [k] 1 := by
  intro h
  obtain ⟨plain, hplain, hplacings⟩ := placings_of_ofRoute h
  rw [hplacings, hlisted]
  refine ⟨List.forall₂_cons.mpr ⟨⟨plain, hbuild ▸ hplain, ?_⟩, .nil⟩, rfl⟩
  rw [hname]
  rfl

theorem lists_listed (own : List (String × String)) (name : Option String) :
    Lists defaults (ofRoute defaults s .listed own name) [⟨s, own, name⟩] 1 :=
  lists_ofRoute rfl rfl fun _ => rfl

theorem lists_catchAll (own : List (String × String)) :
    Lists defaults (ofRoute defaults s .catchAll own none)
      [⟨s.within [(.path, Statement.catchAllPath)] [], own, none⟩] 1 :=
  lists_ofRoute rfl rfl fun _ => rfl

theorem lists_actions (params : Params) (scopes : List Scope) :
    Lists defaults (ofActions defaults params scopes) (Sketch.unnamed params scopes) scopes.length := by
  induction scopes with
  | nil => exact lists_nothing
  | cons s scopes ih =>
    have hcons := (lists_listed (s := s) params none).bind ih
    rw [Nat.add_comm] at hcons
    exact hcons

theorem lists_addresses (addresses : List (String × String)) :
    Lists defaults (ofAddresses defaults s addresses) [] 0 := by
  induction addresses with
  | nil => exact lists_nothing
  | cons address addresses ih =>
    have haside : Lists defaults (ofRoute defaults (s.within [(.path, .literal address.1)] [])
        .detached [] (some address.2)) [] 0 := by
      intro h
      obtain ⟨plain, -, hplacings⟩ := placings_of_ofRoute h
      rw [hplacings]
      exact ⟨.nil, rfl⟩
    exact haside.bind ih

theorem Lists.behind_addresses {t : Trace Unit} {sketches : List Sketch} {count : Nat}
    (h : Lists defaults t sketches count) (addresses : List (String × String)) :
    Lists defaults (ofAddresses defaults s addresses >>= fun _ => t) sketches count := by
  have hbehind := (lists_addresses (s := s) addresses).bind h
  rwa [List.nil_append, Nat.zero_add] at hbehind

theorem Lists.before_addresses {t : Trace Unit} {sketches : List Sketch} {count : Nat}
    (h : Lists defaults t sketches count) (addresses : List (String × String)) :
    Lists defaults (t >>= fun _ => ofAddresses defaults s addresses) sketches count := by
  have hbefore := h.bind (lists_addresses (s := s) addresses)
  rwa [List.append_nil] at hbefore

theorem lists_pluralSingles (r : Resolved) (e : ResourcesEntry) (hmember : Entries.Sorted e.member)
    (hcollection : Entries.Sorted e.collection) :
    Lists defaults (ofStatements defaults s (Statement.pluralSingles r e.resources e.options))
      (pluralBlock s r.params e) (e.member.length + e.collection.length + 8) := by
  have hscopes : actionScopes s e.options =
      (actionsByName e.member).map (extraScope s "^/:id[/;]") ++
        (actionsByName e.collection).map (extraScope s "^[/;]") ++
        pluralActions.map (usualScope s) := by
    rw [actionsByName_of_sorted hmember, actionsByName_of_sorted hcollection]
    rfl
  have hcount : (actionScopes s e.options).length =
      e.member.length + e.collection.length + 8 := by
    simp [actionScopes, ResourcesEntry.options, extraActions, pluralActions, Nat.add_assoc]
  rw [ofStatements_pluralSingles, ofResource, pluralBlock, ← hscopes, ← hcount]
  exact ((lists_actions r.params _).before_addresses _).behind_addresses _

theorem lists_singularSingles (r : Resolved) (name : String) :
    Lists defaults (ofStatements defaults s (Statement.singularSingles r name))
      (Sketch.unnamed r.params (singularActions.map (usualScope s))) 6 := by
  rw [Statement.singularSingles, ofStatements_append, ofStatements_usual, ofStatements_addresses]
  exact (lists_actions r.params _).before_addresses _

theorem lists_last (e : MatchEntry) :
    Lists defaults (ofStatements defaults s e.last)
      (match e.catchAll with
        | some own => [⟨s, own.pairs, e.name⟩]
        | none => [])
      (if e.catchAll.isSome then 1 else 0) := by
  rw [MatchEntry.last]
  cases e.catchAll with
  | some own =>
    rw [ofStatements_singleton, ofStatement_route]
    exact lists_listed own.pairs e.name
  | none =>
    cases e.name with
    | some name =>
      rw [ofStatements_singleton, ofStatement]
      exact lists_error _ _ _
    | none =>
      rw [ofStatements]
      exact lists_nothing

mutual

theorem lists_entry (s : Scope) (e : Entry) (h : e.ActionsOrdered) :
    Lists defaults (ofStatements defaults s e.statements) (e.block s) e.size := by
  cases e with
  | matching e scope =>
    rw [Entry.statements, Entry.block, Entry.size]
    split
    · rw [ofStatements_singleton, ofStatement_within, ofStatement_route]
      exact lists_listed _ _
    · rw [ofStatements_singleton, ofStatement_within, ofStatement, ofStatements_append]
      exact (lists_entries _ scope h).bind (lists_last e)
  | resources e scope =>
    obtain ⟨hmember, hcollection, hscope⟩ := h
    rw [Entry.statements, ofStatements_singleton, ofStatement_expand, Statement.expand, Entry.block,
      Entry.size]
    cases resolve s e.resources e.options with
    | error error => exact lists_error _ _ _
    | ok r =>
      change Lists defaults (ofStatement defaults s (.within _ [] _)) _ _
      rw [ofStatement, ofStatements_append, ofStatements_singleton, ofStatement]
      exact (lists_pluralSingles r e hmember hcollection).bind (lists_entries _ scope hscope)
  | resource e scope =>
    have hplain : ¬(!e.options.member.isEmpty || !e.options.collection.isEmpty) = true := nofun
    rw [Entry.statements, ofStatements_singleton, ofStatement_expand, Statement.expand,
      if_neg hplain, Entry.block, Entry.size]
    cases resolve s e.resource e.options with
    | error error => exact lists_error _ _ _
    | ok r =>
      change Lists defaults (ofStatement defaults s (.within _ [] _)) _ _
      rw [ofStatement, ofStatements_append, ofStatements_singleton, ofStatement]
      exact (lists_singularSingles r e.resource).bind (lists_entries _ scope h)
  | defaultRoutes on own =>
    rw [Entry.statements, Entry.block, Entry.size]
    split
    · rw [ofStatements_singleton, ofStatement_route]
      exact lists_catchAll own.pairs
    · rw [ofStatements]
      exact lists_nothing

theorem lists_entries (s : Scope) (entries : List Entry) (h : AllOrdered entries) :
    Lists defaults (ofStatements defaults s (Entry.statementsOf entries)) (Entry.blocks s entries)
      (Entry.sizes entries) := by
  cases entries with
  | nil =>
    rw [Entry.statementsOf, ofStatements]
    exact lists_nothing
  | cons entry rest =>
    rw [Entry.statementsOf, ofStatements_append]
    exact (lists_entry s entry h.1).bind (lists_entries s rest h.2)

end

end Trace

theorem Sketch.makes_index {defaults : Params} (k : Sketch) (route : Route) (index : Nat)
    (h : k.Makes defaults route) : k.Makes defaults { route with index } := by
  obtain ⟨plain, hplain, hroute⟩ := h
  refine ⟨plain, hplain, ?_⟩
  rw [hroute]

namespace Router
open Table

/-- A file that a router installs makes a table of its blocks, in the order of the file: the routes
are those of the sketches, one for each. -/
theorem routes_of_install (r : Router) (file : RouteFile)
    (hactions : ∀ e ∈ file.routes, e.ActionsOrdered) (h : (r.install file).failure = none) :
    let router := (r.install file).router
    List.Forall₂ (Sketch.Makes file.installDefaults)
        (file.routes.flatMap (Entry.block (Draft.root file.installDefaults)))
        router.table.routes ∧
      router.table.Numbered ∧ router.size = (file.routes.map Entry.size).sum := by
  have houtcome : (r.changeTrace (some file.installDefaults) file.statements).outcome = .ok () :=
    outcome_of_failure h
  have hlists : Trace.Lists file.installDefaults
      (Trace.ofDeclaration file.installDefaults file.statements)
      (Entry.blocks (Draft.root file.installDefaults) file.routes) (Entry.sizes file.routes) :=
    Trace.lists_entries _ file.routes (Entry.allOrdered_iff.mpr hactions)
  obtain ⟨hmakes, hcount⟩ := hlists houtcome
  have hroutes : (r.install file).router.table.routes = renumber 0 (Placing.listedRoutes
      (Trace.ofDeclaration file.installDefaults file.statements).placings) := by
    rw [install, prepareWithDefaults, (change_of_ok houtcome .replace).2]
    exact routes_placeAll_empty _
  rw [Entry.blocks_eq_flatMap] at hmakes hcount
  refine ⟨?_, ?_, ?_⟩
  · rw [hroutes]
    exact forall₂_renumber Sketch.makes_index hmakes 0
  · rw [Numbered, hroutes, renumber_renumber]
  · rw [size, hroutes, length_renumber, ← hmakes.length_eq, hcount, Entry.sizes_eq_sum]

/-- A resource with extra actions, and a path with a route inside it and a last route of its own. -/
theorem routes_of_install_posts :
    let posts : Entry := .resources ⟨"posts", none, none, none, [("publish", .one "post")],
      [("archive", .one "get"), ("search", .many ["get", "post"])], []⟩ []
    let team : Entry := .matching ⟨some (.literal "/team"), [], [], some "team", none⟩ []
    let about : Entry := .matching ⟨some (.literal "/about"), [], [], some "about", some []⟩ [team]
    let file : RouteFile := ⟨none, [posts, about, .defaultRoutes false []]⟩
    let change := new.install file
    (∀ e ∈ file.routes, e.ActionsOrdered) ∧ change.failure = none ∧
      List.Forall₂ (Sketch.Makes initialDefaults)
        (file.routes.flatMap (Entry.block (Draft.root initialDefaults)))
        change.router.table.routes ∧
      change.router.table.Numbered ∧ change.router.size = 13 := by
  intro posts team about file
  have hactions : ∀ e ∈ file.routes, e.ActionsOrdered := by
    have hpublish : Entries.Sorted [("publish", Methods.one "post")] := by decide
    have hothers : Entries.Sorted [("archive", Methods.one "get"),
        ("search", .many ["get", "post"])] := by
      decide
    simp [file, posts, about, team, Entry.ActionsOrdered, Entry.AllOrdered, hpublish, hothers]
  let options : ResourceOptions :=
    { member := [⟨"publish", ["post"]⟩]
      collection := [⟨"archive", ["get"]⟩, ⟨"search", ["get", "post"]⟩] }
  have hname : PlainName "posts" := by decide
  have hplain : PlainResource "posts" options := by
    refine ⟨hname, rfl, fun a ha => ?_⟩
    simp only [options, List.cons_append, List.nil_append, List.mem_cons, List.not_mem_nil,
      or_false] at ha
    rcases ha with rfl | rfl | rfl <;> exact ⟨by decide, by decide⟩
  have hlongest : ∀ a ∈ options.member ++ options.collection, a.action.length ≤ 7 := by decide
  have hdeclared : (declare "posts" options).failure = none :=
    failure_eq_none hplain hlongest (by decide) (by decide)
      fun row _ => ⟨_, compile_verbatim hname.isVerbatim hname.1 _ _⟩
  have hposts : (Trace.ofDeclaration initialDefaults posts.statements).outcome = .ok () :=
    outcome_of_failure hdeclared
  have hrest : (Trace.ofDeclaration initialDefaults
      (Entry.statementsOf [about, .defaultRoutes false []])).outcome = .ok () := by
    decide +kernel
  have houtcome : (new.changeTrace (some file.installDefaults) file.statements).outcome =
      .ok () := by
    have happend := Trace.ofDeclaration_append initialDefaults posts.statements
      (Entry.statementsOf [about, .defaultRoutes false []])
    rw [Trace.bind_of_ok hposts] at happend
    exact (congrArg Trace.outcome happend).trans hrest
  have hfailure := (change_of_ok houtcome .replace).1
  obtain ⟨hroutes, hnumbered, hsize⟩ := routes_of_install new file hactions hfailure
  exact ⟨hactions, hfailure, hroutes, hnumbered, hsize⟩

end Router

end Signpost
