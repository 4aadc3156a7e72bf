import Signpost.Proofs.Router.Change
import Signpost.Proofs.Table.History
import Signpost.Proofs.Table.Match
import Signpost.RouteFile.Load

/-! # Histories of routers

A router comes from calls that replace its table, add to it at either end, or fail. Its history is
what the successful calls placed since the last one that replaced the table. Positions, priorities
and the routes that names lead to all follow from it.
-/
namespace Signpost
open Entries

inductive Call where
  | setDefaults (defaults : Params)
  | prepare (body : List Statement)
  | prepareWithDefaults (defaults : Params) (body : List Statement)
  | prepend (body : List Statement)
  | append (body : List Statement)
  | install (file : RouteFile)
  | load (bytes : Option ByteArray)

namespace Router

def perform (r : Router) : Call → Router
  | .setDefaults defaults => r.setDefaults defaults
  | .prepare body => (r.prepare body).router
  | .prepareWithDefaults defaults body => (r.prepareWithDefaults defaults body).router
  | .prepend body => (r.prepend body).router
  | .append body => (r.append body).router
  | .install file => (r.install file).router
  | .load bytes =>
    match r.load bytes with
    | .ok loaded => loaded
    | .error _ => r

def performAll (r : Router) (calls : List Call) : Router :=
  calls.foldl perform r

def after (calls : List Call) : Router :=
  new.performAll calls

theorem after_prepare (body : List Statement) :
    after [.prepare body] = (new.prepare body).router := rfl

theorem after_prepareWithDefaults (defaults : Params) (body : List Statement) :
    after [.prepareWithDefaults defaults body] = (new.prepareWithDefaults defaults body).router :=
  rfl

end Router

namespace Call

/-- How a call splices routes, with its own defaults if it has some, and what it declares. -/
def declaration? : Call → Option (Splice × Option Params × List Statement)
  | setDefaults _ => none
  | prepare body => some (.replace, none, body)
  | prepareWithDefaults defaults body => some (.replace, some defaults, body)
  | prepend body => some (.prepend, none, body)
  | append body => some (.append, none, body)
  | install file => some (.replace, some file.installDefaults, file.statements)
  | load bytes =>
    match (bytes.bind String.fromUTF8?).map RouteFile.ofText with
    | some (.ok file) => some (.replace, some file.installDefaults, file.statements)
    | _ => none

/-- The history after a change. One that replaces the table begins it anew. -/
def recordChange (r : Router) (history : List Batch) (how : Splice) (defaults : Option Params)
    (body : List Statement) : List Batch :=
  match (r.change how defaults body).failure with
  | some _ => history
  | none =>
    let placings := (r.changeTrace defaults body).placings
    match how with
    | .replace => [⟨false, placings⟩]
    | .prepend => history ++ [⟨true, placings⟩]
    | .append => history ++ [⟨false, placings⟩]

def record (r : Router) (history : List Batch) (call : Call) : List Batch :=
  match call.declaration? with
  | some (how, defaults, body) => recordChange r history how defaults body
  | none => history

def recordAll (r : Router) (history : List Batch) : List Call → List Batch
  | [] => history
  | call :: calls => recordAll (r.perform call) (call.record r history) calls

/-- What the successful calls placed since the last one that replaced the table, with that one. -/
def history (calls : List Call) : List Batch :=
  recordAll Router.new [] calls

end Call

/-- A route that is given a name has segments. -/
def Placing.Addressable (p : Placing) : Prop :=
  ∀ name, p.route.name = some name → ∃ segments, p.route.segments = .ok segments

theorem Trace.addressable_ofRoute (defaults : Params) :
    HoldsOfRoutes defaults (fun _ => True) Placing.Addressable := by
  refine .of_build (fun _ _ _ => trivial) fun _ placement params route hbuild => ?_
  constructor
  · intro name hname
    rw [route_placing, Declare.name_of_build hbuild] at hname
    cases hname
  · intro name segments hsegments _ _
    rw [route_placing]
    exact ⟨segments, hsegments⟩

namespace Router
open Table

theorem table_change {r : Router} {history : List Batch} (h : r.table = ofHistory history)
    (how : Splice) (defaults : Option Params) (body : List Statement) :
    (r.change how defaults body).router.table =
      ofHistory (Call.recordChange r history how defaults body) := by
  cases ht : (r.changeTrace defaults body).outcome with
  | error e =>
    obtain ⟨hfailure, hrouter⟩ := change_of_error ht how
    rw [hrouter, Call.recordChange, hfailure, h]
  | ok =>
    obtain ⟨hfailure, hrouter⟩ := change_of_ok ht how
    rw [hrouter, Call.recordChange, hfailure, h]
    cases how with
    | replace => rfl
    | prepend =>
      exact (ofHistory_concat history ⟨true, (r.changeTrace defaults body).placings⟩).symm
    | append =>
      refine (splice_append (sorted_ofHistory history) _).trans ?_
      exact (ofHistory_concat history ⟨false, (r.changeTrace defaults body).placings⟩).symm

theorem table_perform (r : Router) (call : Call) :
    (r.perform call).table =
      match call.declaration? with
      | some (how, defaults, body) => (r.change how defaults body).router.table
      | none => r.table := by
  cases call with
  | setDefaults defaults => rfl
  | prepare body => rfl
  | prepareWithDefaults defaults body => rfl
  | prepend body => rfl
  | append body => rfl
  | install file => rfl
  | load bytes =>
    simp only [perform, Router.load, Call.declaration?]
    cases bytes.bind String.fromUTF8? with
    | none => rfl
    | some text =>
      simp only [Option.map_some]
      cases RouteFile.ofText text with
      | error problem => rfl
      | ok file =>
        -- a file that is rejected leaves the router, as a change that fails does
        change (match (match (r.install file).failure with
          | some e => Except.error (LoadError.rejected e)
          | none => .ok (r.install file).router) with
          | .ok loaded => loaded
          | .error _ => r).table = (r.install file).router.table
        cases hfailure : (r.install file).failure with
        | some e => exact congrArg Router.table (router_of_failure hfailure).symm
        | none => rfl

theorem table_perform_record {r : Router} {history : List Batch}
    (h : r.table = ofHistory history) (call : Call) :
    (r.perform call).table = ofHistory (call.record r history) := by
  rw [table_perform, Call.record]
  cases call.declaration? with
  | none => exact h
  | some declared => exact table_change h declared.1 declared.2.1 declared.2.2

theorem table_performAll {r : Router} {history : List Batch} (h : r.table = ofHistory history)
    (calls : List Call) :
    (r.performAll calls).table = ofHistory (Call.recordAll r history calls) := by
  induction calls generalizing r history with
  | nil => exact h
  | cons call calls ih => exact ih (table_perform_record h call)

theorem table_after (calls : List Call) :
    (after calls).table = ofHistory (Call.history calls) :=
  table_performAll (show new.table = ofHistory [] from rfl) calls

theorem addressable_recordChange {history : List Batch}
    (h : ∀ b ∈ history, ∀ p ∈ b.placings, p.Addressable) (r : Router) (how : Splice)
    (defaults : Option Params) (body : List Statement) :
    ∀ b ∈ Call.recordChange r history how defaults body, ∀ p ∈ b.placings, p.Addressable := by
  have hfresh : ∀ ahead, ∀ b ∈ [Batch.mk ahead (r.changeTrace defaults body).placings],
      ∀ p ∈ b.placings, p.Addressable := by
    intro ahead b hb
    rw [List.mem_singleton.mp hb]
    exact (Trace.addressable_ofRoute _).ofDeclaration trivial body
  unfold Call.recordChange
  split
  · exact h
  · cases how with
    | replace => exact hfresh false
    | prepend => exact List.forall_mem_append.mpr ⟨h, hfresh true⟩
    | append => exact List.forall_mem_append.mpr ⟨h, hfresh false⟩

theorem addressable_recordAll {history : List Batch}
    (h : ∀ b ∈ history, ∀ p ∈ b.placings, p.Addressable) (r : Router) (calls : List Call) :
    ∀ b ∈ Call.recordAll r history calls, ∀ p ∈ b.placings, p.Addressable := by
  induction calls generalizing r history with
  | nil => exact h
  | cons call calls ih =>
    apply ih
    rw [Call.record]
    cases call.declaration? with
    | none => exact h
    | some declared => exact addressable_recordChange h r _ _ _

theorem numbered_after (calls : List Call) : (after calls).table.Numbered := by
  rw [table_after]
  exact numbered_ofHistory _

theorem mem_routeNames_iff {r : Router} {name : String} :
    name ∈ r.routeNames ↔ find? name r.table.names ≠ none := by
  rw [routeNames, Table.routeNames, List.mem_map]
  constructor
  · rintro ⟨e, he, rfl⟩ hnone
    exact ne_of_find?_eq_none hnone e he rfl
  · intro h
    obtain ⟨named, hfind⟩ := Option.ne_none_iff_exists'.mp h
    exact ⟨_, mem_of_find? hfind, rfl⟩

theorem exists_named {calls : List Call} {name : String} (h : name ∈ (after calls).routeNames) :
    ∃ p position segments, Batch.GivesLast (Call.history calls) name p position ∧
      (after calls).namedRoute? name = some (p.standing position) ∧
      (p.isListed = true → (after calls).routeAt? position = some (p.standing position)) ∧
      (p.standing position).name = some name ∧
      (p.standing position).segments = .ok segments := by
  rw [mem_routeNames_iff, table_after] at h
  rcases leads_ofHistory (Call.history calls) name with hnone | ⟨p, position, hgives, hleads⟩
  · exact absurd hnone h
  · obtain ⟨hname, b, hb, hp⟩ := hgives.mem
    obtain ⟨segments, hsegments⟩ := addressable_recordAll (fun _ h => absurd h List.not_mem_nil)
      Router.new calls b hb p hp name hname
    refine ⟨p, position, segments, hgives, ?_, ?_, ?_, ?_⟩
    · rw [namedRoute?, table_after]
      exact hleads.named?
    · rw [routeAt?, table_after]
      exact hleads.2
    · cases p <;> exact hname
    · cases p <;> exact hsegments

theorem matchRequest_eq_some_iff {r : Router} (hr : r.table.Numbered) {request : Request} {i : Nat}
    {params : Params} :
    r.matchRequest request = ⟨some i, params⟩ ↔
      ∃ route, r.routeAt? i = some route ∧ route.Accepts request params ∧
        ∀ j < i, ∀ other, r.routeAt? j = some other → ∀ found, ¬ other.Accepts request found := by
  simp only [← Route.accept?_eq_none_iff, routeAt?]
  simp only [← Route.accept?_eq_some_iff]
  constructor
  · intro h
    rw [matchRequest] at h
    split at h
    · rename_i route found hfound
      cases h
      obtain ⟨front, back, hroutes, haccept, hfront⟩ := findRoute_eq_some_iff.mp hfound
      have hat : r.table.routes[front.length]? = some route := by
        rw [hroutes, List.getElem?_append_right (Nat.le_refl _), Nat.sub_self]
        rfl
      rw [hr.index_eq hat]
      refine ⟨route, hat, haccept, fun j hj other hother => hfront other ?_⟩
      rw [hroutes, List.getElem?_append_left hj] at hother
      exact List.mem_of_getElem? hother
    · cases h
  · rintro ⟨route, hat, haccept, hbefore⟩
    have hsplit : r.table.routes = r.table.routes.take i ++ route :: r.table.routes.drop (i + 1) := by
      obtain ⟨hlt, hget⟩ := List.getElem?_eq_some_iff.mp hat
      rw [← hget, ← List.drop_eq_getElem_cons hlt, List.take_append_drop]
    have hfront : ∀ other ∈ r.table.routes.take i, other.accept? request = none := by
      intro other hother
      obtain ⟨j, hj⟩ := List.mem_iff_getElem?.mp hother
      rw [List.getElem?_take] at hj
      split at hj
      · rename_i hlt
        exact hbefore j hlt other hj
      · cases hj
    have hfound := findRoute_eq_some_iff.mpr ⟨_, _, hsplit, haccept, hfront⟩
    rw [matchRequest, hfound]
    simp only [hr.index_eq hat]

theorem accepts_of_matchRequest {calls : List Call} {request : Request} {params : Params} {i : Nat}
    {route : Route} (hroute : (after calls).routeAt? i = some route)
    (h : (after calls).matchRequest request = ⟨some i, params⟩) : route.Accepts request params := by
  obtain ⟨route', hroute', haccepts, -⟩ := (matchRequest_eq_some_iff (numbered_after calls)).mp h
  cases hroute.symm.trans hroute'
  exact haccepts

theorem matchRequest_eq_none_iff {r : Router} {request : Request} :
    r.matchRequest request = ⟨none, []⟩ ↔
      ∀ j other, r.routeAt? j = some other → ∀ found, ¬ other.Accepts request found := by
  simp only [← Route.accept?_eq_none_iff, routeAt?]
  have hnone : r.matchRequest request = ⟨none, []⟩ ↔
      findRoute request r.table.routes = none := by
    rw [matchRequest]
    split
    · rename_i hfound
      simp [hfound]
    · rename_i hfound
      simp [hfound]
  rw [hnone, findRoute_eq_none_iff]
  constructor
  · exact fun h j other hother => h other (List.mem_of_getElem? hother)
  · intro h other hother
    obtain ⟨j, hj⟩ := List.mem_iff_getElem?.mp hother
    exact h j other hj

/-- Positions, names and priorities after any calls. A route knows its position. A name leads to
the route it was given to last since the table was replaced, which carries the name and has
segments. The first route that accepts a request answers it. -/
theorem order_names_and_priority (calls : List Call) :
    (∀ i < (after calls).size, ∃ route, (after calls).routeAt? i = some route ∧ route.index = i) ∧
    (∀ name ∈ (after calls).routeNames, ∃ p position segments,
      Batch.GivesLast (Call.history calls) name p position ∧
      (after calls).namedRoute? name = some (p.standing position) ∧
      (p.isListed = true → (after calls).routeAt? position = some (p.standing position)) ∧
      (p.standing position).name = some name ∧
      (p.standing position).segments = .ok segments) ∧
    ∀ request,
      (∀ i params, (after calls).matchRequest request = ⟨some i, params⟩ ↔
        ∃ route, (after calls).routeAt? i = some route ∧ route.Accepts request params ∧
          ∀ j < i, ∀ other, (after calls).routeAt? j = some other →
            ∀ found, ¬ other.Accepts request found) ∧
      ((after calls).matchRequest request = ⟨none, []⟩ ↔
        ∀ j other, (after calls).routeAt? j = some other →
          ∀ found, ¬ other.Accepts request found) := by
  have hnumbered := numbered_after calls
  refine ⟨fun i hi => ?_, fun name hname => exists_named hname, fun request =>
    ⟨fun i params => matchRequest_eq_some_iff hnumbered, matchRequest_eq_none_iff⟩⟩
  have hat := List.getElem?_eq_getElem hi
  exact ⟨_, hat, hnumbered.index_eq hat⟩

/-- A name that an appended route takes over and that routes ahead of it move, with a call that
fails in between. -/
theorem order_names_and_priority_of_moved :
    let calls : List Call :=
      [.prepare [.within [(.path, .literal "/news")] [] [.route .listed [] (some "feed")]],
        .append [.within [(.path, .literal "/blog")] [] [.route .listed [] (some "feed")]],
        .append [.route .listed [] (some "feed"), .reject (.namedRouteNotFound "feed")],
        .prepend [.within [(.path, .literal "/about")] [] [.route .listed [] none]]]
    (after calls).size = 3 ∧ "feed" ∈ (after calls).routeNames ∧
      (∃ route, (after calls).routeAt? 2 = some route ∧ route.index = 2) ∧
      ((after calls).namedRoute? "feed").map Route.index = some 2 ∧
      ∃ p position segments, Batch.GivesLast (Call.history calls) "feed" p position ∧
        (after calls).namedRoute? "feed" = some (p.standing position) ∧
        (p.standing position).name = some "feed" ∧
        (p.standing position).segments = .ok segments := by
  intro calls
  obtain ⟨hsize, hname, hindex⟩ : (after calls).size = 3 ∧ "feed" ∈ (after calls).routeNames ∧
      ((after calls).namedRoute? "feed").map Route.index = some 2 := by decide +kernel
  obtain ⟨horder, hnames, -⟩ := order_names_and_priority calls
  obtain ⟨p, position, segments, hgives, hnamed, -, hcarries, hsegments⟩ := hnames "feed" hname
  exact ⟨hsize, hname, horder 2 (by rw [hsize]; decide), hindex, p, position, segments, hgives,
    hnamed, hcarries, hsegments⟩

/-- An address is refused for a name that the router does not have, and for nothing else. -/
theorem generate_eq_error_iff (calls : List Call) (name : String) (source : LinkSource)
    (fallback : Query.QueryMap) (e : RouteError) :
    (after calls).generate name source fallback = .error e ↔
      name ∉ (after calls).routeNames ∧ e = .namedRouteNotFound name := by
  rw [generate]
  by_cases hname : name ∈ (after calls).routeNames
  · obtain ⟨p, position, segments, -, hnamed, -, -, hsegments⟩ := exists_named hname
    rw [hnamed]
    simp only [Route.link, hsegments]
    simp [hname]
  · have hnone : (after calls).namedRoute? name = none := by
      rw [mem_routeNames_iff, not_not] at hname
      rw [namedRoute?, Table.named?, hname]
    rw [hnone]
    simp [hname, eq_comm]

end Router

end Signpost
