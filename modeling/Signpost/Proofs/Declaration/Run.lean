import Signpost.Proofs.Declaration.Trace
import Signpost.Proofs.Entries
import Signpost.Proofs.Output

/-! # Running declarations

Running a declaration on a draft places what its trace says behind what the draft holds, and ends
as the trace ends. What a declaration notes on the way is left open.
-/
namespace Signpost
open Entries

theorem modify_concat {α : Type} (f : α → α) (as : List α) (a : α) :
    (as ++ [a]).modify as.length f = as ++ [f a] := by
  induction as with
  | nil => rfl
  | cons b as ih => exact congrArg (b :: ·) ih

namespace Draft

def slotOf (d : Draft) : Placing → Slot
  | .listed _ => .listed d.routes.length
  | .detached _ => .detached d.detached.length

def add (d : Draft) : Placing → Draft
  | .listed route => d.addListed route
  | .detached route => d.addDetached route

/-- Puts a route into its place and gives its name, if it has one, to that place. -/
def place (d : Draft) (p : Placing) : Draft :=
  { d.add p with names := d.names.insertSome p.route.name (d.slotOf p) }

def placeAll (d : Draft) (ps : List Placing) : Draft :=
  ps.foldl place d

variable (d : Draft)

@[simp] theorem defaults_place (p : Placing) : (d.place p).defaults = d.defaults := by
  cases p <;> rfl

@[simp] theorem defaults_placeAll (ps : List Placing) :
    (d.placeAll ps).defaults = d.defaults := by
  induction ps generalizing d with
  | nil => rfl
  | cons p ps ih => exact (ih (d.place p)).trans (d.defaults_place p)

theorem placeAll_append (ps qs : List Placing) :
    d.placeAll (ps ++ qs) = (d.placeAll ps).placeAll qs :=
  List.foldl_append

theorem place_journal (p : Placing) (journal : List Note) :
    Draft.place { d with journal } p = { d.place p with journal } := by
  cases p <;> rfl

theorem placeAll_journal (ps : List Placing) (journal : List Note) :
    Draft.placeAll { d with journal } ps = { d.placeAll ps with journal } := by
  induction ps generalizing d with
  | nil => rfl
  | cons p ps ih =>
    have hfirst := d.place_journal p journal
    change Draft.placeAll (Draft.place { d with journal } p) ps = _
    rw [hfirst, ih]
    rfl

theorem add_of_name_none {p : Placing} (h : p.route.name = none) : d.add p = d.place p := by
  rw [place, h]
  cases p <;> rfl

end Draft

theorem Route.name_of_ofScope {s : Scope} {params : List (String × String)} {defaults : Params}
    {decision : Option Decision} {route : Route}
    (h : ofScope s params defaults decision = .ok route) : route.name = none := by
  obtain ⟨outputs, -, h⟩ := exists_of_bind_eq_ok h
  obtain ⟨conditions, -, h⟩ := exists_of_bind_eq_ok h
  cases h
  rfl

namespace Declare
variable {α β : Type} {d d' : Draft}

theorem run_bind {x : Declare α} {f : α → Declare β} {a : α} (h : x.run.run d = (.ok a, d')) :
    (x >>= f).run.run d = (f a).run.run d' := by
  change (x.run >>= fun r => (ExceptT.bindCont f r)).run d = _
  rw [StateT.run_bind, h]
  rfl

theorem run_bind_error {x : Declare α} {f : α → Declare β} {e : RouteError}
    (h : x.run.run d = (.error e, d')) : (x >>= f).run.run d = (.error e, d') := by
  change (x.run >>= fun r => (ExceptT.bindCont f r)).run d = _
  rw [StateT.run_bind, h]
  rfl

theorem run_tryCatch {x : Declare α} {handle : RouteError → Declare α} {a : α}
    (h : x.run.run d = (.ok a, d')) : (tryCatch x handle).run.run d = (.ok a, d') := by
  change (ExceptT.tryCatch x handle).run.run d = _
  rw [ExceptT.tryCatch, ExceptT.run_mk, StateT.run_bind]
  change (x.run.run d >>= _) = _
  rw [h]
  rfl

theorem run_tryCatch_error {x : Declare α} {handle : RouteError → Declare α} {e : RouteError}
    (h : x.run.run d = (.error e, d')) :
    (tryCatch x handle).run.run d = (handle e).run.run d' := by
  change (ExceptT.tryCatch x handle).run.run d = _
  rw [ExceptT.tryCatch, ExceptT.run_mk, StateT.run_bind]
  change (x.run.run d >>= _) = _
  rw [h]
  rfl

section Route
variable {s : Scope} {params : List (String × String)} {route : Route}

theorem run_build {decision : Option Decision} {outcome : Except RouteError Route}
    (h : Route.ofScope s params d.defaults decision = outcome) :
    (build s params decision).run.run d = (outcome, d) := by
  rw [← h]
  rfl

theorem run_listed {decision : Option Decision}
    (h : Route.ofScope s params d.defaults decision = .ok route) :
    (listed s params decision).run.run d = (.ok (.listed d.routes.length), d.addListed route) :=
  run_bind (run_build h)

theorem run_listed_error {decision : Option Decision} {e : RouteError}
    (h : Route.ofScope s params d.defaults decision = .error e) :
    (listed s params decision).run.run d = (.error e, d) :=
  run_bind_error (run_build h)

theorem run_detached (h : Route.ofScope s params d.defaults none = .ok route) :
    (detached s params).run.run d = (.ok (.detached d.detached.length), d.addDetached route) :=
  run_bind (run_build h)

theorem run_detached_error {e : RouteError}
    (h : Route.ofScope s params d.defaults none = .error e) :
    (detached s params).run.run d = (.error e, d) :=
  run_bind_error (run_build h)

theorem run_name {slot : Slot} {name : String} {segments : List Segment}
    (hroute : d.route? slot = some route) (hsegments : route.segments = .ok segments) :
    (Declare.name slot name).run.run d = (.ok (), d.addName name slot) := by
  have hread : (get : Declare Draft).run.run d = (.ok d, d) := rfl
  refine (run_bind hread).trans ?_
  rw [hroute, Option.map_some, hsegments]
  rfl

theorem run_name_error {slot : Slot} {name : String} {reason : Irreversible}
    (hroute : d.route? slot = some route) (hsegments : route.segments = .error reason) :
    (Declare.name slot name).run.run d = (.error (.notReversible name reason), d) := by
  have hread : (get : Declare Draft).run.run d = (.ok d, d) := rfl
  refine (run_bind hread).trans ?_
  rw [hroute, Option.map_some, hsegments]
  rfl

end Route

/-- Under the defaults, the step does what the trace says on every draft. -/
def Follows (defaults : Params) (x : Declare α) (t : Trace α) : Prop :=
  ∀ d : Draft, d.defaults = defaults →
    ∃ journal, x.run.run d = (t.outcome, { d.placeAll t.placings with journal })

namespace Follows
variable {defaults : Params}

theorem of_run_eq {x : Declare α} {outcome : Except RouteError α}
    (h : ∀ d, ∃ journal, x.run.run d = (outcome, { d with journal })) :
    Follows defaults x ⟨[], outcome⟩ :=
  fun d _ => h d

theorem pure (a : α) : Follows defaults (pure a) (Pure.pure a) :=
  of_run_eq fun d => ⟨d.journal, rfl⟩

theorem ofExcept (outcome : Except RouteError α) :
    Follows defaults (ExceptT.mk (Pure.pure outcome)) (.ofExcept outcome) :=
  of_run_eq fun d => ⟨d.journal, rfl⟩

theorem bind {x : Declare α} {t : Trace α} {f : α → Declare β} {g : α → Trace β}
    (hx : Follows defaults x t) (hf : ∀ a, Follows defaults (f a) (g a)) :
    Follows defaults (x >>= f) (t >>= g) := by
  intro d hd
  obtain ⟨journal, hrun⟩ := hx d hd
  cases h : t.outcome with
  | error e =>
    rw [h] at hrun
    refine ⟨journal, ?_⟩
    rw [run_bind_error hrun, Trace.bind_of_error h]
  | ok a =>
    rw [h] at hrun
    have hdefaults : { d.placeAll t.placings with journal }.defaults = defaults := by
      rw [← hd]
      exact d.defaults_placeAll t.placings
    obtain ⟨journal', hrest⟩ := hf a _ hdefaults
    refine ⟨journal', ?_⟩
    rw [run_bind hrun, hrest, Trace.bind_of_ok h, Draft.placeAll_append, Draft.placeAll_journal]

theorem attempting {x : Declare Unit} {t : Trace Unit} (hx : Follows defaults x t) :
    Follows defaults (Statement.attempting x) ⟨t.placings, .ok ()⟩ := by
  intro d hd
  obtain ⟨journal, hrun⟩ := hx d hd
  let after : Draft := { d.placeAll t.placings with journal }
  have hcaught : ∃ outcome, (tryCatch (x *> Pure.pure none) fun e => Pure.pure (some e) :
      Declare (Option RouteError)).run.run d = (.ok outcome, after) := by
    cases h : t.outcome with
    | error e =>
      rw [h] at hrun
      exact ⟨some e, run_tryCatch_error (run_bind_error hrun)⟩
    | ok =>
      rw [h] at hrun
      exact ⟨none, run_tryCatch (run_bind hrun)⟩
  obtain ⟨outcome, hcaught⟩ := hcaught
  exact ⟨journal ++ [.tried outcome], run_bind hcaught⟩

end Follows

section Placement
variable {defaults : Params} {s : Scope} {params : List (String × String)} {placement : Placement}

theorem run_place {route : Route} (h : Trace.build d.defaults s params placement = .ok route) :
    (Statement.place s params placement).run.run d =
      (.ok (d.slotOf (Trace.placing placement route)), d.add (Trace.placing placement route)) := by
  cases placement with
  | detached => exact run_detached h
  | listed => exact run_listed h
  | deferred decision => exact run_listed h
  | catchAll => exact run_listed h

theorem run_place_error {e : RouteError}
    (h : Trace.build d.defaults s params placement = .error e) :
    (Statement.place s params placement).run.run d = (.error e, d) := by
  cases placement with
  | detached => exact run_detached_error h
  | listed => exact run_listed_error h
  | deferred decision => exact run_listed_error h
  | catchAll => exact run_listed_error h

theorem name_of_build {route : Route} (h : Trace.build defaults s params placement = .ok route) :
    route.name = none := by
  cases placement with
  | detached => exact Route.name_of_ofScope h
  | listed => exact Route.name_of_ofScope h
  | deferred decision => exact Route.name_of_ofScope h
  | catchAll => exact Route.name_of_ofScope h

theorem Follows.of_place (placement : Placement) {f : Slot → Declare α} {t : Route → Trace α}
    (h : ∀ d : Draft, d.defaults = defaults → ∀ route, route.name = none →
      ∃ journal, (f (d.slotOf (Trace.placing placement route))).run.run
          (d.add (Trace.placing placement route)) =
        ((t route).outcome, { d.placeAll (t route).placings with journal })) :
    Follows defaults (Statement.place s params placement >>= f)
      (Trace.ofExcept (Trace.build defaults s params placement) >>= t) := by
  intro d hd
  subst hd
  cases hbuild : Trace.build d.defaults s params placement with
  | error e => exact ⟨d.journal, run_bind_error (run_place_error hbuild)⟩
  | ok route =>
    obtain ⟨journal, hrun⟩ := h d rfl route (name_of_build hbuild)
    exact ⟨journal, (run_bind (run_place hbuild)).trans hrun⟩

theorem run_name_placed (placement : Placement) (d : Draft) (journal : List Note) {route : Route}
    (hroute : route.name = none) (name : String) :
    (Declare.name (d.slotOf (Trace.placing placement route)) name).run.run
        { d.add (Trace.placing placement route) with journal } =
      ((Trace.place (Trace.placing placement) (some name) route).outcome,
        { d.placeAll (Trace.place (Trace.placing placement) (some name) route).placings with
          journal }) := by
  let kind := Trace.placing placement
  have hat : ∃ i, Draft.route? { d.add (kind route) with journal } (d.slotOf (kind route)) =
      some { route with index := i } := by
    cases placement with
    | detached => exact ⟨route.index, List.getElem?_concat_length⟩
    | listed => exact ⟨d.routes.length, List.getElem?_concat_length⟩
    | deferred decision => exact ⟨d.routes.length, List.getElem?_concat_length⟩
    | catchAll => exact ⟨d.routes.length, List.getElem?_concat_length⟩
  obtain ⟨i, hat⟩ := hat
  cases hsegments : route.segments with
  | error reason =>
    have hadd : d.add (kind route) = d.place (kind route) :=
      d.add_of_name_none ((congrArg Route.name (Trace.route_placing placement route)).trans hroute)
    rw [Trace.place_of_error hsegments, run_name_error hat hsegments, hadd]
    rfl
  | ok segments =>
    -- the route is at the end of its list, so naming it there is listing it with its name
    rw [Trace.place_of_ok hsegments, run_name hat hsegments]
    cases placement <;>
      simp [Draft.addName, Draft.modifyRoute, Draft.placeAll, Draft.place, Draft.add, Draft.slotOf,
        Draft.addListed, Draft.addDetached, kind, Trace.placing, modify_concat, insertSome,
        Placing.route]

theorem follows_declareRoute (name : Option String) :
    Follows defaults (Statement.declareRoute s placement params name)
      (Trace.ofRoute defaults s placement params name) := by
  apply Follows.of_place placement
  intro d hd route hroute
  let kind := Trace.placing placement
  let placed : Draft := (d.add (kind route)).note (.placed (d.slotOf (kind route)).position?)
  have hnote : (Declare.note (.placed (d.slotOf (kind route)).position?)).run.run
      (d.add (kind route)) = (.ok (), placed) := rfl
  refine ⟨placed.journal, (run_bind hnote).trans ?_⟩
  cases name with
  | some name => exact run_name_placed placement d placed.journal hroute name
  | none =>
    have hadd : d.add (kind route) = d.place (kind route) :=
      d.add_of_name_none ((congrArg Route.name (Trace.route_placing placement route)).trans hroute)
    change (Except.ok (), placed) = (.ok (), _)
    rw [show placed = { d.add (kind route) with journal := placed.journal } from rfl, hadd]
    rfl

theorem follows_address (path name : String) :
    Follows defaults (Declare.address s path name)
      (Trace.ofRoute defaults (s.within [(.path, .literal path)] []) .detached [] (some name)) := by
  apply Follows.of_place .detached
  intro d hd route hroute
  exact ⟨d.journal, run_name_placed .detached d d.journal hroute name⟩

theorem follows_addressAll (addresses : List (String × String)) :
    Follows defaults (Resource.addressAll s addresses) (Trace.ofAddresses defaults s addresses) := by
  induction addresses with
  | nil => exact Follows.pure ()
  | cons address addresses ih => exact (follows_address address.1 address.2).bind fun _ => ih

theorem follows_listAll (params : Params) (scopes : List Scope) :
    Follows defaults (Resource.listAll params scopes) (Trace.ofActions defaults params scopes) := by
  induction scopes with
  | nil => exact Follows.pure ()
  | cons s scopes ih =>
    rw [Trace.ofActions, Trace.ofRoute, Trace.bind_assoc]
    apply Follows.of_place .listed
    intro d hd route hroute
    have hadd : d.add (.listed route) = d.place (.listed route) := d.add_of_name_none hroute
    have hdefaults : (d.place (.listed route)).defaults = defaults := by
      rw [d.defaults_place, hd]
    obtain ⟨journal, hrun⟩ := ih _ hdefaults
    refine ⟨journal, ?_⟩
    change (Resource.listAll params scopes).run.run (d.add (.listed route)) = _
    rw [hadd, hrun]
    rfl

end Placement

section Statements
variable {defaults : Params}

theorem follows_plural (s : Scope) (name : String) (options : ResourceOptions) :
    Follows defaults (Resource.plural s name options) (Trace.ofPlural defaults s name options) := by
  apply (Follows.ofExcept _).bind
  intro r
  apply (follows_addressAll _).bind
  intro _
  apply (follows_addressAll _).bind
  intro _
  apply (follows_listAll _ _).bind
  intro _
  apply (follows_addressAll _).bind
  intro _
  exact Follows.pure _

theorem follows_singular (s : Scope) (name : String) (options : ResourceOptions) :
    Follows defaults (Resource.singular s name options)
      (Trace.ofSingular defaults s name options) := by
  rw [Resource.singular, Trace.ofSingular]
  split
  · exact Follows.ofExcept (.error _)
  · apply (Follows.ofExcept _).bind
    intro r
    apply (follows_listAll _ _).bind
    intro _
    apply (follows_addressAll _).bind
    intro _
    exact Follows.pure _

mutual

theorem follows_run (s : Scope) (statement : Statement) :
    Follows defaults (Statement.run s statement) (Trace.ofStatement defaults s statement) := by
  cases statement with
  | within conditions params body => exact follows_runAll (s.within conditions params) body
  | block body => exact follows_runAll s body
  | route placement params name => exact follows_declareRoute name
  | resources name options body =>
    exact (follows_plural s name options).bind fun nested => follows_runAll nested body
  | resource name options body =>
    exact (follows_singular s name options).bind fun nested => follows_runAll nested body
  | attempt body => exact (follows_runAll s body).attempting
  | reject error => exact Follows.ofExcept (.error error)

theorem follows_runAll (s : Scope) (body : List Statement) :
    Follows defaults (Statement.runAll s body) (Trace.ofStatements defaults s body) := by
  cases body with
  | nil => exact Follows.pure ()
  | cons statement rest => exact (follows_run s statement).bind fun _ => follows_runAll s rest

end

end Statements
end Declare

/-- A declaration leaves a draft of what its trace places. -/
theorem Statement.declare_eq (defaults : Params) (body : List Statement) :
    ∃ journal, declare defaults body =
      ((Trace.ofDeclaration defaults body).outcome,
        { (Draft.empty defaults).placeAll (Trace.ofDeclaration defaults body).placings with
          journal }) :=
  Declare.follows_runAll (Draft.root defaults) body (Draft.empty defaults) rfl

end Signpost
