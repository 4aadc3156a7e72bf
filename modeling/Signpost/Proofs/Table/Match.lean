import Mathlib.Data.List.Forall2
import Signpost.Proofs.Entries
import Signpost.Table

/-! # The first route that accepts

Routes are tried in order. The one that answers accepts the request, and none before it does.
-/
namespace Signpost
open Entries

namespace Route

/-- Every condition is met by the request, and what the conditions captured gives the parameters,
unless a deferred decision gives others. -/
def Accepts (route : Route) (request : Request) (params : Params) : Prop :=
  ∃ space : CaptureSpace,
    List.Forall₂ (fun condition found => found.1 = condition.1 ∧
      condition.2.captures? (request.value condition.1) = some found.2) route.conditions space ∧
    match route.decision with
    | some decide => decide request (paramsOf route.outputs space) = some params
    | none => paramsOf route.outputs space = params

theorem capture_eq_some_iff {conditions : List (Field × Regex)} {request : Request}
    {space : CaptureSpace} :
    capture conditions request = some space ↔
      List.Forall₂ (fun condition found => found.1 = condition.1 ∧
        condition.2.captures? (request.value condition.1) = some found.2) conditions space := by
  induction conditions generalizing space with
  | nil =>
    rw [List.forall₂_nil_left_iff]
    exact ⟨fun h => (Option.some.inj h).symm, fun h => congrArg some h.symm⟩
  | cons condition conditions ih =>
    rw [capture, List.mapM_cons, List.forall₂_cons_left_iff]
    constructor
    · intro h
      obtain ⟨found, hfound, h⟩ := Option.bind_eq_some_iff.mp h
      obtain ⟨rest, hrest, h⟩ := Option.bind_eq_some_iff.mp h
      obtain ⟨c, hc, rfl⟩ := Option.map_eq_some_iff.mp hfound
      exact ⟨_, rest, ⟨rfl, hc⟩, ih.mp hrest, (Option.some.inj h).symm⟩
    · rintro ⟨⟨field, c⟩, rest, ⟨hfield, hc⟩, hrest, rfl⟩
      cases hfield
      refine Option.bind_eq_some_iff.mpr ⟨_, Option.map_eq_some_iff.mpr ⟨c, hc, rfl⟩, ?_⟩
      exact Option.bind_eq_some_iff.mpr ⟨rest, ih.mpr hrest, rfl⟩

theorem accept?_eq_some_iff {route : Route} {request : Request} {params : Params} :
    route.accept? request = some params ↔ route.Accepts request params := by
  simp only [Accepts, ← capture_eq_some_iff, accept?]
  cases hc : capture route.conditions request with
  | none => simp
  | some space => cases route.decision <;> simp

theorem accept?_eq_none_iff {route : Route} {request : Request} :
    route.accept? request = none ↔ ∀ params, ¬ route.Accepts request params := by
  simp only [Option.eq_none_iff_forall_ne_some, ne_eq, accept?_eq_some_iff]

end Route

namespace Table

theorem findRoute_eq_none_iff {request : Request} {routes : List Route} :
    findRoute request routes = none ↔ ∀ route ∈ routes, route.accept? request = none := by
  induction routes with
  | nil => simp [findRoute]
  | cons route routes ih =>
    rw [findRoute, List.forall_mem_cons]
    cases h : route.accept? request with
    | none => simp [ih]
    | some params => simp

theorem findRoute_eq_some_iff {request : Request} {routes : List Route} {route : Route}
    {params : Params} :
    findRoute request routes = some (route, params) ↔
      ∃ front back, routes = front ++ route :: back ∧ route.accept? request = some params ∧
        ∀ other ∈ front, other.accept? request = none := by
  induction routes with
  | nil => simp [findRoute]
  | cons first routes ih =>
    rw [findRoute]
    cases h : first.accept? request with
    | some found =>
      constructor
      · rintro ⟨⟩
        exact ⟨[], routes, rfl, h, by simp⟩
      · rintro ⟨front, back, hroutes, haccept, hfront⟩
        cases front with
        | nil =>
          obtain ⟨rfl, -⟩ := List.cons.inj hroutes
          rw [h] at haccept
          rw [Option.some.inj haccept]
        | cons other front =>
          obtain ⟨rfl, -⟩ := List.cons.inj hroutes
          have hnone := hfront first List.mem_cons_self
          rw [h] at hnone
          cases hnone
    | none =>
      refine ih.trans ⟨?_, ?_⟩
      · rintro ⟨front, back, rfl, haccept, hfront⟩
        exact ⟨first :: front, back, rfl, haccept, List.forall_mem_cons.mpr ⟨h, hfront⟩⟩
      · rintro ⟨front, back, hroutes, haccept, hfront⟩
        cases front with
        | nil =>
          obtain ⟨rfl, -⟩ := List.cons.inj hroutes
          rw [h] at haccept
          cases haccept
        | cons other front =>
          obtain ⟨rfl, rfl⟩ := List.cons.inj hroutes
          exact ⟨front, back, rfl, haccept, (List.forall_mem_cons.mp hfront).2⟩

theorem findRoute_append (request : Request) (front back : List Route) :
    findRoute request (front ++ back) = (findRoute request front).or (findRoute request back) := by
  induction front with
  | nil => rfl
  | cons route front ih =>
    rw [List.cons_append, findRoute, findRoute]
    cases route.accept? request with
    | none => exact ih
    | some params => rfl

theorem findRoute_renumber (request : Request) (start by_ : Nat) (routes : List Route) :
    findRoute request (renumber (start + by_) routes) =
      (findRoute request (renumber start routes)).map fun found =>
        ({ found.1 with index := found.1.index + by_ }, found.2) := by
  induction routes generalizing start with
  | nil => rfl
  | cons route routes ih =>
    have haccept : ∀ index, ({ route with index } : Route).accept? request = route.accept? request :=
      fun _ => rfl
    rw [renumber, renumber, findRoute, findRoute, haccept (start + by_), haccept start,
      Nat.add_right_comm]
    cases route.accept? request with
    | none => exact ih (start + 1)
    | some params => rfl

end Table

end Signpost
