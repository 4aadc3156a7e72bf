import Signpost.Proofs.Regex.Capture
import Signpost.Proofs.Route.Parameter

/-! # What a route accepts

Without a decision of its own, a route accepts the requests in whose fields its conditions all find
a match, and a condition finds one where some run of its tree starts.
-/
namespace Signpost

theorem Regex.isSome_captures?_iff {source : String} {ignoreCase : Bool} {r : Regex}
    (h : compile source ignoreCase = .ok r) {value : String} :
    (r.captures? value).isSome ↔ ∃ start t, start ≤ value.toList.length ∧
      r.node.Run value.toList.toArray ⟨start, []⟩ t := by
  rw [captures?, Option.isSome_map, (of_compile h).2.2, search_isSome_iff]
  rfl

namespace Route

/-- What a scope's route answers to a request, when the scope makes a route. -/
def answer? (s : Scope) (params : List (String × String)) (defaults : Params)
    (request : Request) : Option Params :=
  (ofScope s params defaults none).toOption.bind fun route => route.accept? request

theorem answer?_eq (s : Scope) (params : List (String × String)) (defaults : Params)
    (request : Request) :
    answer? s params defaults request =
      (outputParams s params defaults).toOption.bind fun outputs =>
        (compileConditions s).toOption.bind fun conditions =>
          (capture conditions request).map (paramsOf outputs) := by
  rw [answer?, ofScope]
  cases outputParams s params defaults with
  | error e => rfl
  | ok outputs =>
    cases compileConditions s with
    | error e => rfl
    | ok conditions =>
      change Route.accept? _ request = (capture conditions request).map _
      rw [accept?]
      cases capture conditions request <;> rfl

theorem exists_of_answer? {s : Scope} {params : List (String × String)} {defaults : Params}
    {request : Request} {found : Params} (h : answer? s params defaults request = some found) :
    ∃ route, ofScope s params defaults none = .ok route ∧ route.accept? request = some found := by
  obtain ⟨route, hroute, haccept⟩ := Option.bind_eq_some_iff.mp h
  exact ⟨route, eq_ok_of_toOption hroute, haccept⟩

theorem isSome_capture_iff {conditions : List (Field × Regex)} {request : Request} :
    (capture conditions request).isSome ↔
      ∀ e ∈ conditions, (e.2.captures? (request.value e.1)).isSome := by
  induction conditions with
  | nil => simp [capture]
  | cons e conditions ih =>
    obtain ⟨field, r⟩ := e
    rw [List.forall_mem_cons, ← ih, capture, capture, List.mapM_cons]
    dsimp only
    cases r.captures? (request.value field) with
    | none => simp
    | some c => simp [Option.isSome_bind]

theorem isSome_accept?_iff {route : Route} (hdecision : route.decision = none)
    {request : Request} :
    (route.accept? request).isSome ↔
      ∀ e ∈ route.conditions, (e.2.captures? (request.value e.1)).isSome := by
  rw [← isSome_capture_iff, accept?, hdecision]
  cases capture route.conditions request <;> rfl

theorem exists_ofScope_of_single {s : Scope} {field : Field} {source : List Char} {r : Regex}
    (hsources : s.sources = [(field, source)])
    (hr : Regex.compile (String.ofList source) (field == .method) = .ok r)
    (params : List (String × String)) (defaults : Params) (decision : Option Decision)
    (houtputs : (outputParams s params defaults).isOk = true) :
    ∃ route, ofScope s params defaults decision = .ok route := by
  obtain ⟨outputs, houtputs⟩ := exists_eq_ok_of_isOk houtputs
  have hconditions : compileConditions s = .ok [(field, r)] := by
    simp only [compileConditions, hsources, List.mapM_cons, List.mapM_nil, compileCondition, hr]
    rfl
  rw [ofScope, houtputs, hconditions]
  exact ⟨_, rfl⟩

/-- A route of one condition accepts the requests in whose field the condition finds a match. -/
theorem exists_of_single {s : Scope} {params : List (String × String)} {defaults : Params}
    {route : Route} {field : Field} {source : List Char} (hsources : s.sources = [(field, source)])
    (hroute : ofScope s params defaults none = .ok route) :
    ∃ r, Regex.compile (String.ofList source) (field == .method) = .ok r ∧
      ∀ request, (route.accept? request).isSome ↔
        (r.captures? (request.value field)).isSome := by
  obtain ⟨outputs, conditions, -, hconditions, -, hlist, hdecision⟩ := exists_of_ofScope hroute
  rw [compileConditions, hsources, mapM_eq_ok_iff] at hconditions
  obtain ⟨⟨field', r⟩, rest, hcondition, hrest, rfl⟩ := List.forall₂_cons_left_iff.mp hconditions
  cases hrest
  obtain ⟨hfield, hr⟩ := compileCondition_eq_ok hcondition
  refine ⟨r, hr, fun request => ?_⟩
  rw [isSome_accept?_iff hdecision, hlist, List.forall_mem_singleton, ← hfield]

end Route

end Signpost
