import Signpost.Proofs.Output
import Signpost.Proofs.Scope.Params
import Signpost.Proofs.Scope.Sources
import Signpost.Proofs.Table.Match

/-! # The parameter of a placeholder

Unless a declaration gives it another value, the parameter of a placeholder is what the group of
the placeholder's number captured in the one condition that the scope has for its field.
-/
namespace Signpost
open Entries Placeholder

/-- What stands for a field goes with what stands for it in the list that a list was made from. -/
theorem exists_lookup_of_forall₂ {α β : Type} {R : Field → α → β → Prop} {as : List (Field × α)}
    {bs : List (Field × β)} (h : List.Forall₂ (fun a b => b.1 = a.1 ∧ R a.1 a.2 b.2) as bs)
    {field : Field} {x : α} (hx : as.lookup field = some x) :
    ∃ y, bs.lookup field = some y ∧ R field x y := by
  induction h with
  | nil => cases hx
  | @cons a b as bs hab hrest ih =>
    obtain ⟨hfield, hR⟩ := hab
    rw [List.lookup_cons, hfield]
    rw [List.lookup_cons] at hx
    cases hf : field == a.1 with
    | false =>
      rw [hf] at hx
      exact ih hx
    | true =>
      rw [hf] at hx
      cases hx
      rw [eq_of_beq hf]
      exact ⟨b.2, rfl, hR⟩

namespace Route

theorem compileCondition_eq_ok {field : Field} {source : List Char} {condition : Field × Regex}
    (h : compileCondition field source = .ok condition) : condition.1 = field ∧
      Regex.compile (String.ofList source) (field == .method) = .ok condition.2 := by
  unfold compileCondition at h
  split at h
  · rename_i hr
    cases h
    exact ⟨rfl, hr⟩
  · cases h

/-- The condition on a field is what the scope has for it, compiled. -/
theorem exists_condition {s : Scope} {conditions : List (Field × Regex)}
    (h : compileConditions s = .ok conditions) {field : Field} {source : List Char}
    (hsource : find? field s.sources = some source) :
    ∃ r, conditions.lookup field = some r ∧
      Regex.compile (String.ofList source) (field == .method) = .ok r := by
  rw [← lookup_eq_find?] at hsource
  refine exists_lookup_of_forall₂
    (R := fun field source r =>
      Regex.compile (String.ofList source) (field == .method) = .ok r) ?_ hsource
  exact (mapM_eq_ok_iff.mp h).imp fun e c hc => compileCondition_eq_ok hc

theorem exists_captures {conditions : List (Field × Regex)} {request : Request}
    {space : CaptureSpace} (h : capture conditions request = some space) {field : Field}
    {r : Regex} (hr : conditions.lookup field = some r) :
    ∃ c, space.lookup field = some c ∧ r.captures? (request.value field) = some c :=
  exists_lookup_of_forall₂ (R := fun field r c => r.captures? (request.value field) = some c)
    (capture_eq_some_iff.mp h) hr

end Route

namespace Route
open Scope
variable {chain : List Declaration} {params : List (String × String)} {defaults : Params}
  {name : String} {field : Field} {group : Nat}

theorem exists_declares (h : find? name (ofChain chain).placeholders = some (field, group)) :
    ∃ d ∈ chain, d.Declares name := by
  obtain ⟨outer, d, inner, p, front, back, rfl, -, hp, htokens, -, -⟩ := exists_declared_token h
  refine ⟨d, by simp, (field, p), (List.mem_filter.mp (mem_of_find? hp)).1, ?_⟩
  simp [htokens]

theorem outputParam_of_placeholder
    (h : find? name (ofChain chain).placeholders = some (field, group)) :
    outputParam (ofChain chain).placeholders defaults name (":" ++ name) =
      .ok ⟨name, [.capture field group], find? name defaults⟩ := by
  obtain ⟨c, tail, hchars, hc, htail⟩ := exists_chars_of_placeholder h
  have hof : name = String.ofList (c :: tail) := by rw [← hchars, String.ofList_toList]
  rw [hof] at h ⊢
  rw [outputParam, Output.compile_placeholder hc htail h]
  rfl

theorem exists_of_ofScope {s : Scope} {decision : Option Decision} {route : Route}
    (h : ofScope s params defaults decision = .ok route) :
    ∃ outputs conditions, outputParams s params defaults = .ok outputs ∧
      compileConditions s = .ok conditions ∧ route.outputs = outputs ∧
      route.conditions = conditions ∧ route.decision = decision := by
  obtain ⟨outputs, houtputs, h⟩ := exists_of_bind_eq_ok h
  obtain ⟨conditions, hconditions, h⟩ := exists_of_bind_eq_ok h
  cases h
  exact ⟨outputs, conditions, houtputs, hconditions, rfl, rfl, rfl⟩

theorem param_of_placeholder {route : Route} {request : Request} {found : Params}
    {source : List Char}
    (hplace : find? name (ofChain chain).placeholders = some (field, group))
    (hsource : find? field (ofChain chain).sources = some source)
    (hkeeps : KeepsPlaceholder chain name) (hparams : ∀ e ∈ params, e.1 ≠ name)
    (hroute : ofScope (ofChain chain) params defaults none = .ok route)
    (haccept : route.accept? request = some found) :
    ∃ r c, Regex.compile (String.ofList source) (field == .method) = .ok r ∧
      route.conditions.lookup field = some r ∧ r.captures? (request.value field) = some c ∧
      find? name found = settled (c.get? group) (find? name defaults) := by
  obtain ⟨outputs, conditions, houtputs, hconditions, rfl, rfl, hdecision⟩ :=
    exists_of_ofScope hroute
  obtain ⟨r, hr, hcompile⟩ := exists_condition hconditions hsource
  obtain ⟨space, hspace, hfound⟩ := accept?_eq_some_iff.mp haccept
  rw [hdecision] at hfound
  obtain ⟨c, hc, hcaptures⟩ := exists_captures (capture_eq_some_iff.mpr hspace) hr
  have hnone : find? name params.reverse = none :=
    find?_eq_none fun e he => hparams e (List.mem_reverse.mp he)
  have hname : find? name ((ofChain chain).params.extend params) = some (":" ++ name) := by
    rw [find?_extend, hnone, Option.none_or]
    exact find?_params_of_declares (exists_declares hplace) hkeeps
  refine ⟨r, c, hcompile, hr, hcaptures, ?_⟩
  rw [← hfound, find?_paramsOf (sorted_extend (sorted_params _) params) houtputs hname
    (outputParam_of_placeholder hplace), paramValue_eq, Output.evaluate_capture, groupText, hc]

end Route

end Signpost
