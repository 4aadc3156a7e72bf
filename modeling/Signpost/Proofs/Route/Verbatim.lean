import Signpost.Proofs.Route.Accept
import Signpost.Proofs.Router.Single

/-! # Hand-written expressions

An expression that is declared for a field is used as it is written if no placeholder is found in
its text. It then adds its condition to what the scope declares and nothing else. A placeholder that
is found is replaced, even where the text has another meaning in the expression.
-/
namespace Signpost
open Entries Placeholder

theorem Entries.Sorted.of_keys {κ α β : Type} [Ord κ] {m : Entries κ α} {m' : Entries κ β}
    (hm : Sorted m) (h : List.Forall₂ (fun e e' => e'.1 = e.1) m m') : Sorted m' := by
  have hkeys : m'.map Prod.fst = m.map Prod.fst := by
    clear hm
    induction h with
    | nil => rfl
    | cons he _ ih => rw [List.map_cons, List.map_cons, he, ih]
  have hpairs : (m.map Prod.fst).Pairwise fun k k' => compare k k' = .lt := List.pairwise_map.mpr hm
  rw [← hkeys] at hpairs
  exact List.pairwise_map.mp hpairs

theorem Entries.forall₂_insert {κ α β : Type} [Ord κ] {R : κ × α → κ × β → Prop} {m : Entries κ α}
    {m' : Entries κ β} (h : List.Forall₂ R m m') (hR : ∀ e e', R e e' → e'.1 = e.1) {k : κ} {v : α}
    {w : β} (hk : R (k, v) (k, w)) : List.Forall₂ R (insert k v m) (insert k w m') := by
  induction h with
  | nil => exact .cons hk .nil
  | @cons e e' rest rest' he hrest ih =>
    obtain ⟨k', v'⟩ := e
    obtain ⟨k'', w'⟩ := e'
    have hkey : k'' = k' := hR _ _ he
    subst hkey
    simp only [insert]
    split
    · exact .cons hk (.cons he hrest)
    · exact .cons hk hrest
    · exact .cons he ih

theorem Entries.mem_insert_iff {κ α : Type} [Ord κ] [Std.LawfulEqOrd κ] [Std.TransOrd κ]
    {m : Entries κ α} (hm : Sorted m) {k : κ} {v : α} {e : κ × α} :
    e ∈ m.insert k v ↔ e = (k, v) ∨ e ∈ m ∧ e.1 ≠ k := by
  classical
  obtain ⟨k', v'⟩ := e
  have hfind : ∀ {m : Entries κ α}, Sorted m → ((k', v') ∈ m ↔ find? k' m = some v') :=
    fun hm => ⟨hm.find?_of_mem, mem_of_find?⟩
  rw [hfind (hm.insert k v), hfind hm, find?_insert, Prod.mk.injEq]
  by_cases hk : k' = k
  · simp [hk, eq_comm]
  · simp [hk]

theorem Route.compileConditions_insert {s s' : Scope} {conditions : List (Field × Regex)}
    (h : compileConditions s = .ok conditions) {field : Field} {source : List Char} {r : Regex}
    (hs' : s'.sources = s.sources.insert field source)
    (hr : Regex.compile (String.ofList source) (field == .method) = .ok r) :
    compileConditions s' = .ok (insert field r conditions) := by
  rw [compileConditions, hs', mapM_eq_ok_iff]
  refine forall₂_insert (mapM_eq_ok_iff.mp h) (fun e e' he => (compileCondition_eq_ok he).1) ?_
  simp only [compileCondition, hr]

theorem Route.sorted_conditions {chain : List Declaration} {conditions : List (Field × Regex)}
    (h : compileConditions (Scope.ofChain chain) = .ok conditions) : Sorted conditions :=
  (Scope.sorted_sources chain).of_keys
    ((mapM_eq_ok_iff.mp h).imp fun _ _ hc => (compileCondition_eq_ok hc).1)

/-- A level that declares an expression for one field. -/
def Declaration.ofRegex (field : Field) (source : String) : Declaration :=
  ⟨[(field, .regex source)], [], List.pairwise_singleton _ _⟩

namespace Declaration
variable {field : Field} {source : String}

theorem written_ofRegex (field : Field) (source : String) :
    (ofRegex field source).written =
      if Level.isEmptyPath field source then []
      else [(field, spelled (tokens source.toList))] := by
  cases h : Level.isEmptyPath field source <;>
    simp [written, ofRegex, Level.kept, Pattern.source, h]

theorem found_ofRegex (h : first? source.toList = none) :
    ((Level.kept (ofRegex field source).conditions).flatMap fun e => Level.found e.1 e.2) = [] := by
  refine List.flatMap_eq_nil_iff.mpr fun e he => ?_
  have hmem : e = (field, .regex source) := List.mem_singleton.mp (List.mem_filter.mp he).1
  have hmarks := marks_text_append 0 source.toList []
  rw [List.append_nil] at hmarks
  rw [hmem, Level.found_eq]
  change (marks 0 (tokens source.toList)).map _ = _
  rw [tokens_of_first?_none h, hmarks]
  rfl

theorem placeholders_ofRegex (h : first? source.toList = none) :
    (ofRegex field source).level.placeholders = [] := by
  rw [level, Level.placeholders_declare, found_ofRegex h]
  rfl

theorem params_ofRegex (h : first? source.toList = none) :
    (ofRegex field source).level.params = [] := by
  change extend (ofList (List.map _ ((Level.kept (ofRegex field source).conditions).flatMap
    fun e => Level.found e.1 e.2))) [] = _
  rw [found_ofRegex h]
  rfl

theorem declares_ofRegex {name : String}
    (h : .hole (.named name.toList) ∈ tokens source.toList) : (ofRegex field source).Declares name :=
  ⟨_, List.mem_singleton_self _, h⟩

end Declaration

namespace Scope
variable {chain : List Declaration} {field : Field} {source : String}

theorem sources_ofRegex (hpath : field = .path → find? .path (ofChain chain).sources = none)
    (h : Level.isEmptyPath field source = false) :
    (ofChain (chain ++ [.ofRegex field source])).sources =
      (ofChain chain).sources.insert field (spelled (tokens source.toList)) := by
  rw [sources_concat, Declaration.written_ofRegex, h, if_neg Bool.false_ne_true]
  exact mergeCondition_of_path_none hpath _

theorem placeholders_concat_of_nil {d : Declaration} (h : d.level.placeholders = []) :
    (ofChain (chain ++ [d])).placeholders = (ofChain chain).placeholders := by
  rw [ofChain, List.map_append, placeholders, placeholdersFrom_append]
  simp only [List.map_cons, List.map_nil, placeholdersFrom, h]
  rfl

theorem params_concat_of_nil {d : Declaration} (h : d.level.params = []) :
    (ofChain (chain ++ [d])).params = (ofChain chain).params := by
  rw [params_concat, h]
  rfl

end Scope

namespace Route
variable {chain : List Declaration} {params : List (String × String)} {defaults : Params}
  {base route : Route} {field : Field} {source : String} {r : Regex}

theorem outputParams_ofRegex (h : first? source.toList = none) :
    outputParams (Scope.ofChain (chain ++ [.ofRegex field source])) params defaults =
      outputParams (Scope.ofChain chain) params defaults := by
  rw [outputParams, outputParams, Scope.placeholders_concat_of_nil
    (Declaration.placeholders_ofRegex h), Scope.params_concat_of_nil (Declaration.params_ofRegex h)]

theorem exists_output_of_params {s : Scope} {outputs : List OutputParam}
    (h : outputParams s params defaults = .ok outputs) {name : String}
    (hname : (find? name (s.params.extend params)).isSome) : ∃ p ∈ outputs, p.name = name := by
  obtain ⟨template, htemplate⟩ := Option.isSome_iff_exists.mp hname
  obtain ⟨p, hp, hok⟩ := (mem_of_mapM_eq_ok h).1 (name, template) (mem_of_find? htemplate)
  exact ⟨p, hp, outputParam_name hok⟩

theorem exists_ofScope {s : Scope} {outputs : List OutputParam}
    {conditions : List (Field × Regex)} (houtputs : outputParams s params defaults = .ok outputs)
    (hconditions : compileConditions s = .ok conditions) :
    ∃ route, ofScope s params defaults none = .ok route ∧ route.outputs = outputs ∧
      route.conditions = conditions ∧ route.decision = none := by
  refine ⟨⟨0, conditions, s.declaredSources, outputs, none, none, s.segments, s.hasRegex⟩, ?_, rfl,
    rfl, rfl⟩
  rw [ofScope, houtputs, hconditions]
  rfl

theorem compileConditions_ofRegex {conditions : List (Field × Regex)}
    (h : compileConditions (Scope.ofChain chain) = .ok conditions)
    (hpath : field = .path → find? .path (Scope.ofChain chain).sources = none)
    (hr : Regex.compile source (field == .method) = .ok r) (hplain : first? source.toList = none) :
    compileConditions (Scope.ofChain (chain ++ [.ofRegex field source])) =
      .ok (if Level.isEmptyPath field source then conditions else insert field r conditions) := by
  cases hempty : Level.isEmptyPath field source with
  | true =>
    rw [compileConditions, Scope.sources_concat, Declaration.written_ofRegex, hempty]
    exact h
  | false =>
    refine compileConditions_insert h (Scope.sources_ofRegex hpath hempty) ?_
    rw [spelled_tokens_of_first?_none hplain, String.ofList_toList]
    exact hr

theorem isSome_accept?_insert {conditions : List (Field × Regex)} (hsorted : Sorted conditions)
    (hconditions : route.conditions = insert field r conditions) (hdecision : route.decision = none)
    {request : Request} :
    (route.accept? request).isSome ↔
      (∀ e ∈ conditions, e.1 ≠ field → (e.2.captures? (request.value e.1)).isSome) ∧
        (r.captures? (request.value field)).isSome := by
  rw [isSome_accept?_iff hdecision, hconditions]
  simp only [mem_insert_iff hsorted, or_imp, forall_and, forall_eq, and_imp]
  exact and_comm

theorem exists_output_ofRegex {outputs : List OutputParam}
    (h : outputParams (Scope.ofChain (chain ++ [.ofRegex field source])) params defaults =
      .ok outputs) {name : String} (hname : .hole (.named name.toList) ∈ tokens source.toList) :
    ∃ p ∈ outputs, p.name = name := by
  refine exists_output_of_params h ?_
  have hdeclares : (Declaration.ofRegex field source).Declares name :=
    Declaration.declares_ofRegex hname
  have hown := Declaration.find?_params_of_declares hdeclares (fun e he => nomatch he)
  rw [find?_extend, Scope.find?_params_concat, hown]
  simp

/-- An expression in which no placeholder is found is used as it is written, next to what the scope
declares: it is met where the expression itself finds a match. One in which a placeholder is found
is replaced by another, and the names of its placeholders become parameters. -/
theorem ofScope_ofRegex
    (hbase : ofScope (Scope.ofChain chain) params defaults none = .ok base)
    (hpath : field = .path → find? .path (Scope.ofChain chain).sources = none)
    (hr : Regex.compile source (field == .method) = .ok r) :
    (first? source.toList = none →
      ∃ route, ofScope (Scope.ofChain (chain ++ [.ofRegex field source])) params defaults none =
          .ok route ∧
        route.outputs = base.outputs ∧
        (Level.isEmptyPath field source = true → route.conditions = base.conditions) ∧
        (Level.isEmptyPath field source = false →
          route.conditions.lookup field = some r ∧
          ∀ request, (route.accept? request).isSome ↔
            (∀ e ∈ base.conditions, e.1 ≠ field →
              (e.2.captures? (request.value e.1)).isSome) ∧
            ∃ start t, start ≤ (request.value field).toList.length ∧
              r.node.Run (request.value field).toList.toArray ⟨start, []⟩ t)) ∧
    (first? source.toList ≠ none →
      ∀ route, ofScope (Scope.ofChain (chain ++ [.ofRegex field source])) params defaults none =
          .ok route →
        route.source? field = some (String.ofList (spelled (tokens source.toList))) ∧
        String.ofList (spelled (tokens source.toList)) ≠ source ∧
        ∀ name : String, .hole (.named name.toList) ∈ tokens source.toList →
          ∃ p ∈ route.outputs, p.name = name) := by
  obtain ⟨outputs, conditions, houtputs, hconditions, rfl, rfl, -⟩ := exists_of_ofScope hbase
  constructor
  · intro hplain
    obtain ⟨route, hroute, houtput, hcondition, hdecision⟩ := exists_ofScope
      ((outputParams_ofRegex hplain).trans houtputs)
      (compileConditions_ofRegex hconditions hpath hr hplain)
    refine ⟨route, hroute, houtput, fun hempty => ?_, fun hempty => ?_⟩
    · rw [hcondition, hempty, if_pos rfl]
    · rw [hempty, if_neg Bool.false_ne_true] at hcondition
      refine ⟨?_, fun request => ?_⟩
      · rw [hcondition, lookup_eq_find?, find?_insert_self]
      · rw [isSome_accept?_insert (sorted_conditions hconditions) hcondition hdecision,
          Regex.isSome_captures?_iff hr]
  · intro hfound route hroute
    obtain ⟨outputs', conditions', houtputs', hconditions', rfl, rfl, -⟩ := exists_of_ofScope hroute
    have hsource : find? field (Scope.ofChain (chain ++ [.ofRegex field source])).sources =
        some (spelled (tokens source.toList)) := by
      rw [Scope.sources_ofRegex hpath (Level.isEmptyPath_of_first?_ne_none hfound),
        find?_insert_self]
    obtain ⟨r', hr', hcompile⟩ := exists_condition hconditions' hsource
    refine ⟨?_, fun heq => ?_, fun name hname => exists_output_ofRegex houtputs' hname⟩
    · rw [source?, hr', Option.map_some, (Regex.of_compile hcompile).1]
    · have hlist := congrArg String.toList heq
      rw [String.toList_ofList] at hlist
      exact hfound (spelled_tokens_eq_self_iff.mp hlist)

theorem ofScope_ofRegex_host :
    ∃ route r, ofScope (Scope.ofChain [.root [("action", "index")], .ofRegex .host "^(a|b)"]) []
        [("action", "index")] none = .ok route ∧
      Regex.compile "^(a|b)" false = .ok r ∧ route.conditions.lookup .host = some r := by
  obtain ⟨base, hbase⟩ := exists_eq_ok_of_isOk
    (x := ofScope (Scope.ofChain [.root [("action", "index")]]) [] [("action", "index")] none)
    (by decide +kernel)
  obtain ⟨r, hr⟩ := exists_eq_ok_of_isOk (x := Regex.compile "^(a|b)" false) (by decide)
  have hhost : Field.host = .path →
      find? .path (Scope.ofChain [.root [("action", "index")]]).sources = none := by decide
  obtain ⟨route, hroute, -, -, hused⟩ := (ofScope_ofRegex hbase hhost hr).1 (by decide)
  exact ⟨route, r, hroute, hr, (hused (by decide)).1⟩

/-- The colon of a group that captures nothing is taken for a placeholder: the expression finds a
match, and a scope that declares it makes no route. -/
theorem ofRegex_refused_for_group :
    ((Regex.compile "^(?:www|api)$" false).toOption.bind fun r => r.captures? "www").isSome ∧
      (ofScope (Scope.ofChain [.root [("action", "index")], .ofRegex .host "^(?:www|api)$"]) []
        [("action", "index")] none).isOk = false := by
  decide +kernel

end Route

end Signpost
