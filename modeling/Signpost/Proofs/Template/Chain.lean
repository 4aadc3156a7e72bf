import Signpost.Proofs.Router.Single
import Signpost.Proofs.Scope.Params
import Signpost.Proofs.Template.Accepts
import Signpost.Proofs.Template.Captured

/-! # Routes of templates

Nested literal fragments are one template when a slash begins each of them. A route on it accepts
the texts that fit the template, and finds the text of every placeholder as a parameter.
-/
namespace Signpost.Template
open Entries Placeholder Scope

/-- The fragments of nested declarations as one text, root to leaf. -/
def template (chain : List Declaration) : List Char := chain.flatMap fragment

/-- A fragment that goes on a path begins with a slash. -/
def Seamed (chain : List Declaration) : Prop :=
  ∀ outer d inner, chain = outer ++ d :: inner → template outer ≠ [] → fragment d ≠ [] →
    (fragment d).head? = some '/'

theorem template_concat (chain : List Declaration) (d : Declaration) :
    template (chain ++ [d]) = template chain ++ fragment d := by
  simp [template]

theorem chainTokens_concat (chain : List Declaration) (d : Declaration) :
    chainTokens (chain ++ [d]) = chainTokens chain ++ tokens (fragment d) := by
  simp [chainTokens]

theorem Seamed.init {chain : List Declaration} {d : Declaration} (h : Seamed (chain ++ [d])) :
    Seamed chain :=
  fun outer e inner heq => h outer e (inner ++ [d]) (by simp [heq])

theorem seamed_of_tail {chain : List Declaration}
    (h : ∀ d ∈ chain.tail, fragment d = [] ∨ (fragment d).head? = some '/') : Seamed chain := by
  rintro (_ | ⟨e, outer⟩) d inner heq houter hd
  · exact absurd rfl houter
  · have hmem : d ∈ chain.tail := by
      rw [heq]
      simp
    exact (h d hmem).resolve_left hd

/-- The tokens of the fragments are those of the whole template: no placeholder spans a seam. -/
theorem chainTokens_eq {chain : List Declaration} (h : Seamed chain) :
    chainTokens chain = tokens (template chain) := by
  induction chain using List.reverseRecOn with
  | nil => exact tokens_nil.symm
  | append_singleton chain d ih =>
    rw [chainTokens_concat, template_concat, ih h.init]
    by_cases hd : fragment d = []
    · rw [hd, tokens_nil, List.append_nil, List.append_nil]
    by_cases houter : template chain = []
    · rw [houter, tokens_nil, List.nil_append, List.nil_append]
    have hslash := h chain d [] rfl houter hd
    refine (tokens_append (fun c hc => ?_) ?_ (template chain)).symm
    · rw [hslash] at hc
      cases hc
      decide
    · rw [hslash]
      decide

theorem scope_template {chain : List Declaration} (h : ∀ d ∈ chain, IsLiteral d) :
    (ofChain chain).template = .ok (template chain) := by
  induction chain with
  | nil => rfl
  | cons d chain ih =>
    obtain ⟨hd, hchain⟩ := List.forall_mem_cons.mp h
    change Scope.template (d.level :: ofChain chain) = .ok (fragment d ++ template chain)
    rw [Scope.template, hd.level_conditions, ih hchain]
    split
    · rename_i hnone
      split at hnone
      · rename_i hempty
        rw [hempty, List.nil_append]
      · rw [find?_cons, if_pos rfl] at hnone
        cases hnone
    · rename_i c hsome
      split at hsome
      · cases hsome
      · rw [find?_cons, if_pos rfl] at hsome
        cases hsome
        simp [Level.condition, Pattern.template?, Except.map]

theorem segments_of_ofScope {s : Scope} {params : List (String × String)} {defaults : Params}
    {decision : Option Decision} {route : Route}
    (h : Route.ofScope s params defaults decision = .ok route) : route.segments = s.segments := by
  obtain ⟨outputs, -, h⟩ := exists_of_bind_eq_ok h
  obtain ⟨conditions, -, h⟩ := exists_of_bind_eq_ok h
  cases h
  rfl

section Root
variable {defaults : Params} {chain : List Declaration}

theorem isLiteral_root (h : ∀ d ∈ chain, IsLiteral d) :
    ∀ d ∈ .root defaults :: chain, IsLiteral d :=
  List.forall_mem_cons.mpr ⟨by simp [IsLiteral, Declaration.root], h⟩

theorem chainTokens_root : chainTokens (.root defaults :: chain) = chainTokens chain := by
  rw [chainTokens_cons]
  change tokens [] ++ _ = _
  rw [tokens_nil, List.nil_append]

theorem template_root : template (.root defaults :: chain) = template chain := rfl

theorem not_declares_root (name : String) : ¬ (Declaration.root defaults).Declares name := by
  simp [Declaration.Declares, Declaration.root]

theorem keepsPlaceholder_root {name : String} (h : KeepsPlaceholder chain name) :
    KeepsPlaceholder (.root defaults :: chain) name := by
  intro outer d inner heq hname
  cases outer with
  | nil =>
    obtain ⟨rfl, -⟩ := List.cons.inj heq
    exact absurd hname (not_declares_root name)
  | cons e outer => exact h outer d inner (List.cons.inj heq).2 hname

end Root

/-- What a template of nested literal fragments needs for its placeholders to be found again:
they are its only groups, none spans a seam or is anonymous, and no parameter but its own has the
name of one. -/
structure Capturing (chain : List Declaration) (params : List (String × String)) : Prop where
  literal : ∀ d ∈ chain, IsLiteral d
  ungrouped : ∀ d ∈ chain, '(' ∉ fragment d
  seamed : Seamed chain
  named : ¬ [':', ':'] <:+: template chain
  nonempty : template chain ≠ []
  kept : ∀ name ∈ names (tokens (template chain)),
    KeepsPlaceholder chain name ∧ ∀ p ∈ params, p.1 ≠ name

namespace Capturing
variable {chain : List Declaration} {params : List (String × String)} {defaults : Params}
  {route : Route} {request : Request}

theorem chainTokens_root_eq (h : Capturing chain params) (defaults : Params) :
    chainTokens (.root defaults :: chain) = tokens (template chain) := by
  rw [chainTokens_root, chainTokens_eq h.seamed]

theorem anonymous_notMem (h : Capturing chain params) :
    .hole .anonymous ∉ tokens (template chain) :=
  anonymous_notMem_tokens h.named

theorem exists_fragment (h : Capturing chain params) :
    ∃ d ∈ .root defaults :: chain, fragment d ≠ [] := by
  by_contra hempty
  refine h.nonempty (List.flatMap_eq_nil_iff.mpr fun d hd => ?_)
  by_contra hne
  exact hempty ⟨d, List.mem_cons_of_mem _ hd, hne⟩

theorem find?_params (h : Capturing chain params) {name : String}
    (hname : name ∈ names (tokens (template chain))) :
    find? name ((ofChain (.root defaults :: chain)).params.extend params) =
      some (":" ++ name) := by
  obtain ⟨hkeeps, hfree⟩ := h.kept name hname
  have hnone : find? name params.reverse = none :=
    find?_eq_none fun p hp => hfree p (List.mem_reverse.mp hp)
  rw [← chainTokens_eq h.seamed, mem_names_chainTokens_iff h.literal] at hname
  obtain ⟨d, hd, hdeclares⟩ := hname
  rw [find?_extend, hnone, Option.none_or]
  exact find?_params_of_declares ⟨d, List.mem_cons_of_mem _ hd, hdeclares⟩
    (keepsPlaceholder_root hkeeps)

theorem exists_outputParam (h : Capturing chain params) (defaults : Params) {name : String}
    (hname : name ∈ names (tokens (template chain))) :
    ∃ k, (names (tokens (template chain)))[k]? = some name ∧
      Route.outputParam (ofChain (.root defaults :: chain)).placeholders defaults name
        (":" ++ name) = .ok ⟨name, [.capture .path (k + 1)], find? name defaults⟩ := by
  have hgroups : ∀ d ∈ .root defaults :: chain, '(' ∉ fragment d :=
    List.forall_mem_cons.mpr ⟨List.not_mem_nil, h.ungrouped⟩
  have hanonymous := h.anonymous_notMem
  obtain ⟨c, tail, hchars, hc, htail⟩ := exists_of_named_mem_tokens (mem_names_iff.mp hname)
  rw [← h.chainTokens_root_eq defaults] at hname hanonymous
  obtain ⟨k, hplace, hk⟩ := exists_group (isLiteral_root h.literal) hgroups hanonymous hname
  rw [h.chainTokens_root_eq] at hk
  have hof : name = String.ofList (c :: tail) := by rw [← hchars, String.ofList_toList]
  refine ⟨k, hk, ?_⟩
  rw [hof] at hplace ⊢
  rw [Route.outputParam, Output.compile_placeholder hc htail hplace]
  rfl

theorem compileConditions_eq (h : Capturing chain params) (defaults : Params) :
    Route.compileConditions (ofChain (.root defaults :: chain)) =
      if Regex.Node.maxProgramSize < (pathNode (tokens (template chain))).programSize then
        .error (.invalidPattern .path (pathRegex (tokens (template chain))).source .tooLarge)
      else .ok [(.path, pathRegex (tokens (template chain)))] := by
  rw [compileConditions_literal (isLiteral_root h.literal) h.exists_fragment, h.chainTokens_root_eq]

theorem accept?_eq (h : Capturing chain params)
    (hroute : Route.ofScope (ofChain (.root defaults :: chain)) params defaults none = .ok route)
    (request : Request) :
    ∃ outputs, Route.outputParams (ofChain (.root defaults :: chain)) params defaults =
        .ok outputs ∧
      route.accept? request =
        ((pathRegex (tokens (template chain))).captures? request.path).map
          fun c => Route.paramsOf outputs [(.path, c)] := by
  obtain ⟨outputs, houtputs, hroute⟩ := exists_of_bind_eq_ok hroute
  obtain ⟨conditions, hconditions, hroute⟩ := exists_of_bind_eq_ok hroute
  cases hroute
  rw [h.compileConditions_eq] at hconditions
  split at hconditions
  · cases hconditions
  cases hconditions
  refine ⟨outputs, houtputs, ?_⟩
  have hspace : Route.capture [(.path, pathRegex (tokens (template chain)))] request =
      ((pathRegex (tokens (template chain))).captures? request.path).map
        fun c => [(.path, c)] := by
    change ((pathRegex _).captures? request.path).map _ >>= _ = _
    cases (pathRegex (tokens (template chain))).captures? request.path with
    | none => rfl
    | some c => rfl
  simp only [Route.accept?, hspace]
  cases (pathRegex (tokens (template chain))).captures? request.path with
  | none => rfl
  | some c => rfl

theorem isSome_accept?_iff (h : Capturing chain params)
    (hroute : Route.ofScope (ofChain (.root defaults :: chain)) params defaults none = .ok route) :
    (route.accept? request).isSome ↔
      ∃ values, Fits (tokens (template chain)) values request.path.toList := by
  obtain ⟨outputs, -, haccept⟩ := h.accept?_eq hroute request
  rw [haccept, Option.isSome_map, captures?_isSome_iff]

/-- The path of an accepted request is made of the template with segments for the placeholders,
and the parameter of a name is the segment for a placeholder of that name. -/
theorem exists_values (h : Capturing chain params)
    (hroute : Route.ofScope (ofChain (.root defaults :: chain)) params defaults none = .ok route)
    {found : Params} (haccept : route.accept? request = some found) :
    ∃ values, Fits (tokens (template chain)) values request.path.toList ∧
      ∀ name ∈ names (tokens (template chain)), ∃ (k : Nat) (value : List Char),
        (names (tokens (template chain)))[k]? = some name ∧ values[k]? = some value ∧
          find? name found = some (String.ofList value) := by
  obtain ⟨outputs, houtputs, heq⟩ := h.accept?_eq hroute request
  rw [heq] at haccept
  obtain ⟨c, hc, rfl⟩ := Option.map_eq_some_iff.mp haccept
  obtain ⟨values, hfits, hgroups⟩ := fits_of_captures? hc
  refine ⟨values, hfits, fun name hname => ?_⟩
  obtain ⟨k, hk, hparam⟩ := h.exists_outputParam defaults hname
  have hlt : k < values.length := by
    rw [hfits.length_eq h.anonymous_notMem]
    exact (List.getElem?_eq_some_iff.mp hk).1
  have hvalue := List.getElem?_eq_getElem hlt
  have hne : String.ofList values[k] ≠ "" := by
    intro hempty
    have hnil := congrArg String.toList hempty
    rw [String.toList_ofList] at hnil
    exact (hfits.isSegment values[k] (List.getElem_mem hlt)).1 hnil
  refine ⟨k, values[k], hk, hvalue, ?_⟩
  rw [Route.find?_paramsOf (sorted_extend (sorted_params _) params) houtputs
    (h.find?_params hname) hparam, Route.paramValue_eq, Output.evaluate_capture]
  simp [Route.groupText, hgroups k _ hvalue, Route.settled_of_ne hne]

theorem exists_segments (h : Capturing chain params)
    (hroute : Route.ofScope (ofChain (.root defaults :: chain)) params defaults none = .ok route) :
    ∃ segments, route.segments = .ok segments ∧
      ∀ (source : LinkSource) (value : String → String),
        (∀ name ∈ names (tokens (template chain)), source.text? name = some (value name)) →
        source.residual (names (tokens (template chain))) = [] →
        Link.build segments source [] =
          String.ofList (Link.finishPath (filled value (tokens (template chain)))) := by
  obtain ⟨segments, hok, hnames, htext⟩ := Template.exists_segments h.anonymous_notMem
  refine ⟨segments, ?_, fun source value hsource hrest => ?_⟩
  · rw [segments_of_ofScope hroute, Scope.segments, scope_template (isLiteral_root h.literal), template_root]
    exact hok
  · have hjoin : (String.join (segments.map (Link.segmentText source []))).toList =
        filled value (tokens (template chain)) := by
      rw [← htext source [] value hsource]
      simp [segmentsText, String.toList_join, List.flatMap_map]
    rw [Link.build, Link.path, hnames, hrest, hjoin]
    exact String.append_empty

end Capturing

end Signpost.Template
