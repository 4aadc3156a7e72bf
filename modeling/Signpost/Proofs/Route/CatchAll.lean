import Signpost.Proofs.Path.Levels
import Signpost.Proofs.Resource.Route
import Signpost.Proofs.Route.Verbatim

/-! # The catch-all route

The catch-all route takes a path of one, two or three segments, which name a controller, an action
and an identifier, and maybe a format. Its expression is written by hand with the later levels in
groups inside one another, so the segments stand in the groups one, three and five, and the format in
the seventh. What the path does not name keeps its default.
-/
namespace Signpost.CatchAll
open Entries Placeholder Scope Signpost.Path Resource

def text : String := "^/:controller(/:action(/:id)?)?(\\.:format)?$"

/-- The expression with groups for its placeholders. -/
def source : List Char := "^/([^/.,;?]+)(/([^/.,;?]+)(/([^/.,;?]+))?)?(\\.([^/.,;?]+))?$".toList

theorem substitute_text : substitute text.toList =
    (source, [("controller", 1), ("action", 3), ("id", 5), ("format", 7)]) := by
  decide +kernel

theorem parse_source : Regex.parse source false = .ok (levelsNode 2, 7) := by with_unfolding_all rfl

def regex : Regex := ⟨String.ofList source, 7, levelsNode 2, (levelsNode 2).code.toArray⟩

theorem compile_source : Regex.compile (String.ofList source) false = .ok regex := by
  have hsize : ¬ Regex.Node.maxProgramSize < (levelsNode 2).programSize := by decide
  rw [Regex.compile_of_parse parse_source, if_neg hsize]
  rfl

theorem spells_of_captures? {path : String} {c : Regex.Captures}
    (h : regex.captures? path = some c) :
    ∃ values format, Spells 2 values format path.toList ∧
      (∀ k ≤ 2, c.get? (2 * k + 1) = (values[k]?).map String.ofList) ∧
      c.get? 7 = format.map String.ofList := by
  obtain ⟨⟨start, f⟩, hsearch, rfl⟩ := Option.map_eq_some_iff.mp h
  obtain ⟨hle, hrun⟩ := Regex.search_eq_some hsearch
  obtain ⟨values, format, hspells, hlevels, hformat⟩ := exists_spells_of_run (by simpa using hle) hrun
  refine ⟨values, format, hspells, fun k hk => ?_, ?_⟩
  · exact (get?_eq_map_groupText? (by omega) _ _ _).trans (congrArg _ (hlevels k hk))
  · exact (get?_eq_map_groupText? (by omega) _ _ _).trans (congrArg _ hformat)

theorem isSome_captures?_iff {path : String} :
    (regex.captures? path).isSome ↔ ∃ values format, Spells 2 values format path.toList := by
  constructor
  · intro h
    obtain ⟨c, hc⟩ := Option.isSome_iff_exists.mp h
    obtain ⟨values, format, hspells, -⟩ := spells_of_captures? hc
    exact ⟨values, format, hspells⟩
  · rintro ⟨values, format, hspells⟩
    obtain ⟨t, hrun⟩ := exists_run_of_spells hspells
    rw [Regex.captures?, Option.isSome_map]
    exact Regex.search_isSome_iff.mpr ⟨0, t, Nat.zero_le _, hrun⟩

variable {defaults : Params}

/-- The declarations around the route, at the root. -/
def chain (defaults : Params) : List Declaration := [.root defaults, .ofRegex .path text]

theorem sources_chain (defaults : Params) : (ofChain (chain defaults)).sources = [(.path, source)] := by
  have hone : (chain defaults).flatMap (·.conditions) = [(.path, .regex text)] := rfl
  have hspelled : spelled (tokens text.toList) = source := by
    have hsubstitute := substitute_eq text.toList
    rw [substitute_text] at hsubstitute
    exact (congrArg Prod.fst hsubstitute).symm
  have hsources := sources_of_flatMap hone (by decide)
  rw [hsources]
  exact congrArg (fun cs => [(Field.path, cs)]) hspelled

def places : Entries String Nat := [("action", 3), ("controller", 1), ("format", 7), ("id", 5)]

theorem found_text : (Level.kept (Declaration.ofRegex .path text).conditions).flatMap
      (fun e => Level.found e.1 e.2) = [("controller", (.path, 1)), ("action", (.path, 3)),
        ("id", (.path, 5)), ("format", (.path, 7))] := by
  have hkept : Level.kept (Declaration.ofRegex .path text).conditions = [(.path, .regex text)] := by
    decide
  rw [hkept, List.flatMap_cons, List.flatMap_nil, List.append_nil, Level.found]
  change List.map _ (substitute text.toList).2 = _
  rw [substitute_text]
  rfl

theorem placeholders_chain (defaults : Params) :
    (ofChain (chain defaults)).placeholders = places.mapValues (Field.path, ·) := by
  have hroot : (Declaration.root defaults).level.placeholders = [] := rfl
  have hgroups : (Declaration.root defaults).level.pathGroups = 0 := rfl
  have hlevel : (Declaration.ofRegex .path text).level.placeholders =
      places.mapValues (Field.path, ·) := by
    rw [Declaration.level, Level.placeholders_declare, found_text]
    decide
  change placeholdersFrom 0 [] [(Declaration.root defaults).level,
    (Declaration.ofRegex .path text).level] = _
  simp only [placeholdersFrom, hroot, hgroups, hlevel]
  decide

theorem find?_params_chain (hsorted : Sorted defaults) (name : String) :
    find? name (ofChain (chain defaults)).params =
      if (find? name places).isSome then some (":" ++ name) else find? name defaults := by
  have hlevel : (Declaration.ofRegex .path text).level.params =
      places.map fun e => (e.1, ":" ++ e.1) := by
    change (Entries.ofList (((Level.kept (Declaration.ofRegex .path text).conditions).flatMap
      fun e => Level.found e.1 e.2).map fun e => (e.1, ":" ++ e.1))).extend [] = _
    rw [found_text]
    decide
  have hown : find? name (places.map fun e => (e.1, ":" ++ e.1)) =
      (find? name places).map fun _ => ":" ++ name :=
    find?_map name (fun name (_ : Nat) => ":" ++ name) places
  have hconcat := find?_params_concat [.root defaults] (.ofRegex .path text) name
  rw [hlevel, hown, find?_params_root, hsorted.find?_reverse] at hconcat
  change find? name (ofChain ([.root defaults] ++ [.ofRegex .path text])).params = _
  rw [hconcat]
  cases find? name places <;> rfl

theorem outputParam_placed {name : String} {group : Nat} (h : find? name places = some group) :
    Route.outputParam (ofChain (chain defaults)).placeholders defaults name (":" ++ name) =
      .ok ⟨name, [.capture .path group], find? name defaults⟩ := by
  apply Route.outputParam_of_placeholder
  rw [placeholders_chain, find?_mapValues, h]
  rfl

theorem isOk_outputParams (hsorted : Sorted defaults)
    (hverbatim : ∀ e ∈ defaults, IsVerbatim e.2.toList) :
    (Route.outputParams (ofChain (chain defaults)) [] defaults).isOk = true := by
  cases hparams : Route.outputParams (ofChain (chain defaults)) [] defaults with
  | ok outputs => rfl
  | error failure =>
    obtain ⟨⟨name, template⟩, he, herror⟩ := exists_of_mapM_eq_error hparams
    have hfind := (sorted_params (ofChain (chain defaults))).find?_of_mem he
    rw [find?_params_chain hsorted] at hfind
    change Route.outputParam _ defaults name template = _ at herror
    cases hplace : find? name places with
    | some group =>
      rw [hplace, Option.isSome_some, if_pos rfl] at hfind
      rw [← Option.some.inj hfind, outputParam_placed hplace] at herror
      cases herror
    | none =>
      rw [hplace, Option.isSome_none, if_neg Bool.false_ne_true] at hfind
      obtain ⟨o, ho, -⟩ := exists_outputParam_verbatim (hverbatim _ (mem_of_find? hfind)) _ _ name
      rw [ho] at herror
      cases herror

theorem exists_route (hsorted : Sorted defaults)
    (hverbatim : ∀ e ∈ defaults, IsVerbatim e.2.toList) :
    ∃ route, Route.ofScope (ofChain (chain defaults)) [] defaults none = .ok route :=
  Route.exists_ofScope_of_single (sources_chain defaults) compile_source [] defaults none
    (isOk_outputParams hsorted hverbatim)

/-- What a path gives: its segments under the names of their levels, and its format. -/
def given (values : List (List Char)) (format : Option (List Char)) : List (String × String) :=
  ["controller", "action", "id"].zip (values.map String.ofList) ++
    (format.map fun f => ("format", String.ofList f)).toList

theorem find?_given {values : List (List Char)} {format : Option (List Char)} {path : List Char}
    (h : Spells 2 values format path) {get : Nat → Option String}
    (hlevels : ∀ k ≤ 2, get (2 * k + 1) = (values[k]?).map String.ofList)
    (hformat : get 7 = format.map String.ofList) (name : String) :
    find? name (given values format).reverse = (find? name places).bind get := by
  have hfirst := hlevels 0 (by omega)
  have hsecond := hlevels 1 (by omega)
  have hthird := hlevels 2 (by omega)
  -- the levels that are there
  have hshape : ∃ c, values = [c] ∨ ∃ a, values = [c, a] ∨ ∃ i, values = [c, a, i] := by
    match values, h.nonempty, h.length_le with
    | [c], _, _ => exact ⟨c, Or.inl rfl⟩
    | [c, a], _, _ => exact ⟨c, Or.inr ⟨a, Or.inl rfl⟩⟩
    | [c, a, i], _, _ => exact ⟨c, Or.inr ⟨a, Or.inr ⟨i, rfl⟩⟩⟩
  have hnames : name = "controller" ∨ name = "action" ∨ name = "id" ∨ name = "format" ∨
      (name ≠ "controller" ∧ name ≠ "action" ∧ name ≠ "id" ∧ name ≠ "format") := by tauto
  rcases hshape with ⟨c, rfl | ⟨a, rfl | ⟨i, rfl⟩⟩⟩ <;> cases format <;>
    rcases hnames with rfl | rfl | rfl | rfl | ⟨hc, ha, hi, hf⟩ <;>
    simp_all [given, places, find?_cons]

theorem ne_of_places {values : List (List Char)} {format : Option (List Char)} {path : List Char}
    (h : Spells 2 values format path) {get : Nat → Option String}
    (hlevels : ∀ k ≤ 2, get (2 * k + 1) = (values[k]?).map String.ofList)
    (hformat : get 7 = format.map String.ofList) {name : String} {group : Nat}
    (hplace : find? name places = some group) : get group ≠ some "" := by
  have hsegment : ∀ {value : Option (List Char)}, (∀ cs ∈ value, Template.IsSegment cs) →
      value.map String.ofList ≠ some "" := by
    intro value hvalue heq
    obtain ⟨cs, rfl, hcs⟩ := Option.map_eq_some_iff.mp heq
    exact (hvalue cs rfl).1 (String.ofList_eq_empty_iff.mp hcs)
  have hcases : group = 7 ∨ ∃ k ≤ 2, group = 2 * k + 1 := by
    have hmem := mem_of_find? hplace
    simp only [places, List.mem_cons, Prod.mk.injEq, List.not_mem_nil, or_false] at hmem
    rcases hmem with ⟨-, rfl⟩ | ⟨-, rfl⟩ | ⟨-, rfl⟩ | ⟨-, rfl⟩
    · exact Or.inr ⟨1, by omega, rfl⟩
    · exact Or.inr ⟨0, by omega, rfl⟩
    · exact Or.inl rfl
    · exact Or.inr ⟨2, by omega, rfl⟩
  rcases hcases with rfl | ⟨k, hk, rfl⟩
  · rw [hformat]
    exact hsegment h.format_segment
  · rw [hlevels k hk]
    exact hsegment fun cs hcs => h.segments cs (List.mem_of_getElem? hcs)

/-- The defaults declare no placeholder, and the level of the expression sets no parameter. -/
theorem keepsPlaceholder_chain (defaults : Params) (name : String) :
    KeepsPlaceholder (chain defaults) name := by
  intro outer d inner heq hdeclares _ e he
  match outer, heq with
  | [], heq =>
    obtain ⟨rfl, -⟩ := List.cons.inj heq
    obtain ⟨_, hnone, -⟩ := hdeclares
    cases hnone
  | [_], heq =>
    obtain ⟨-, heq⟩ := List.cons.inj heq
    obtain ⟨rfl, rfl⟩ := List.cons.inj heq
    rw [List.mem_singleton.mp he]
    simp [Declaration.ofRegex]
  | _ :: _ :: _, heq => simp [chain] at heq

variable {route : Route} {request : Request}

theorem accept?_isSome_iff (hroute : Route.ofScope (ofChain (chain defaults)) [] defaults none = .ok route) :
    (route.accept? request).isSome ↔ ∃ values format, Spells 2 values format request.path.toList := by
  obtain ⟨r, hr, haccepts⟩ := Route.exists_of_single (sources_chain defaults) hroute
  cases hr.symm.trans compile_source
  rw [haccepts]
  exact isSome_captures?_iff

theorem exists_of_accept? (hsorted : Sorted defaults)
    (hverbatim : ∀ e ∈ defaults, IsVerbatim e.2.toList)
    (hroute : Route.ofScope (ofChain (chain defaults)) [] defaults none = .ok route) {found : Params}
    (haccept : route.accept? request = some found) :
    ∃ values format, Spells 2 values format request.path.toList ∧
      found = defaults.extend (given values format) := by
  obtain ⟨outputs, conditions, houtputs, -, houtputsEq, -, hdecision⟩ :=
    Route.exists_of_ofScope hroute
  obtain ⟨space, -, hfound⟩ := Route.accept?_eq_some_iff.mp haccept
  rw [hdecision, houtputsEq] at hfound
  -- what a placeholder captured is its parameter
  have hplaced : ∀ {name group}, find? name places = some group →
      ∃ c, regex.captures? request.path = some c ∧
        find? name found = Route.settled (c.get? group) (find? name defaults) := by
    intro name group hplace
    have hgroup : find? name (ofChain (chain defaults)).placeholders = some (.path, group) := by
      rw [placeholders_chain, find?_mapValues, hplace]
      rfl
    have hsource : find? .path (ofChain (chain defaults)).sources = some source := by
      rw [sources_chain]
      rfl
    have hkeeps := keepsPlaceholder_chain defaults name
    obtain ⟨r, c, hr, -, hc, hvalue⟩ :=
      Route.param_of_placeholder hgroup hsource hkeeps (by simp) hroute haccept
    cases hr.symm.trans compile_source
    exact ⟨c, hc, hvalue⟩
  obtain ⟨c, hc, -⟩ := @hplaced "controller" 1 rfl
  obtain ⟨values, format, hspells, hlevels, hformat⟩ := spells_of_captures? hc
  refine ⟨values, format, hspells, ?_⟩
  have hsortedFound : Sorted found := by
    rw [← hfound]
    exact sorted_ofList _
  refine hsortedFound.ext (sorted_extend hsorted _) fun name => ?_
  rw [find?_extend, find?_given hspells hlevels hformat]
  cases hplace : find? name places with
  | some group =>
    obtain ⟨c', hc', hvalue⟩ := hplaced hplace
    cases hc'.symm.trans hc
    have hne : c.get? group ≠ some "" := ne_of_places hspells hlevels hformat hplace
    rw [hvalue, Option.bind_some, Route.settled_eq_or hne]
  | none =>
    have hparams := find?_params_chain hsorted name
    rw [hplace, Option.isSome_none, if_neg Bool.false_ne_true] at hparams
    rw [Option.bind_none, Option.none_or, ← hfound]
    cases hdefault : find? name defaults with
    | none => exact Route.find?_paramsOf_eq_none houtputs (hparams.trans hdefault) space
    | some value =>
      obtain ⟨o, ho, hvalue⟩ :=
        exists_outputParam_verbatim (hverbatim _ (mem_of_find? hdefault)) _ defaults name
      rw [Route.find?_paramsOf (sorted_extend (sorted_params _) []) houtputs (hparams.trans hdefault) ho,
        Route.paramValue_eq, hvalue]
      simp [Route.settled]

theorem declare_catchAll
    (hroute : Route.ofScope (ofChain (chain defaults)) [] defaults none = .ok route) :
    Statement.declare defaults [.route .catchAll [] none] =
      (.ok (), ⟨defaults, [{ route with index := 0 }], [], [], [.placed (some 0)]⟩) := by
  let placed : Draft := (Draft.empty defaults).addListed route
  have hplace : (Statement.place (Draft.root defaults) [] .catchAll).run.run (Draft.empty defaults) =
      (.ok (.listed 0), placed) := Declare.run_listed hroute
  have hnote : (Declare.note (.placed (some 0))).run.run placed =
      (.ok (), placed.note (.placed (some 0))) := rfl
  have hrun : (Statement.run (Draft.root defaults) (.route .catchAll [] none)).run.run
      (Draft.empty defaults) = (.ok (), placed.note (.placed (some 0))) := by
    rw [Statement.run, Statement.declareRoute]
    exact (Declare.run_bind hplace).trans ((Declare.run_bind hnote).trans rfl)
  rw [Statement.declare, Statement.runAll, Statement.runAll]
  exact (Declare.run_bind hrun).trans rfl

/-- The catch-all route alone, under sorted defaults without references: it can always be declared,
and it answers exactly the paths of one to three segments with or without a format, with the defaults
and what the path gives in their place. -/
theorem matchRequest_catchAll {r : Router} {own : Option Params}
    (hsorted : Sorted (own.getD r.defaults))
    (hverbatim : ∀ e ∈ own.getD r.defaults, IsVerbatim e.2.toList) :
    let change := r.change .replace own [.route .catchAll [] none]
    change.failure = none ∧ change.router.size = 1 ∧ ∀ request,
      (∀ values format, Spells 2 values format request.path.toList →
        change.router.matchRequest request =
          ⟨some 0, (own.getD r.defaults).extend (given values format)⟩) ∧
      ((¬ ∃ values format, Spells 2 values format request.path.toList) →
        change.router.matchRequest request = ⟨none, []⟩) := by
  obtain ⟨route, hroute⟩ := exists_route hsorted hverbatim
  have hchange : r.change .replace own [.route .catchAll [] none] =
      ⟨⟨⟨[{ route with index := 0 }], []⟩, own.getD r.defaults⟩, none, [.placed (some 0)]⟩ := by
    rw [Router.change, declare_catchAll hroute]
    rfl
  intro change
  have hrouter : change.router = ⟨⟨[{ route with index := 0 }], []⟩, own.getD r.defaults⟩ :=
    congrArg Router.Change.router hchange
  refine ⟨congrArg Router.Change.failure hchange, by rw [hrouter]; rfl, fun request => ⟨?_, ?_⟩⟩
  · intro values format hspells
    have haccepts := (accept?_isSome_iff hroute).mpr ⟨values, format, hspells⟩
    obtain ⟨found, haccept⟩ := Option.isSome_iff_exists.mp haccepts
    obtain ⟨values', format', hspells', rfl⟩ := exists_of_accept? hsorted hverbatim hroute haccept
    obtain ⟨rfl, rfl⟩ := hspells.unique hspells'
    have haccept' : Route.accept? { route with index := 0 } request = _ := haccept
    rw [hrouter, Router.matchRequest, Table.findRoute, haccept']
  · intro hnone
    have haccept : Route.accept? { route with index := 0 } request = none := by
      have hsome := mt (accept?_isSome_iff hroute).mp hnone
      exact Option.not_isSome_iff_eq_none.mp hsome
    rw [hrouter, Router.matchRequest, Table.findRoute, haccept]
    rfl

/-- Defaults for a parameter of the path, for one that the path does not give and for another. -/
theorem matchRequest_catchAll_defaults :
    Sorted [("action", "index"), ("format", ""), ("lang", "de")] ∧
    (∀ e ∈ [("action", "index"), ("format", ""), ("lang", "de")], IsVerbatim e.2.toList) ∧
    Spells 2 ["blog".toList, "show".toList] none "/blog/show".toList ∧
    (Router.new.prepareWithDefaults [("action", "index"), ("format", ""), ("lang", "de")]
        [.route .catchAll [] none]).router.matchRequest ⟨"/blog/show", "get", "http://", "", []⟩ =
      ⟨some 0, [("action", "show"), ("controller", "blog"), ("format", ""), ("lang", "de")]⟩ := by
  have hsorted : Sorted [("action", "index"), ("format", ""), ("lang", "de")] := by
    unfold Entries.Sorted
    decide
  have hverbatim : ∀ e ∈ [("action", "index"), ("format", ""), ("lang", "de")],
      IsVerbatim e.2.toList := by simp [IsVerbatim]
  have hspells : Spells 2 ["blog".toList, "show".toList] none "/blog/show".toList :=
    ⟨by decide, by decide, by decide, by simp, by decide⟩
  have hmatch := (@matchRequest_catchAll Router.new
    (some [("action", "index"), ("format", ""), ("lang", "de")]) hsorted hverbatim).2.2
      ⟨"/blog/show", "get", "http://", "", []⟩
  exact ⟨hsorted, hverbatim, hspells, (hmatch.1 _ _ hspells).trans (by decide)⟩

end Signpost.CatchAll
