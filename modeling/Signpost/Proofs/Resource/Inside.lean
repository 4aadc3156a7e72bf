import Signpost.Proofs.Resource.Parting
import Signpost.Proofs.Resource.Plural
import Signpost.Proofs.Template.Seams

/-! # Routes inside a resource

A route inside a plural resource stands behind the collection and a placeholder for the member. The
name of that placeholder is made of the singular of the resource's name. When it is a name that a
placeholder can have, the route is reached under every member; otherwise the text behind the colon is
read in another way, and no match has a parameter of that name.
-/
namespace Signpost.Resource
open Entries Placeholder Scope Template Trace

theorem singularize_cases (word : String) :
    (∃ k, (singularize word).toList = word.toList.take k) ∨
      ∃ k < word.toList.length, (singularize word).toList = word.toList.take k ++ ['y'] := by
  rw [singularize]
  split
  · rename_i stem hstem
    right
    rw [stem?] at hstem
    split at hstem
    · rename_i hsuffix
      have hle := (List.isSuffixOf_iff_suffix.mp hsuffix).length_le
      cases hstem
      refine ⟨word.toList.length - 3, ?_, String.toList_ofList⟩
      have hlength : "ies".toList.length = 3 := rfl
      omega
    · cases hstem
  · left
    split
    · exact ⟨_, String.toList_ofList⟩
    · split
      · exact ⟨_, String.toList_ofList⟩
      · exact ⟨word.toList.length, (List.take_length).symm⟩

theorem length_singularize_le (word : String) :
    (singularize word).toList.length ≤ word.toList.length := by
  rcases singularize_cases word with ⟨k, hk⟩ | ⟨k, hlt, hk⟩
  · rw [hk]
    exact List.length_take_le' _ _
  · rw [hk, List.length_append, List.length_take, List.length_singleton]
    omega

theorem mem_of_mem_singularize {word : String} {c : Char} (h : c ∈ (singularize word).toList) :
    c ∈ word.toList ∨ c = 'y' := by
  rcases singularize_cases word with ⟨k, hk⟩ | ⟨k, -, hk⟩
  · rw [hk] at h
    exact Or.inl (List.mem_of_mem_take h)
  · rw [hk, List.mem_append, List.mem_singleton] at h
    exact h.imp_left List.mem_of_mem_take

/-- The name of the parameter for the member around a route. -/
def memberParam (name : String) : String := singularize name ++ "_id"

theorem notMem_memberParam {name : String} {c : Char} (hc : c ∉ name.toList)
    (hfree : c ∉ "y_id".toList) : c ∉ (memberParam name).toList := by
  rw [memberParam, String.toList_append, List.mem_append, not_or]
  refine ⟨fun hmem => ?_, fun hmem => hfree (List.mem_cons_of_mem 'y' hmem)⟩
  rcases mem_of_mem_singularize hmem with hmem | rfl
  · exact hc hmem
  · exact hfree List.mem_cons_self

/-- A name that is one segment of a path and holds no reference. -/
structure SegmentName (name : String) : Prop extends BareName name where
  nonempty : name ≠ ""
  slash : '/' ∉ name.toList
  bracket : '[' ∉ name.toList

/-- A path behind that of a member which is not the path of an action. -/
structure InnerPath (path : String) : Prop extends BareName path where
  slash : path.toList.head? = some '/'
  edit : path ≠ "/edit"

/-- The declarations around a route inside a resource, inside the root. -/
def insideChain (name path : String) : List Declaration :=
  ["/" ++ name, "/:" ++ singularize name ++ "_id", path].map .ofPath

variable {name path : String}

theorem toList_placeholder (name : String) :
    ("/:" ++ singularize name ++ "_id").toList = '/' :: ':' :: (memberParam name).toList := by
  simp [memberParam]

theorem template_insideChain (name path : String) :
    Template.template (insideChain name path) =
      '/' :: (name.toList ++ '/' :: ':' :: ((memberParam name).toList ++ path.toList)) := by
  simp only [Template.template, insideChain, List.map_cons, List.map_nil, List.flatMap_cons,
    List.flatMap_nil, fragment_ofPath, toList_slash, toList_placeholder]
  simp

theorem count_colon_insideChain (hname : BareName name) (hpath : InnerPath path) :
    (Template.template (insideChain name path)).count ':' = 1 := by
  have hparam : ':' ∉ (memberParam name).toList := notMem_memberParam hname.colon (by decide)
  rw [template_insideChain]
  simp [List.count_append, List.count_eq_zero.mpr hname.colon, List.count_eq_zero.mpr hparam,
    List.count_eq_zero.mpr hpath.colon]

theorem capturing_insideChain (hname : BareName name) (hpath : InnerPath path) :
    Capturing (insideChain name path) [] := by
  have htemplate : Template.template (insideChain name path) =
      ["/" ++ name, "/:" ++ singularize name ++ "_id", path].flatMap String.toList := by
    simp [Template.template, insideChain, fragment_ofPath]
  have hopen : '(' ∉ (memberParam name).toList := notMem_memberParam hname.parenthesis (by decide)
  refine capturing_ofPaths ?_ ?_ (fun hpair => ?_) (by simp)
  · intro text htext
    simp only [List.mem_cons, List.not_mem_nil, or_false] at htext
    rcases htext with rfl | rfl | rfl
    · rw [toList_slash]
      simpa using hname.parenthesis
    · rw [toList_placeholder]
      simpa using hopen
    · exact hpath.parenthesis
  · intro text htext
    simp only [List.mem_cons, List.not_mem_nil, or_false] at htext
    rcases htext with rfl | rfl | rfl
    · rw [toList_slash]
      exact Or.inr rfl
    · rw [toList_placeholder]
      exact Or.inr rfl
    · exact Or.inr hpath.slash
  · -- the template has one colon
    have hle := hpair.sublist.count_le ':'
    rw [← htemplate, count_colon_insideChain hname hpath] at hle
    exact absurd hle (by decide)

theorem params_insideChain (name path : String) : ∀ d ∈ insideChain name path, d.params = [] := by
  simp [insideChain, Declaration.ofPath]

def insideBody (path : String) : List Statement :=
  [.within [(.path, .literal path)] [] [.route .listed [] none]]

/-- The router after the declaration of a resource alone, with a route inside it. -/
def declareInside (name path : String) : Router.Change :=
  Router.new.prepare [.resources name {} (insideBody path)]

def insideRoute (name path : String) : Except RouteError Route :=
  Route.ofScope (ofChain (.root Router.initialDefaults :: insideChain name path)) []
    Router.initialDefaults none

theorem mirrors_inside (name path : String) :
    Mirrors (ofStatements Router.initialDefaults
        (memberScope Router.initialDefaults name (resolved name {})) (insideBody path))
      ((insideRoute name path).map fun route => [.listed route]) := by
  rw [insideBody, ofStatements, ofStatements, bind_unit, ofStatement, ofStatements, ofStatements,
    bind_unit, ofStatement]
  exact mirrors_action

/-- A declaration fails with the failure of an address, of an action or of the route inside. -/
theorem exists_error_of_declareInside (hname : SegmentName name) {e : RouteError}
    (hfailure : (declareInside name path).failure = some e) :
    (∃ address ∈ usualAddresses (resolved name {}) name, addressRoute Router.initialDefaults
        (collectionScope Router.initialDefaults name) address = .error e) ∨
      (∃ row ∈ usualRows, Route.ofScope (row.scope name) [("controller", name)]
        Router.initialDefaults none = .error e) ∨
      insideRoute name path = .error e := by
  have houtcome := Router.outcome_of_failure_some hfailure
  have hresolve : resolve (Draft.root Router.initialDefaults) name {} = .ok (resolved name {}) :=
    resolve_root hname.nonempty hname.slash rfl
  rcases error_of_resources hresolve (mirrors_inside name path) houtcome with
    haddress | ⟨s, hs, herror⟩ | hinside
  · exact Or.inl haddress
  · rw [actionScopes_eq] at hs
    obtain ⟨row, hrow, rfl⟩ := List.mem_map.mp hs
    exact Or.inr (Or.inl ⟨row, hrow, herror⟩)
  · exact Or.inr (Or.inr (eq_error_of_map_eq_error hinside))

theorem usualPaths : ∀ path ∈ ["", "/:id", "/new", "/:id/edit", "/:action/:id"],
    '(' ∉ path.toList ∧ (path.toList = [] ∨ path.toList.head? = some '/') ∧
      ¬ [':', ':'] <:+: path.toList ∧
      128 * path.toList.length + 664 * path.toList.count ':' ≤ 3000 := by
  decide +kernel

theorem capturing_usualAddress (hname : BareName name) {r : Resolved} {address : String × String}
    (h : address ∈ usualAddresses r name) : Capturing (addressChain name address.1) [] := by
  obtain ⟨hgroup, hslash, hnamed, -⟩ := usualPaths _ (mem_usualPaths h)
  exact capturing_addressChain hname hgroup hslash hnamed

theorem error_of_declareInside (hname : SegmentName name) (hpath : InnerPath path) {e : RouteError}
    (hfailure : (declareInside name path).failure = some e) :
    ∃ field source, e = .invalidPattern field source .tooLarge := by
  rcases exists_error_of_declareInside hname hfailure with
    ⟨address, haddress, herror⟩ | ⟨row, hrow, herror⟩ | herror
  · obtain ⟨source, rfl⟩ :=
      error_of_addressRoute (capturing_usualAddress hname.toBareName haddress) herror
    exact ⟨_, source, rfl⟩
  · rcases (ready_usual hrow).error_of_ofScope hname.toBareName herror with hcontroller | hlarge
    · rw [compile_unreferenced hname.colon hname.bracket] at hcontroller
      cases hcontroller
    · exact hlarge
  · obtain ⟨source, rfl⟩ := error_of_capturing (capturing_insideChain hname.toBareName hpath)
      (params_insideChain name path) herror
    exact ⟨_, source, rfl⟩

theorem programSize_usualAddress (hname : BareName name) {r : Resolved} {address : String × String}
    (h : address ∈ usualAddresses r name) :
    (pathNode (Placeholder.tokens (Template.template (addressChain name address.1)))).programSize ≤
      3200 + 128 * name.length := by
  obtain ⟨-, -, -, hsize⟩ := usualPaths _ (mem_usualPaths h)
  have hle := programSize_tokens_le (Template.template (addressChain name address.1))
  have htemplate : Template.template (addressChain name address.1) =
      '/' :: (name.toList ++ address.1.toList) := by
    simp [Template.template, addressChain, fragment_ofPath]
  have hcount : (Template.template (addressChain name address.1)).count ':' =
      address.1.toList.count ':' := by
    rw [htemplate]
    simp [List.count_append, List.count_eq_zero.mpr hname.colon]
  rw [hcount, htemplate, List.length_cons, List.length_append, String.length_toList] at hle
  rw [htemplate]
  omega

theorem programSize_inside (hname : BareName name) (hpath : InnerPath path) :
    (pathNode (Placeholder.tokens (Template.template (insideChain name path)))).programSize ≤
      1700 + 128 * (2 * name.length + path.length) := by
  have hle := programSize_tokens_le (Template.template (insideChain name path))
  have hsingular := length_singularize_le name
  have hparam : (memberParam name).toList.length = (singularize name).toList.length + 3 := by
    rw [memberParam, String.toList_append, List.length_append]
    rfl
  rw [count_colon_insideChain hname hpath] at hle
  refine hle.trans ?_
  rw [template_insideChain]
  simp only [List.length_cons, List.length_append, hparam, String.length_toList] at hsingular ⊢
  omega

theorem failure_declareInside (hname : SegmentName name) (hpath : InnerPath path)
    (hlength : 2 * name.length + path.length ≤ 80000) : (declareInside name path).failure = none := by
  have hmax : Regex.Node.maxProgramSize = 10485760 := by decide
  cases hfailure : (declareInside name path).failure with
  | none => rfl
  | some e =>
    exfalso
    rcases exists_error_of_declareInside hname hfailure with
      ⟨address, haddress, herror⟩ | ⟨row, hrow, herror⟩ | herror
    · have hsize := programSize_usualAddress hname.toBareName haddress
      obtain ⟨route, hroute⟩ := exists_addressRoute address.2
        (capturing_usualAddress hname.toBareName haddress) (by omega)
      rw [hroute] at herror
      cases herror
    · have hsum := sum_size_usualRows row hrow
      have hsize := programSize_under_le name row.form.pieces
      obtain ⟨route, hroute⟩ := (ready_usual hrow).exists_ofScope hname.toBareName
        (compile_unreferenced hname.colon hname.bracket _ _) (by omega) (programSize_usual hrow)
      rw [hroute] at herror
      cases herror
    · have hsize := programSize_inside hname.toBareName hpath
      obtain ⟨route, hroute⟩ := exists_of_capturing (capturing_insideChain hname.toBareName hpath)
        (params_insideChain name path) (by omega)
      rw [insideRoute, hroute] at herror
      cases herror

theorem exists_routes_inside (hname : SegmentName name)
    (hfailure : (declareInside name path).failure = none) :
    ∃ routes route, List.Forall₂ (Row.Served name name) usualRows routes ∧
      insideRoute name path = .ok route ∧
      (declareInside name path).router.table.routes = Table.renumber 0 (routes ++ [route]) := by
  have houtcome := Router.outcome_of_failure hfailure
  have hresolve : resolve (Draft.root Router.initialDefaults) name {} = .ok (resolved name {}) :=
    resolve_root hname.nonempty hname.slash rfl
  obtain ⟨extra, routes, usual, more, -, hroutes, -, hmore, hplacings⟩ :=
    placings_of_resources hresolve (mirrors_inside name path) houtcome
  obtain ⟨route, hroute, rfl⟩ := exists_of_map_eq_ok hmore
  rw [actionScopes_eq] at hroutes
  refine ⟨routes, route, served_of_actions hname.toBareName (fun _ => ready_usual) hroutes, hroute,
    ?_⟩
  have htable : (declareInside name path).router.table =
      Table.empty.placeAll
        (extra.map .detached ++ (routes.map .listed ++ usual.map .detached) ++ [.listed route]) := by
    rw [declareInside, Router.prepare, (Router.change_of_ok houtcome _).2]
    exact congrArg Table.empty.placeAll hplacings
  rw [htable, Table.routes_placeAll, Placing.listedRoutes_append, listedRoutes_resource]
  rfl

theorem InnerPath.ne_extension (h : InnerPath path) (format : Option (List Char)) :
    path.toList ≠ Path.extension format := by
  intro heq
  have hslash := h.slash
  rw [heq] at hslash
  cases format <;> cases hslash

theorem not_takes_inside (hpath : InnerPath path) {id : List Char} (hid : IsSegment id)
    {request : Request}
    (hrequest : request.path.toList = '/' :: (name.toList ++ '/' :: (id ++ path.toList)))
    {row : Row} (hrow : row ∈ usualRows) : ¬ row.Takes name request := by
  rintro ⟨⟨found, rest, hfits, hrest⟩, -⟩
  have heq : '/' :: (id ++ path.toList) = rest :=
    List.append_cancel_left (List.cons.inj (hrequest.symm.trans hrest)).2
  subst heq
  have hends : ∀ c, path.toList.head? = some c → endsSegment c = true := by
    intro c hc
    rw [hpath.slash] at hc
    cases hc
    decide
  have hparts : Parts ('/' :: (id ++ path.toList)) id path.toList := ⟨rfl, hid, hends⟩
  -- behind the segment stands the inner path, which ends the path of no action
  have hmember : ¬ Path.Fits 0 memberForm.pieces found ('/' :: (id ++ path.toList)) := by
    intro hfits
    obtain ⟨format, htail, -⟩ := hparts.of_fits_member hfits
    exact hpath.ne_extension format htail
  have hform : row.form ∈ pluralForms := List.mem_map_of_mem (f := Row.form) hrow
  simp only [pluralForms, List.mem_cons, List.not_mem_nil, or_false] at hform
  rcases hform with hform | hform | hform | hform | hform | hform | hform | hform <;>
    rw [hform] at hfits
  · exact hparts.not_fits_collection hfits
  · obtain ⟨-, format, htail⟩ := hparts.of_fits_index hfits
    exact hpath.ne_extension format htail
  · obtain ⟨-, htail⟩ := hparts.of_fits_new hfits
    exact hpath.ne_extension none htail
  · exact hparts.not_fits_collection hfits
  · exact hmember hfits
  · obtain ⟨-, htail | htail⟩ := hparts.of_fits_memberAction hfits
    · exact hpath.edit (String.toList_inj.mp htail)
    · have hslash := hpath.slash
      rw [htail] at hslash
      cases hslash
  · exact hmember hfits
  · exact hmember hfits

theorem matchRequest_inside (hname : SegmentName name) (hpath : InnerPath path)
    (hfailure : (declareInside name path).failure = none) {id : List Char} (hid : IsSegment id)
    {request : Request}
    (hrequest : request.path.toList = '/' :: (name.toList ++ '/' :: (id ++ path.toList))) :
    ∃ route, insideRoute name path = .ok route ∧
      (declareInside name path).router.matchRequest request =
        match route.accept? request with
        | some params => ⟨some 8, params⟩
        | none => ⟨none, []⟩ := by
  obtain ⟨routes, route, hserved, hroute, hroutes⟩ := exists_routes_inside hname hfailure
  have hrows : ∀ row ∈ usualRows, ¬ row.Takes name request :=
    fun _ => not_takes_inside hpath hid hrequest
  have haccept : Route.accept? { route with index := 8 } request = route.accept? request := rfl
  refine ⟨route, hroute, ?_⟩
  rw [Router.matchRequest, hroutes, findRoute_append hserved hrows,
    show 0 + usualRows.length = 8 from rfl, Table.renumber, Table.renumber, Table.findRoute, haccept]
  cases route.accept? request <;> rfl

theorem tokens_insideChain (hname : BareName name) (hpath : InnerPath path)
    (hparam : IsName (memberParam name).toList) :
    Placeholder.tokens (Template.template (insideChain name path)) =
      ('/' :: (name.toList ++ ['/'])).map .text ++
        .hole (.named (memberParam name).toList) :: path.toList.map .text := by
  have htext : ∀ {cs : List Char}, ':' ∉ cs → Placeholder.tokens cs = cs.map .text :=
    fun hcolon => tokens_of_first?_none (first?_of_notMem hcolon)
  have hcollection : ':' ∉ '/' :: name.toList := by simpa using hname.colon
  have hopen := tokens_open hparam []
  rw [List.append_nil, List.takeWhile_nil, List.append_nil, List.dropWhile_nil, tokens_nil] at hopen
  rw [← chainTokens_eq (capturing_insideChain hname hpath).seamed]
  simp only [insideChain, chainTokens, List.map_cons, List.map_nil, List.flatMap_cons,
    List.flatMap_nil, fragment_ofPath, toList_slash, toList_placeholder, htext hcollection,
    htext hpath.colon, tokens_cons_of_none (atStart?_of_ne (c := '/') (by decide) _), hopen]
  simp

theorem isName_of_mem_names {cs : List Char} {param : String}
    (h : param ∈ names (Placeholder.tokens cs)) : IsName param.toList :=
  exists_of_named_mem_tokens (mem_names_iff.mp h)

theorem isName_of_mem_params (hname : BareName name) (hpath : InnerPath path) {e : String × String}
    (he : e ∈ (ofChain (.root Router.initialDefaults :: insideChain name path)).params) :
    IsName e.1.toList := by
  rcases mem_params (capturing_insideChain hname hpath) (params_insideChain name path) he with
    ⟨hnamed, -⟩ | hdefault
  · exact isName_of_mem_names hnamed
  · rw [Router.initialDefaults, List.mem_singleton] at hdefault
    rw [hdefault]
    exact ⟨'a', "ction".toList, rfl, by decide, by decide⟩

theorem find?_inside_eq_none (hname : BareName name) (hpath : InnerPath path) {route : Route}
    (hroute : insideRoute name path = .ok route) {request : Request} {found : Params}
    (haccept : route.accept? request = some found) {param : String}
    (hparam : ¬ IsName param.toList) : find? param found = none := by
  obtain ⟨outputs, houtputs, heq⟩ :=
    (capturing_insideChain hname hpath).accept?_eq hroute request
  rw [heq] at haccept
  obtain ⟨c, -, rfl⟩ := Option.map_eq_some_iff.mp haccept
  refine Route.find?_paramsOf_eq_none houtputs ?_ _
  rw [find?_extend, List.reverse_nil, find?_nil, Option.none_or]
  exact find?_eq_none fun e he heq => hparam (heq ▸ isName_of_mem_params hname hpath he)

/-- When the parameter can be a placeholder, the route accepts the path behind that of a member. -/
theorem exists_accept?_inside (hname : BareName name) (hpath : InnerPath path)
    (hparam : IsName (memberParam name).toList) {route : Route}
    (hroute : insideRoute name path = .ok route) {id : String} (hid : IsSegment id.toList)
    {request : Request}
    (hrequest : request.path.toList = '/' :: (name.toList ++ '/' :: (id.toList ++ path.toList))) :
    ∃ found, route.accept? request = some found ∧ find? (memberParam name) found = some id := by
  have htokens := tokens_insideChain hname hpath hparam
  have hdelimited :
      Delimited (Placeholder.tokens (Template.template (insideChain name path))) := by
    obtain ⟨rest, hrest⟩ := List.head?_eq_some_iff.mp hpath.slash
    have hbehind := @delimited_map_text [] path.toList trivial
    rw [List.append_nil] at hbehind
    rw [htokens]
    refine delimited_map_text _ ⟨?_, hbehind⟩
    rw [hrest]
    rintro _ ⟨⟩
    decide
  have hfilled : request.path = String.ofList
      (filled (fun _ => id) (Placeholder.tokens (Template.template (insideChain name path)))) := by
    rw [← String.toList_inj, String.toList_ofList, hrequest, htokens, filled_append, filled_map_text,
      filled_named, filled_map_text]
    simp
  have hmem : memberParam name ∈
      names (Placeholder.tokens (Template.template (insideChain name path))) := by
    rw [mem_names_iff, htokens]
    simp
  obtain ⟨found, haccept, hfound⟩ := (capturing_insideChain hname hpath).exists_accept? hdelimited
    hroute (fun _ _ => hid) hfilled
  exact ⟨found, haccept, hfound _ hmem⟩

/-- A route at a literal path inside a plural resource alone. The declaration fails only if a program
is too large, and not for names and paths of moderate length. A request for the path behind that of a
member gets the route with the member as the parameter of the resource's singular, if that is a name
that a placeholder can have, and never if it is not. -/
theorem reached_inside_iff (name path : String) (hname : SegmentName name) (hpath : InnerPath path) :
    let change := Router.new.prepare
      [.resources name {} [.within [(.path, .literal path)] [] [.route .listed [] none]]]
    let param := singularize name ++ "_id"
    (∀ e, change.failure = some e → ∃ field source, e = .invalidPattern field source .tooLarge) ∧
    (2 * name.length + path.length ≤ 80000 → change.failure = none) ∧
    (change.failure = none → ∀ (id : String) (request : Request), IsSegment id.toList →
      request.path = "/" ++ name ++ "/" ++ id ++ path →
      ((∃ found, change.router.matchRequest request = ⟨some 8, found⟩ ∧
        find? param found = some id) ↔ IsName param.toList)) := by
  intro change param
  refine ⟨fun e => error_of_declareInside hname hpath, failure_declareInside hname hpath,
    fun hfailure id request hid hrequest => ?_⟩
  have hchars : request.path.toList =
      '/' :: (name.toList ++ '/' :: (id.toList ++ path.toList)) := by
    rw [hrequest]
    simp
  obtain ⟨route, hroute, hmatch⟩ := matchRequest_inside hname hpath hfailure hid hchars
  have hanswer : change.router.matchRequest request = _ := hmatch
  rw [hanswer]
  constructor
  · rintro ⟨found, hfound, hparam⟩
    by_contra hnone
    cases haccept : route.accept? request with
    | none =>
      rw [haccept] at hfound
      cases hfound
    | some params =>
      rw [haccept] at hfound
      cases hfound
      rw [find?_inside_eq_none hname.toBareName hpath hroute haccept hnone] at hparam
      cases hparam
  · intro hparam
    obtain ⟨found, haccept, hfound⟩ :=
      exists_accept?_inside hname.toBareName hpath hparam hroute hid hchars
    rw [haccept]
    exact ⟨found, rfl, hfound⟩

theorem innerPath_x : InnerPath "/x" := ⟨⟨by decide, by decide⟩, by decide, by decide⟩

/-- A singular with another ending than the plural, and a member that looks like a placeholder. -/
theorem reached_inside_iff_boxes :
    let change := Router.new.prepare
      [.resources "boxes" {} [.within [(.path, .literal "/x")] [] [.route .listed [] none]]]
    SegmentName "boxes" ∧ InnerPath "/x" ∧ IsSegment ":b(1)".toList ∧ change.failure = none ∧
      ∃ found, change.router.matchRequest { path := "/boxes/:b(1)/x" } = ⟨some 8, found⟩ ∧
        find? "box_id" found = some ":b(1)" := by
  have hname : SegmentName "boxes" := ⟨⟨by decide, by decide⟩, by decide, by decide, by decide⟩
  have hid : IsSegment ":b(1)".toList := by decide
  obtain ⟨-, hshort, hreached⟩ := reached_inside_iff "boxes" "/x" hname innerPath_x
  have hfailure := hshort (by decide)
  have hfound := hreached hfailure ":b(1)" { path := "/boxes/:b(1)/x" } hid (by decide)
  exact ⟨hname, innerPath_x, hid, hfailure,
    hfound.mpr ⟨'b', "ox_id".toList, by decide, by decide, by decide⟩⟩

/-- The placeholder ends at the hyphen, and the request does not hold the text behind it. -/
theorem missed_inside_blogPosts :
    let change := Router.new.prepare
      [.resources "blog-posts" {} [.within [(.path, .literal "/x")] [] [.route .listed [] none]]]
    change.failure = none ∧
      change.router.matchRequest { path := "/blog-posts/5/x" } = ⟨none, []⟩ := by
  have hname : SegmentName "blog-posts" :=
    ⟨⟨by decide, by decide⟩, by decide, by decide, by decide⟩
  have hfailure := failure_declareInside hname innerPath_x (by decide)
  obtain ⟨route, hroute, hmatch⟩ := matchRequest_inside hname innerPath_x hfailure
    (show IsSegment "5".toList by decide) (show
      ({ path := "/blog-posts/5/x" } : Request).path.toList = _ by decide)
  have hmissed : route.accept? { path := "/blog-posts/5/x" } = none := by
    rw [← Option.not_isSome_iff_eq_none,
      (capturing_insideChain hname.toBareName innerPath_x).isSome_accept?_iff hroute]
    rintro ⟨values, hfits⟩
    exact absurd hfits.length_le (by decide +kernel)
  rw [hmissed] at hmatch
  exact ⟨hfailure, hmatch⟩

end Signpost.Resource
