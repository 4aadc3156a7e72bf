import Signpost.Proofs.Template.Chain

/-! # Addresses that lead back

The address of a named route whose path is a template has the values for the placeholders written
into the template. A request for that address is matched by the route and gives the values back,
when neither a seam, a slash nor the end of a placeholder is ambiguous.
-/
namespace Signpost.Template
open Entries Placeholder Scope

/-- A request for the text that the values make is accepted, with the values as parameters, when
every placeholder ends where a segment does. -/
theorem Capturing.exists_accept? {chain : List Declaration} {params : List (String × String)}
    {defaults : Params} {route : Route} (h : Capturing chain params)
    (hdelimited : Delimited (tokens (template chain)))
    (hroute : Route.ofScope (ofChain (.root defaults :: chain)) params defaults none = .ok route)
    {value : String → String}
    (hvalue : ∀ name ∈ names (tokens (template chain)), IsSegment (value name).toList)
    {request : Request}
    (hpath : request.path = String.ofList (filled value (tokens (template chain)))) :
    ∃ found, route.accept? request = some found ∧
      ∀ name ∈ names (tokens (template chain)), find? name found = some (value name) := by
  have hfits := fits_filled h.anonymous_notMem hvalue
  have hchars : request.path.toList = filled value (tokens (template chain)) := by
    rw [hpath, String.toList_ofList]
  rw [← hchars] at hfits
  obtain ⟨found, haccept⟩ := Option.isSome_iff_exists.mp
    ((h.isSome_accept?_iff hroute).mpr ⟨_, hfits⟩)
  obtain ⟨values, hcaptured, hfound⟩ := h.exists_values hroute haccept
  refine ⟨found, haccept, fun name hname => ?_⟩
  obtain ⟨k, text, hk, htext, hfind⟩ := hfound name hname
  rw [Fits.unique hdelimited hcaptured hfits, List.getElem?_map, hk] at htext
  cases htext
  rw [hfind, String.ofList_toList]

/-- What a template of nested literal fragments needs for its addresses to lead back: placeholders
are its only groups, none spans a seam or is anonymous, building an address drops no slash, every
placeholder ends where a segment does, and no parameter but its own has its name. -/
structure Linkable (chain : List Declaration) (params : List (String × String)) : Prop where
  literal : ∀ d ∈ chain, IsLiteral d
  ungrouped : ∀ d ∈ chain, '(' ∉ fragment d
  seamed : Seamed chain
  named : ¬ [':', ':'] <:+: template chain
  apart : ¬ ['/', '/'] <:+: template chain
  nonempty : template chain ≠ []
  trimmed : (template chain).getLast? = some '/' → template chain = ['/']
  delimited : Delimited (tokens (template chain))
  kept : ∀ name ∈ names (tokens (template chain)),
    KeepsPlaceholder chain name ∧ ∀ p ∈ params, p.1 ≠ name

namespace Linkable
variable {chain : List Declaration} {params : List (String × String)} {defaults : Params}
  {route : Route} {value : String → String}

theorem capturing (h : Linkable chain params) : Capturing chain params where
  literal := h.literal
  ungrouped := h.ungrouped
  seamed := h.seamed
  named := h.named
  nonempty := h.nonempty
  kept := h.kept

theorem finishPath_filled (h : Linkable chain params)
    (hvalue : ∀ name ∈ names (tokens (template chain)), IsSegment (value name).toList) :
    Link.finishPath (filled value (tokens (template chain))) =
      filled value (tokens (template chain)) := by
  have hfits := fits_filled h.capturing.anonymous_notMem hvalue
  have hwritten := flatMap_written_tokens (template chain)
  have happart : Apart (filled value (tokens (template chain))) :=
    hfits.apart (hwritten.symm ▸ apart_of_not_within h.apart)
  refine finishPath_eq_self happart (fun hempty => ?_) fun hlast => ?_
  · have hnil := hfits.tokens_eq_nil hempty
    rw [hnil] at hwritten
    exact h.nonempty hwritten.symm
  · have hslash := hfits.getLast?_written hlast
    rw [hwritten] at hslash
    rw [h.trimmed hslash, tokens_cons_of_none (atStart?_singleton '/'), tokens_nil]
    rfl

theorem exists_segments (h : Linkable chain params)
    (hroute : Route.ofScope (ofChain (.root defaults :: chain)) params defaults none = .ok route)
    (hvalue : ∀ name ∈ names (tokens (template chain)), IsSegment (value name).toList) :
    ∃ segments, route.segments = .ok segments ∧
      ∀ source : LinkSource,
        (∀ name ∈ names (tokens (template chain)), source.text? name = some (value name)) →
        source.residual (names (tokens (template chain))) = [] →
        Link.build segments source [] = String.ofList (filled value (tokens (template chain))) := by
  obtain ⟨segments, hsegments, hbuild⟩ := h.capturing.exists_segments hroute
  refine ⟨segments, hsegments, fun source hsource hrest => ?_⟩
  rw [hbuild source value hsource hrest, h.finishPath_filled hvalue]

end Linkable

/-- The address of a route on nested literal fragments leads back to it: on the router of that
route alone, the address for an assignment of segments to the placeholders can be built, and a
request for it gets the route and the assigned values. -/
theorem url_leads_back (r : Router) (chain : List Declaration) (params : List (String × String))
    (defaults : Params) (name : String) (route : Route) (value : String → String)
    (source : LinkSource) (h : Linkable chain params)
    (hroute : Route.ofScope (ofChain (.root defaults :: chain)) params defaults none = .ok route)
    (hvalue : ∀ n ∈ names (tokens (template chain)), IsSegment (value n).toList)
    (hsource : ∀ n ∈ names (tokens (template chain)), source.text? n = some (value n))
    (hrest : source.residual (names (tokens (template chain))) = []) :
    let change := r.prepareWithDefaults defaults [.nest chain (.route .listed params (some name))]
    change.failure = none ∧ change.router.size = 1 ∧
      ∃ url, change.router.url name source = .ok url ∧
        ∀ request : Request, request.path = url →
          ∃ found, change.router.matchRequest request = ⟨some 0, found⟩ ∧
            ∀ n ∈ names (tokens (template chain)), find? n found = some (value n) := by
  obtain ⟨segments, hsegments, hbuild⟩ := h.exists_segments hroute hvalue
  rw [Router.prepare_nest r name hroute hsegments]
  refine ⟨rfl, rfl, Link.build segments source [], ?_, fun request hpath => ?_⟩
  · rw [Router.url, Router.generate, Router.namedRoute?, Table.named?, find?_cons, if_pos rfl]
    change Route.link _ source [] = _
    simp only [Route.link, hsegments]
  · rw [hbuild source hsource hrest] at hpath
    obtain ⟨found, haccept, hfound⟩ := h.capturing.exists_accept? h.delimited hroute hvalue hpath
    refine ⟨found, ?_, hfound⟩
    have hnamed : Route.accept? { route with index := 0, name := some name } request =
        some found := haccept
    rw [Router.matchRequest, Table.findRoute, hnamed]

/-- A name that ends at a dot, a level without a path, and an outer parameter that a placeholder
inside takes over. -/
theorem url_leads_back_nested :
    let chain : List Declaration :=
      [⟨[(.path, .literal "/:user/posts")], [("id", "none")], by decide⟩, ⟨[], [], by decide⟩,
        ⟨[(.path, .literal "/:id.json")], [], by decide⟩]
    let change := Router.new.prepareWithDefaults Router.initialDefaults
      [.nest chain (.route .listed [("view", "wide")] (some "post"))]
    ∃ url, change.router.url "post" (.texts [("id", "7"), ("user", "ada")]) = .ok url ∧
      ∀ request : Request, request.path = url →
        ∃ found, change.router.matchRequest request = ⟨some 0, found⟩ ∧
          find? "user" found = some "ada" ∧ find? "id" found = some "7" := by
  intro chain
  have hliteral : ∀ d ∈ chain, IsLiteral d := by simp [chain, IsLiteral]
  have hnames : names (tokens (template chain)) = ["user", "id"] := by decide +kernel
  have huser : KeepsPlaceholder chain "user" := by
    intro outer d inner heq _ _ e he
    have hfree : ∀ e ∈ chain, ∀ p ∈ e.params, p.1 ≠ "user" := by decide
    exact hfree e (by rw [heq]; exact List.mem_append_right _ he)
  have hid : KeepsPlaceholder chain "id" := by
    rintro (_ | ⟨e', outer⟩) d inner heq hname _ e he
    · rw [declares_iff (hliteral d (by rw [heq]; simp)), ← (List.cons.inj heq).1] at hname
      exact absurd hname (by decide +kernel)
    · have hfree : ∀ e ∈ chain.tail, ∀ p ∈ e.params, p.1 ≠ "id" := by decide
      exact hfree e (by rw [heq]; exact List.mem_append_right _ he)
  have h : Linkable chain [("view", "wide")] :=
    { literal := hliteral
      ungrouped := by decide
      seamed := by
        rintro (_ | ⟨e, outer⟩) d inner heq houter hd
        · exact absurd rfl houter
        · have hall : ∀ d ∈ chain.tail, fragment d = [] ∨ (fragment d).head? = some '/' := by
            decide
          have hmem : d ∈ chain.tail := by rw [heq]; simp
          exact (hall d hmem).resolve_left hd
      named := by decide +kernel
      apart := by decide +kernel
      nonempty := by decide
      trimmed := by decide
      delimited := by decide +kernel
      kept := by
        rw [hnames]
        simp [huser, hid] }
  have hne : ∃ d ∈ .root Router.initialDefaults :: chain, fragment d ≠ [] := by decide
  obtain ⟨route, hroute⟩ := exists_route (isLiteral_root hliteral) hne [("view", "wide")]
    Router.initialDefaults none (by decide +kernel) (by decide +kernel)
  obtain ⟨-, -, url, hurl, hmatch⟩ :=
    url_leads_back Router.new chain [("view", "wide")] Router.initialDefaults "post" route
      (fun n => if n = "id" then "7" else "ada") (.texts [("id", "7"), ("user", "ada")]) h hroute
      (by rw [hnames]; simp [IsSegment, endsSegment])
      (by rw [hnames]; simp [LinkSource.text?, find?_cons]) (by rw [hnames]; rfl)
  refine ⟨url, hurl, fun request hpath => ?_⟩
  obtain ⟨found, hfound, hvalues⟩ := hmatch request hpath
  rw [hnames] at hvalues
  exact ⟨found, hfound, hvalues "user" (by decide), hvalues "id" (by decide)⟩

end Signpost.Template
