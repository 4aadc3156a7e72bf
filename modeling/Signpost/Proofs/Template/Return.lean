import Signpost.Proofs.Template.Chain

/-! # Paths that come back

A route on a template finds the texts of its placeholders in the path of a request that it accepts.
However the path is divided among them, the address for these texts is the path again, without the
slashes that no address has.
-/
namespace Signpost.Template
open Entries Placeholder Scope

theorem eq_map_of_nodup {names : List String} (hnodup : names.Nodup) {values : List (List Char)}
    (hlength : values.length = names.length) {value : String → List Char}
    (h : ∀ name ∈ names, ∃ k : Nat, names[k]? = some name ∧ values[k]? = some (value name)) :
    values = names.map value := by
  apply List.ext_getElem?
  intro i
  by_cases hi : i < names.length
  · obtain ⟨k, hk, hvalue⟩ := h names[i] (List.getElem_mem hi)
    have hlt : k < names.length := (List.getElem?_eq_some_iff.mp hk).1
    -- the text of a name may be known from another place of it, but there is none
    have hki : k = i := by
      apply (List.getElem?_inj hlt hnodup).mp
      rw [hk, List.getElem?_eq_getElem hi]
    rw [← hki, hvalue, List.getElem?_map, hk]
    rfl
  · rw [List.getElem?_eq_none (by omega), List.getElem?_eq_none (by rw [List.length_map]; omega)]

theorem Fits.eq_filled {ts : List Token} {value : String → String} {cs : List Char}
    (h : Fits ts ((names ts).map fun name => (value name).toList) cs)
    (hanonymous : .hole .anonymous ∉ ts) : cs = filled value ts := by
  induction ts generalizing cs with
  | nil =>
    cases h
    rfl
  | cons t ts ih =>
    rw [List.mem_cons, not_or] at hanonymous
    cases t with
    | text c =>
      have hnames : names (.text c :: ts) = names ts := rfl
      rw [hnames] at h
      cases h with
      | text _ h => rw [filled_text, ← ih h hanonymous.2]
    | hole p =>
      cases p with
      | anonymous => exact absurd rfl hanonymous.1
      | named name =>
        have hnames : names (.hole (.named name) :: ts) = String.ofList name :: names ts := rfl
        rw [hnames, List.map_cons] at h
        cases h with
        | hole _ hne hvalue h => rw [filled_named, ← ih h hanonymous.2]

/-- The path of an accepted request is the template with the parameters for its placeholders. -/
theorem Capturing.path_eq_filled {chain : List Declaration} {params : List (String × String)}
    {defaults : Params} {route : Route} {request : Request} {found : Params}
    (h : Capturing chain params) (hdistinct : (names (tokens (template chain))).Nodup)
    (hroute : Route.ofScope (ofChain (.root defaults :: chain)) params defaults none = .ok route)
    (haccept : route.accept? request = some found) :
    ∃ value : String → String,
      (∀ name ∈ names (tokens (template chain)), find? name found = some (value name)) ∧
      request.path.toList = filled value (tokens (template chain)) ∧ request.path.toList ≠ [] := by
  obtain ⟨values, hfits, hfound⟩ := h.exists_values hroute haccept
  let value : String → String := fun name => (find? name found).getD ""
  have hvalues : values =
      (names (tokens (template chain))).map fun name => (value name).toList := by
    apply eq_map_of_nodup hdistinct (hfits.length_eq h.anonymous_notMem)
    intro name hname
    obtain ⟨k, text, hk, htext, hfind⟩ := hfound name hname
    refine ⟨k, hk, ?_⟩
    simp only [value, hfind, Option.getD_some, String.toList_ofList]
    exact htext
  refine ⟨value, fun name hname => ?_, ?_, fun hempty => ?_⟩
  · obtain ⟨k, text, -, -, hfind⟩ := hfound name hname
    simp only [value, hfind, Option.getD_some]
  · rw [hvalues] at hfits
    exact hfits.eq_filled h.anonymous_notMem
  · have hwritten := flatMap_written_tokens (template chain)
    rw [hfits.tokens_eq_nil hempty] at hwritten
    exact h.nonempty hwritten.symm

/-- The address for the parameters of a match is the path that was matched. A named route on
nested literal fragments has its placeholders as parameters, one for each, and its address for
them is the path, with runs of slashes as one and without a slash at the end. -/
theorem url_of_match (r : Router) (chain : List Declaration) (params : List (String × String))
    (defaults : Params) (name : String) (route : Route) (index : Nat) (request : Request)
    (found : Params) (source : LinkSource) (h : Capturing chain params)
    (hdistinct : (names (tokens (template chain))).Nodup)
    (hroute : Route.ofScope (ofChain (.root defaults :: chain)) params defaults none = .ok route)
    (hnamed : r.namedRoute? name = some { route with index, name := some name })
    (haccept : route.accept? request = some found)
    (hsource : ∀ n ∈ names (tokens (template chain)), source.text? n = find? n found)
    (hrest : source.residual (names (tokens (template chain))) = []) :
    (∀ n ∈ names (tokens (template chain)), ∃ value, find? n found = some value) ∧
      r.url name source = .ok (String.ofList (Link.finishPath request.path.toList)) ∧
      (¬ ['/', '/'] <:+: request.path.toList →
        (request.path.toList.getLast? = some '/' → request.path = "/") →
        r.url name source = .ok request.path) := by
  obtain ⟨value, hfound, hpath, hne⟩ := h.path_eq_filled hdistinct hroute haccept
  obtain ⟨segments, hsegments, hbuild⟩ := h.exists_segments hroute
  have hurl : r.url name source =
      .ok (String.ofList (Link.finishPath request.path.toList)) := by
    rw [Router.url, Router.generate, hnamed]
    simp only [Route.link, hsegments]
    rw [hbuild source value (fun n hn => (hsource n hn).trans (hfound n hn)) hrest, hpath]
  refine ⟨fun n hn => ⟨_, hfound n hn⟩, hurl, fun hslashes hlast => ?_⟩
  have hfinish : Link.finishPath request.path.toList = request.path.toList := by
    apply finishPath_eq_self (apart_of_not_within hslashes) hne
    intro hslash
    rw [hlast hslash]
    rfl
  rw [hurl, hfinish, String.ofList_toList]

/-- Placeholders side by side, which share a segment of the path. -/
theorem url_of_match_adjacent :
    let chain : List Declaration :=
      [⟨[(.path, .literal "/:user:tag")], [("view", "wide")], by decide⟩, ⟨[], [], by decide⟩,
        ⟨[(.path, .literal "/:id.json")], [], by decide⟩]
    let change := Router.new.prepareWithDefaults Router.initialDefaults
      [.nest chain (.route .listed [] (some "post"))]
    let request : Request := { path := "/ada/7.json" }
    ∃ found, change.router.matchRequest request = ⟨some 0, found⟩ ∧
      (∃ user tag, find? "user" found = some user ∧ find? "tag" found = some tag) ∧
      change.router.url "post" (.lookup fun n => find? n found) = .ok request.path := by
  intro chain
  let request : Request := { path := "/ada/7.json" }
  have hliteral : ∀ d ∈ chain, IsLiteral d := by simp [chain, IsLiteral]
  have hnames : names (tokens (template chain)) = ["user", "tag", "id"] := by decide +kernel
  have h : Capturing chain [] :=
    { literal := hliteral
      ungrouped := by decide
      seamed := seamed_of_tail (by decide)
      named := by decide +kernel
      nonempty := by decide
      kept := by
        intro name hname
        rw [hnames] at hname
        refine ⟨keepsPlaceholder_of_free ?_, by simp⟩
        have hfree : ∀ n ∈ ["user", "tag", "id"], ∀ e ∈ chain, ∀ p ∈ e.params, p.1 ≠ n := by
          decide
        exact hfree name hname }
  have hne : ∃ d ∈ .root Router.initialDefaults :: chain, fragment d ≠ [] := h.exists_fragment
  obtain ⟨route, hroute⟩ := exists_route (isLiteral_root hliteral) hne []
    Router.initialDefaults none (by decide +kernel) (by decide +kernel)
  let value : String → String := fun n => if n = "user" then "ad" else if n = "tag" then "a" else "7"
  have hpath : request.path.toList = filled value (tokens (template chain)) := by decide +kernel
  have hvalue : ∀ n ∈ names (tokens (template chain)), IsSegment (value n).toList := by
    rw [hnames]
    simp [value, IsSegment, endsSegment]
  have hfits := fits_filled h.anonymous_notMem hvalue
  rw [← hpath] at hfits
  obtain ⟨found, haccept⟩ :=
    Option.isSome_iff_exists.mp ((h.isSome_accept?_iff hroute).mpr ⟨_, hfits⟩)
  obtain ⟨segments, hsegments, -⟩ := h.exists_segments hroute
  have hchange := Router.prepare_nest Router.new "post" hroute hsegments
  have hnamed : (Router.new.prepareWithDefaults Router.initialDefaults
      [.nest chain (.route .listed [] (some "post"))]).router.namedRoute? "post" =
        some { route with index := 0, name := some "post" } := by
    rw [hchange]
    rfl
  obtain ⟨hfound, -, hurl⟩ :=
    url_of_match _ chain [] Router.initialDefaults "post" route 0 request found
      (.lookup fun n => find? n found) h (by rw [hnames]; decide) hroute hnamed haccept
      (fun _ _ => rfl) rfl
  rw [hnames] at hfound
  obtain ⟨user, huser⟩ := hfound "user" (by decide)
  obtain ⟨tag, htag⟩ := hfound "tag" (by decide)
  refine ⟨found, ?_, ⟨user, tag, huser, htag⟩, hurl (by decide +kernel) (by decide)⟩
  have hlisted : Route.accept? { route with index := 0, name := some "post" }
      { path := "/ada/7.json" } = some found := haccept
  rw [hchange]
  simp only [Router.matchRequest, Table.findRoute, hlisted]

end Signpost.Template
