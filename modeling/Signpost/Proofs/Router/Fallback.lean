import Signpost.Proofs.Router.Sources

/-! # Fallback values

An address asks the fallback values for those placeholders of its route that are no key of its
source, and for nothing else. What stands behind its first question mark comes from the source
alone, as long as its path has no question mark of its own.
-/
namespace Signpost
open Entries Query

namespace LinkSource

/-- The source is a map with these keys, in one of the forms that a map can have. -/
inductive HasKeys : LinkSource → List String → Prop where
  | map (entries : QueryMap) : HasKeys (.map entries) (entries.map Prod.fst)
  | texts (entries : Params) : HasKeys (.texts entries) (entries.map Prod.fst)
  | pairs (entries : List (String × Value)) : HasKeys (.pairs entries) (entries.map Prod.fst)
  | hashed (entries : List (String × Value)) : HasKeys (hashed entries) (entries.map Prod.fst)

theorem HasKeys.text?_eq_none_iff {source : LinkSource} {keys : List String}
    (h : source.HasKeys keys) (name : String) : source.text? name = none ↔ name ∉ keys := by
  cases h with
  | map entries => rw [text?, Option.map_eq_none_iff, find?_eq_none_iff_notMem]
  | texts entries => rw [text?, find?_eq_none_iff_notMem]
  | pairs entries =>
    rw [text?, Option.map_eq_none_iff, lookup_eq_find?, find?_eq_none_iff_notMem,
      List.map_reverse, List.mem_reverse]
  | hashed entries =>
    change (entries.lookup name).map Value.pathText = none ↔ _
    rw [Option.map_eq_none_iff, lookup_eq_find?, find?_eq_none_iff_notMem]

end LinkSource

namespace Link
variable {segments : List Segment} {source : LinkSource} {fallback fallback' : QueryMap}

/-- What follows the first question mark of an address, if it has one. -/
def query? (address : String) : Option String :=
  match address.toList.dropWhile (· ≠ '?') with
  | [] => none
  | _ :: query => some (String.ofList query)

theorem query?_of_notMem {address : String} (h : '?' ∉ address.toList) :
    query? address = none := by
  have hnone : address.toList.dropWhile (· ≠ '?') = [] := by
    rw [List.dropWhile_eq_nil_iff]
    exact fun c hc => decide_eq_true fun hmark : c = '?' => h (hmark ▸ hc)
  rw [query?, hnone]

theorem query?_append {left : String} (h : '?' ∉ left.toList) (right : String) :
    query? (left ++ ("?" ++ right)) = some right := by
  have hdrop : (left ++ ("?" ++ right)).toList.dropWhile (· ≠ '?') = '?' :: right.toList := by
    have hleft : ∀ c ∈ left.toList, decide (c ≠ '?') = true :=
      fun c hc => decide_eq_true fun hmark => h (hmark ▸ hc)
    rw [String.toList_append, String.toList_append, List.dropWhile_append_of_pos hleft]
    rfl
  rw [query?, hdrop]
  exact congrArg some String.ofList_toList

/-- The text of a segment comes from the fallback values only for a placeholder that the source has
no text for. -/
theorem segmentText_fallback {s : Segment}
    (h : ∀ name, s = .placeholder name → source.text? name = none →
      fallback.find? name = fallback'.find? name) :
    segmentText source fallback s = segmentText source fallback' s := by
  cases s with
  | literal text => rfl
  | placeholder name =>
    rw [segmentText, segmentText]
    cases htext : source.text? name with
    | some text => rfl
    | none => rw [h name rfl htext]

theorem path_fallback
    (h : ∀ name ∈ placeholderNames segments, source.text? name = none →
      fallback.find? name = fallback'.find? name) :
    path segments source fallback = path segments source fallback' := by
  have htexts : segments.map (segmentText source fallback) =
      segments.map (segmentText source fallback') := by
    refine List.map_congr_left fun s hs => segmentText_fallback fun name hname => h name ?_
    exact mem_placeholderNames.mpr (hname ▸ hs)
  rw [path, path, htexts]

theorem build_fallback
    (h : ∀ name ∈ placeholderNames segments, source.text? name = none →
      fallback.find? name = fallback'.find? name) :
    build segments source fallback = build segments source fallback' := by
  rw [build, build, path_fallback h]

theorem query?_build (h : '?' ∉ (path segments source fallback).toList) :
    query? (build segments source fallback) =
      if (source.residual (placeholderNames segments)).isEmpty then none
      else some (encode (source.residual (placeholderNames segments))) := by
  rw [build]
  split
  · rw [String.append_empty]
    exact query?_of_notMem h
  · exact query?_append h _

end Link

namespace Router
open Link LinkSource

def placeholders (r : Router) (name : String) : List String :=
  match (r.namedRoute? name).map Route.segments with
  | some (.ok segments) => placeholderNames segments
  | _ => []

theorem placeholders_of_named {r : Router} {name : String} {route : Route}
    {segments : List Segment} (hnamed : r.namedRoute? name = some route)
    (hsegments : route.segments = .ok segments) :
    r.placeholders name = placeholderNames segments := by
  rw [placeholders, hnamed, Option.map_some, hsegments]

theorem generate_of_named {r : Router} {name : String} {route : Route} {segments : List Segment}
    (hnamed : r.namedRoute? name = some route) (hsegments : route.segments = .ok segments)
    (source : LinkSource) (fallback : QueryMap) :
    r.generate name source fallback = .ok (build segments source fallback) := by
  rw [generate, hnamed]
  simp only [Route.link, hsegments]

/-- Two addresses of a name are the same, whatever router comes of any calls, if their fallback
values agree on those placeholders of the named route that are no key of the source. The query is
the same for all fallback values that leave the path without a question mark. -/
theorem generate_fallback (calls : List Call) (name : String) {source : LinkSource}
    {keys : List String} (hkeys : source.HasKeys keys) :
    (∀ fallback fallback' : QueryMap,
      (∀ n ∈ (after calls).placeholders name, n ∉ keys → fallback.find? n = fallback'.find? n) →
        (after calls).generate name source fallback =
          (after calls).generate name source fallback') ∧
    (name ∈ (after calls).routeNames → ∃ route segments query,
      (after calls).namedRoute? name = some route ∧ route.segments = .ok segments ∧
        ∀ fallback : QueryMap, '?' ∉ (path segments source fallback).toList →
          ∃ address, (after calls).generate name source fallback = .ok address ∧
            query? address = query) := by
  by_cases hname : name ∈ (after calls).routeNames
  · obtain ⟨p, position, segments, -, hnamed, -, -, hsegments⟩ := exists_named hname
    constructor
    · intro fallback fallback' hsame
      rw [placeholders_of_named hnamed hsegments] at hsame
      rw [generate_of_named hnamed hsegments, generate_of_named hnamed hsegments]
      refine congrArg Except.ok (build_fallback fun n hn htext => hsame n hn ?_)
      exact (hkeys.text?_eq_none_iff n).mp htext
    · exact fun _ => ⟨_, segments, _, hnamed, hsegments, fun fallback hpath =>
        ⟨_, generate_of_named hnamed hsegments source fallback, query?_build hpath⟩⟩
  · refine ⟨fun fallback fallback' _ => ?_, fun h => absurd h hname⟩
    -- a name that the router does not have is refused before any value is looked up
    have hnone : (after calls).namedRoute? name = none := by
      rw [mem_routeNames_iff, not_not] at hname
      rw [namedRoute?, Table.named?, hname]
    rw [generate, generate, hnone]

/-- A placeholder that occurs twice and has an empty text of its own, one that is left to the fallback
values, and fallback values for other names. -/
theorem generate_fallback_of_repeated :
    let chain : List Declaration := [⟨[(.path, .literal "/:tag/items/:id/:tag")], [], by decide⟩]
    let calls : List Call :=
      [.prepareWithDefaults initialDefaults [.nest chain (.route .listed [] (some "item"))]]
    let source : LinkSource := .pairs [("tag", .text "a"), ("sort", .text "b"), ("tag", .text "")]
    let fallback : QueryMap := [("id", .text "7"), ("sort", .text "x"), ("tag", .text "?")]
    let fallback' : QueryMap := [("id", .text "7"), ("token", .text "?")]
    source.HasKeys ["tag", "sort", "tag"] ∧
      (∀ n ∈ (after calls).placeholders "item", n ∉ ["tag", "sort", "tag"] →
        fallback.find? n = fallback'.find? n) ∧
      (after calls).generate "item" source fallback =
        (after calls).generate "item" source fallback' ∧
      (after calls).generate "item" source fallback = .ok "/items/7?sort=b" ∧
      "item" ∈ (after calls).routeNames ∧
      ∃ address, (after calls).generate "item" source [] = .ok address ∧
        query? address = query? "/items/7?sort=b" := by
  intro chain calls source fallback fallback'
  have hliteral : ∀ d ∈ .root initialDefaults :: chain, Template.IsLiteral d :=
    Template.isLiteral_root (by simp [chain, Template.IsLiteral])
  obtain ⟨route, hroute⟩ := Template.exists_route hliteral (by decide) [] initialDefaults
    none (by decide +kernel) (by decide +kernel)
  have hlisted : route.segments = .ok [.literal "/", .placeholder "tag", .literal "/items/",
      .placeholder "id", .literal "/", .placeholder "tag"] :=
    (Template.segments_of_ofScope hroute).trans (by decide +kernel)
  have hafter : after calls = _ := (after_prepareWithDefaults _ _).trans
    (congrArg Change.router (prepare_nest new "item" hroute hlisted))
  have hkeys : source.HasKeys ["tag", "sort", "tag"] := .pairs _
  have hname : "item" ∈ (after calls).routeNames := by
    rw [hafter]
    exact List.mem_singleton.mpr rfl
  obtain ⟨hsame, hquery⟩ := generate_fallback calls "item" hkeys
  obtain ⟨named, segments, query, hnamed, hsegments, hqueries⟩ := hquery hname
  obtain rfl : segments = [.literal "/", .placeholder "tag", .literal "/items/",
      .placeholder "id", .literal "/", .placeholder "tag"] := by
    rw [hafter] at hnamed
    cases hnamed
    exact Except.ok.inj (hsegments.symm.trans hlisted)
  have hagree : ∀ n ∈ (after calls).placeholders "item", n ∉ ["tag", "sort", "tag"] →
      fallback.find? n = fallback'.find? n := by
    rw [placeholders_of_named hnamed hsegments]
    simp [placeholderNames, fallback, fallback', find?_cons]
  have haddress : (after calls).generate "item" source fallback = .ok "/items/7?sort=b" := by
    rw [generate_of_named hnamed hsegments]
    refine congrArg Except.ok ?_
    decide +kernel
  obtain ⟨hpath, hplain⟩ :
      path [.literal "/", .placeholder "tag", .literal "/items/", .placeholder "id", .literal "/",
          .placeholder "tag"] source fallback = "/items/7" ∧
        path [.literal "/", .placeholder "tag", .literal "/items/", .placeholder "id",
          .literal "/", .placeholder "tag"] source [] = "/items" := by decide +kernel
  obtain ⟨address, hgenerate, hsort⟩ := hqueries fallback (by rw [hpath]; decide)
  obtain ⟨other, hother, hnone⟩ := hqueries [] (by rw [hplain]; decide)
  rw [haddress] at hgenerate
  cases hgenerate
  exact ⟨hkeys, hagree, hsame _ _ hagree, haddress, hname, other, hother, hnone.trans hsort.symm⟩

end Router

end Signpost
