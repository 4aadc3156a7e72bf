import Signpost.Proofs.Link.Path
import Signpost.Proofs.Query.Reencode
import Signpost.Proofs.Router.History
import Signpost.Proofs.Template.Chain

/-! # Parameters behind an address

The path of an address takes from the parameters the values that the placeholders of its route
name, and looks at no others. The others stand behind the first question mark, and are read back
from there.
-/
namespace Signpost
open Entries Query

theorem Query.ordered_filter {m : QueryMap} (h : (Value.map m).Ordered)
    (keep : String × Value → Bool) : (Value.map (m.filter keep)).Ordered := by
  obtain ⟨hsorted, hvalues⟩ := ordered_map.mp h
  exact ordered_map.mpr ⟨hsorted.filter keep, fun e he => hvalues e (List.mem_filter.mp he).1⟩

theorem Query.Canonical.decode_encode {m : QueryMap} (hm : Canonical m)
    (h : (Value.map m).Ordered) : decode (encode m) = .ok m := by
  obtain ⟨hsorted, hvalues⟩ := ordered_map.mp h
  have hplaced : placeAll (Value.leaves.mapLeaves m) (some (.map [])) = some (some (.map m)) ↔
      ∀ e ∈ m, e.2.Rebuilt := placeAll_mapLeaves_eq_iff hsorted hm.nonempty
  refine hm.nameable.decode_encode_iff.mpr (hplaced.mpr fun e he => ?_)
  refine (rebuilt_iff (hm.nonempty e he) (hvalues e he)).mpr ?_
  exact (all_splitsItems_iff (hm.nonempty e he)).mpr ⟨hm.lists_apart e he, hm.maps_apart e he⟩

namespace Link
variable {segments : List Segment} {source source' : LinkSource} {fallback : QueryMap} {c : Char}

theorem notMem_path (hc : c ≠ '/')
    (h : ∀ s ∈ segments, c ∉ (segmentText source fallback s).toList) :
    c ∉ (path segments source fallback).toList := by
  intro hmem
  rw [path, String.toList_ofList] at hmem
  rcases mem_of_mem_finishPath hmem with hmem | rfl
  · rw [String.toList_join, List.mem_flatMap] at hmem
    obtain ⟨text, htext, hmem⟩ := hmem
    obtain ⟨s, hs, rfl⟩ := List.mem_map.mp htext
    exact h s hs hmem
  · exact hc rfl

theorem mem_placeholderNames {name : String} :
    name ∈ placeholderNames segments ↔ .placeholder name ∈ segments := by
  rw [placeholderNames, List.mem_filterMap]
  constructor
  · rintro ⟨_ | n, hs, hn⟩
    · cases hn
    · cases hn
      exact hs
  · exact fun hs => ⟨_, hs, rfl⟩

theorem path_congr
    (h : ∀ name ∈ placeholderNames segments, source.text? name = source'.text? name) :
    path segments source fallback = path segments source' fallback := by
  have htexts : segments.map (segmentText source fallback) =
      segments.map (segmentText source' fallback) := by
    refine List.map_congr_left fun s hs => ?_
    cases s with
    | literal text => rfl
    | placeholder name => simp only [segmentText, h name (mem_placeholderNames.mpr hs)]
  rw [path, path, htexts]

/-- The parameters that no placeholder names. -/
def unused (segments : List Segment) (params : QueryMap) : QueryMap :=
  params.filter fun e => e.1 ∉ placeholderNames segments

theorem residual_map (segments : List Segment) (params : QueryMap) :
    (LinkSource.map params).residual (placeholderNames segments) = unused segments params :=
  List.filter_congr fun e _ => by simp

theorem build_of_unused_eq_nil {params : QueryMap} (h : unused segments params = []) :
    build segments (.map params) fallback = path segments (.map params) fallback := by
  rw [build, residual_map, h]
  exact String.append_empty

theorem build_of_unused_ne_nil {params : QueryMap} (h : unused segments params ≠ []) :
    build segments (.map params) fallback =
      path segments (.map params) fallback ++ "?" ++ encode (unused segments params) := by
  rw [build, residual_map, if_neg (by simpa using h), String.append_assoc]

end Link

namespace Router
open Link

/-- The address of a named route, when neither its texts nor the values in its path have a question
mark. What stands before the first one is the same for all parameters that have the same values for
the placeholders. The other parameters, if there are any, are read back from what follows it. -/
theorem generate_splits_at_mark {calls : List Call} {name : String}
    (hname : name ∈ (after calls).routeNames) :
    ∃ route segments, (after calls).namedRoute? name = some route ∧
      route.segments = .ok segments ∧
      ∀ (params fallback : QueryMap),
        (∀ s ∈ segments, '?' ∉ (segmentText (.map params) fallback s).toList) →
        ∃ left : String, '?' ∉ left.toList ∧
          ∀ others : QueryMap,
            (∀ n ∈ placeholderNames segments, others.find? n = params.find? n) →
            (unused segments others = [] →
              (after calls).generate name (.map others) fallback = .ok left) ∧
            ((Value.map others).Ordered → unused segments others ≠ [] →
              Canonical (unused segments others) →
              ∃ right,
                (after calls).generate name (.map others) fallback = .ok (left ++ "?" ++ right) ∧
                decode right = .ok (unused segments others)) := by
  obtain ⟨p, position, segments, -, hnamed, -, -, hsegments⟩ := exists_named hname
  refine ⟨_, segments, hnamed, hsegments, fun params fallback hmarks =>
    ⟨path segments (.map params) fallback, notMem_path (by decide) hmarks, fun others hsame => ?_⟩⟩
  have hbuild : (after calls).generate name (.map others) fallback =
      .ok (build segments (.map others) fallback) := by
    rw [generate, hnamed]
    simp only [Route.link, hsegments]
  have hpath : path segments (.map others) fallback = path segments (.map params) fallback :=
    path_congr fun n hn => congrArg (Option.map Value.pathText) (hsame n hn)
  rw [hbuild, ← hpath]
  constructor
  · intro hnone
    rw [build_of_unused_eq_nil hnone]
  · intro hordered hsome hcanonical
    refine ⟨encode (unused segments others), ?_, ?_⟩
    · rw [build_of_unused_ne_nil hsome]
    · exact hcanonical.decode_encode (ordered_filter hordered _)

/-- A list in a map behind the path of one placeholder, and a fallback value that is not used. -/
theorem generate_splits_at_mark_of_nested :
    let chain : List Declaration := [⟨[(.path, .literal "/items/:id")], [], by decide⟩]
    let calls : List Call :=
      [.prepareWithDefaults initialDefaults [.nest chain (.route .listed [] (some "item"))]]
    let filter : QueryMap := [("f", .map [("t", .list [.text "a", .text "b"])])]
    "item" ∈ (after calls).routeNames ∧
    ∃ left : String, '?' ∉ left.toList ∧
      (after calls).generate "item" (.map [("id", .text "3")]) [("page", .text "2")] = .ok left ∧
      ∃ right,
        (after calls).generate "item" (.map (filter ++ [("id", .text "3")]))
          [("page", .text "2")] = .ok (left ++ "?" ++ right) ∧
        decode right = .ok filter := by
  have hread : decode "f[t][]=a&f[t][]=b" =
      .ok [("f", .map [("t", .list [.text "a", .text "b"])])] := by decide +kernel
  intro chain calls filter
  have hliteral : ∀ d ∈ .root initialDefaults :: chain, Template.IsLiteral d :=
    Template.isLiteral_root (by simp [chain, Template.IsLiteral])
  obtain ⟨route, hroute⟩ := Template.exists_route hliteral (by decide +kernel) [] initialDefaults
    none (by decide +kernel) (by decide +kernel)
  have hlisted : route.segments = .ok [.literal "/items/", .placeholder "id"] :=
    (Template.segments_of_ofScope hroute).trans (by decide +kernel)
  have hafter : after calls = _ := (after_prepareWithDefaults _ _).trans
    (congrArg Change.router (prepare_nest new "item" hroute hlisted))
  have hname : "item" ∈ (after calls).routeNames := by
    rw [hafter]
    exact List.mem_singleton.mpr rfl
  obtain ⟨named, segments, hnamed, hsegments, hsplits⟩ := generate_splits_at_mark hname
  obtain rfl : segments = [.literal "/items/", .placeholder "id"] := by
    rw [hafter] at hnamed
    cases hnamed
    exact Except.ok.inj (hsegments.symm.trans hlisted)
  have hdecoded : Decoded filter := decoded_of_decode hread
  have hcanonical : Canonical filter :=
    hdecoded.shaped.canonical_iff.mpr (hdecoded.all_splitsItems_iff.mp (by
      simp [filter, Value.all_map, Value.all_list, Value.all_text, SplitsItems, Splits,
        Value.leaves, Value.takesPath]))
  have hordered : (Value.map (filter ++ [("id", .text "3")])).Ordered :=
    ordered_map.mpr ⟨by decide, List.forall_mem_append.mpr ⟨hdecoded.ordered,
      List.forall_mem_singleton.mpr (ordered_text "3")⟩⟩
  have hunused : unused [.literal "/items/", .placeholder "id"]
      (filter ++ [("id", .text "3")]) = filter := rfl
  obtain ⟨left, hleft, hothers⟩ := hsplits [("id", .text "3")] [("page", .text "2")]
    (by simp [segmentText, LinkSource.text?, find?_cons, Value.pathText])
  obtain ⟨hpath, -⟩ := hothers [("id", .text "3")] fun _ _ => rfl
  obtain ⟨-, hquery⟩ := hothers (filter ++ [("id", .text "3")]) (by
    simp [placeholderNames, filter, find?_cons])
  rw [hunused] at hquery
  exact ⟨hname, left, hleft, hpath rfl, hquery hordered (by simp [filter]) hcanonical⟩

end Router

end Signpost
