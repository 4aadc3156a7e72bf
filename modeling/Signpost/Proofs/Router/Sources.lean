import Signpost.Proofs.Router.Residual

/-! # Sources of addresses

An address asks its source for the texts of placeholders and for what they leave over, and sources
that agree on both make the same addresses. Pairs of a name and a text, and the maps that are built
from them, agree: a later pair of a name counts, and what is left over is a map in any case.
-/
namespace Signpost
open Entries Query

namespace LinkSource

/-- The sources have the same texts and leave the same over. -/
structure SameAs (source source' : LinkSource) : Prop where
  text? : ∀ name, source.text? name = source'.text? name
  residual : ∀ used, source.residual used = source'.residual used

end LinkSource

open LinkSource

theorem Link.build_congr {source source' : LinkSource} (h : source.SameAs source')
    (segments : List Segment) (fallback : QueryMap) :
    build segments source fallback = build segments source' fallback := by
  rw [build, build, path_congr fun name _ => h.text? name, h.residual]

theorem Router.generate_congr {source source' : LinkSource} (h : source.SameAs source')
    (r : Router) (name : String) (fallback : QueryMap) :
    r.generate name source fallback = r.generate name source' fallback := by
  rw [generate, generate]
  cases r.namedRoute? name with
  | none => rfl
  | some route =>
    change route.link source fallback = route.link source' fallback
    rw [Route.link, Route.link]
    cases route.segments with
    | error reason => rfl
    | ok segments => exact congrArg Except.ok (Link.build_congr h segments fallback)

namespace LinkSource
variable {pairs : List (String × String)}

def valued (pairs : List (String × String)) : List (String × Value) :=
  pairs.map fun e => (e.1, .text e.2)

theorem ofList_valued (pairs : List (String × String)) :
    Entries.ofList (valued pairs) = (Entries.ofList pairs).mapValues Value.text :=
  (mapValues_extend Value.text [] pairs).symm

theorem text?_pairs (entries : List (String × Value)) (name : String) :
    (LinkSource.pairs entries).text? name =
      (find? name (Entries.ofList entries)).map Value.pathText := by
  rw [text?, lookup_eq_find?, find?_ofList]

theorem residual_pairs (pairs : List (String × String)) (used : List String) :
    (LinkSource.pairs (valued pairs)).residual used =
      (Entries.ofList (valued pairs)).filter fun e => !used.contains e.1 := by
  have htexts : ((valued pairs).filter fun e => !used.contains e.1).map
      (fun e => (e.1, Value.text e.2.pathText)) =
        (valued pairs).filter fun e => !used.contains e.1 := by
    refine (List.map_congr_left fun e he => ?_).trans (List.map_id _)
    obtain ⟨⟨name, text⟩, -, rfl⟩ := List.mem_map.mp (List.mem_of_mem_filter he)
    rw [Value.pathText, id]
  change Entries.ofList (((valued pairs).filter fun e => !used.contains e.1).map
    fun e => (e.1, Value.text e.2.pathText)) = _
  rw [htexts, ofList_filter_key fun name => !used.contains name]

theorem sameAs_map (pairs : List (String × String)) :
    (LinkSource.map (Entries.ofList (valued pairs))).SameAs (.pairs (valued pairs)) :=
  ⟨fun name => (text?_pairs _ name).symm, fun used => (residual_pairs pairs used).symm⟩

theorem sameAs_hashed {entries : List (String × Value)} {m : QueryMap} (hm : Sorted m)
    (h : entries.Perm m) : (hashed entries).SameAs (.map m) := by
  constructor
  · intro name
    change (entries.lookup name).map Value.pathText = (find? name m).map Value.pathText
    rw [lookup_eq_find?, hm.find?_of_perm h]
  · intro used
    exact Sorted.ofList_of_perm (hm.filter _) (h.filter _)

theorem sameAs_texts (pairs : List (String × String)) :
    (LinkSource.texts (Entries.ofList pairs)).SameAs
      (.map (Entries.ofList (valued pairs))) := by
  rw [ofList_valued]
  constructor
  · intro name
    change find? name (Entries.ofList pairs) = (find? name (mapValues _ _)).map Value.pathText
    rw [find?_mapValues, Option.map_map]
    cases find? name (Entries.ofList pairs) with
    | none => rfl
    | some text => rw [Option.map_some, Function.comp_apply, Value.pathText]
  · intro used
    change mapValues Value.text ((Entries.ofList pairs).filter fun e => !used.contains e.1) =
      (mapValues Value.text (Entries.ofList pairs)).filter fun e => !used.contains e.1
    rw [mapValues, mapValues, List.filter_map]
    rfl

theorem SameAs.trans {source source' source'' : LinkSource} (h : source.SameAs source')
    (h' : source'.SameAs source'') : source.SameAs source'' :=
  ⟨fun name => (h.text? name).trans (h'.text? name),
    fun used => (h.residual used).trans (h'.residual used)⟩

end LinkSource

namespace Router

/-- Pairs of a name and a text, in which a name may occur again, make the address that each map makes
that is built from them with later pairs in the place of earlier ones: the map of their values, the
same map without an order, and the map of their texts. -/
theorem generate_sources_agree (r : Router) (name : String) (pairs : List (String × String))
    {entries : List (String × Value)} (hentries : entries.Perm (Entries.ofList (valued pairs)))
    (fallback : QueryMap) :
    r.generate name (.map (Entries.ofList (valued pairs))) fallback =
        r.generate name (.pairs (valued pairs)) fallback ∧
      r.generate name (hashed entries) fallback =
        r.generate name (.pairs (valued pairs)) fallback ∧
      r.generate name (.texts (Entries.ofList pairs)) fallback =
        r.generate name (.pairs (valued pairs)) fallback := by
  have hmap := sameAs_map pairs
  have hhashed := (sameAs_hashed (sorted_ofList _) hentries).trans hmap
  have htexts := (sameAs_texts pairs).trans hmap
  exact ⟨generate_congr hmap r name fallback, generate_congr hhashed r name fallback,
    generate_congr htexts r name fallback⟩

/-- A name that occurs twice, once in the path and once behind it. -/
theorem generate_sources_agree_repeated :
    let pairs := [("id", "1"), ("tag", "a"), ("id", "2"), ("sort", "b"), ("tag", "c")]
    let entries := [("tag", Value.text "c"), ("id", .text "2"), ("sort", .text "b")]
    let chain : List Declaration := [⟨[(.path, .literal "/items/:id")], [], by decide⟩]
    let r := (new.prepareWithDefaults initialDefaults
      [.nest chain (.route .listed [] (some "item"))]).router
    entries.Perm (Entries.ofList (valued pairs)) ∧
      r.generate "item" (.pairs (valued pairs)) [] = .ok "/items/2?sort=b&tag=c" ∧
      r.generate "item" (hashed entries) [] = .ok "/items/2?sort=b&tag=c" := by
  intro pairs entries chain r
  have hsorted : Entries.ofList (valued pairs) =
      [("id", .text "2"), ("sort", .text "b")] ++ [("tag", .text "c")] := by rfl
  have hperm : entries.Perm (Entries.ofList (valued pairs)) := by
    rw [hsorted]
    exact (List.perm_append_comm : ([("tag", Value.text "c")] ++ _).Perm _)
  have hliteral : ∀ d ∈ .root initialDefaults :: chain, Template.IsLiteral d :=
    Template.isLiteral_root (by simp [chain, Template.IsLiteral])
  obtain ⟨route, hroute⟩ := Template.exists_route hliteral (by decide) [] initialDefaults
    none (by decide +kernel) (by decide +kernel)
  have hlisted : route.segments = .ok [.literal "/items/", .placeholder "id"] :=
    (Template.segments_of_ofScope hroute).trans (by decide +kernel)
  have hrouter : r = _ := congrArg Change.router (prepare_nest new "item" hroute hlisted)
  have hpairs : r.generate "item" (.pairs (valued pairs)) [] = .ok "/items/2?sort=b&tag=c" := by
    have hbuild : Link.build [.literal "/items/", .placeholder "id"] (.pairs (valued pairs)) [] =
        "/items/2?sort=b&tag=c" := by decide +kernel
    rw [hrouter]
    change Route.link _ _ _ = _
    rw [Route.link]
    simp only [hlisted, hbuild]
  obtain ⟨-, hhashed, -⟩ := generate_sources_agree r "item" pairs hperm []
  exact ⟨hperm, hpairs, hhashed.trans hpairs⟩

end Router

end Signpost
