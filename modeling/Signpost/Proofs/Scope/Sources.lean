import Signpost.Proofs.Scope.Captures

/-! # The conditions of a scope

The conditions of a scope are set one after the other, level by level. On the path each goes on
behind those before it; on any other field the last one counts.
-/
namespace Signpost
open Entries Placeholder

theorem Level.isEmptyPath_of_ne {field : Field} (h : field ≠ .path) (source : String) :
    isEmptyPath field source = false := by
  simp [isEmptyPath, beq_false_of_ne h]

theorem Declaration.find?_kept_of_ne {field : Field} (hfield : field ≠ .path) (d : Declaration) :
    find? field (Level.kept d.conditions) = find? field d.conditions := by
  rw [Level.find?_kept d.sorted]
  cases find? field d.conditions with
  | none => rfl
  | some p => simp [Level.isEmptyPath_of_ne hfield]

/-- The expressions that a level sets, with groups for their placeholders. -/
def Declaration.written (d : Declaration) : Entries Field (List Char) :=
  (Level.kept d.conditions).map fun e => (e.1, spelled (tokens (e.2.source e.1).toList))

theorem Declaration.sorted_written (d : Declaration) : Sorted d.written :=
  List.pairwise_map.mpr (Level.kept_sorted d.sorted)

theorem Declaration.find?_written (d : Declaration) (field : Field) :
    find? field d.written =
      (find? field (Level.kept d.conditions)).map fun p =>
        spelled (tokens (p.source field).toList) :=
  find?_map field (fun field (p : Pattern) => spelled (tokens (p.source field).toList)) _

namespace Scope

def setAll (merged written : Entries Field (List Char)) : Entries Field (List Char) :=
  written.foldl (fun merged e => mergeCondition merged e.1 e.2) merged

theorem foldl_level (merged : Entries Field (List Char)) (d : Declaration) :
    d.level.conditions.foldl (fun merged (field, c) => mergeCondition merged field c.source) merged =
      setAll merged d.written := by
  simp only [Declaration.level, Level.declare, List.foldl_map, Level.condition, substitute_eq,
    setAll, Declaration.written]

theorem sources_concat (chain : List Declaration) (d : Declaration) :
    (ofChain (chain ++ [d])).sources = setAll (ofChain chain).sources d.written := by
  rw [ofChain, List.map_append, sources, merge, List.foldl_append]
  exact foldl_level _ d

theorem exists_mergeCondition_eq (merged : Entries Field (List Char)) (field : Field)
    (text : List Char) : ∃ text', mergeCondition merged field text = merged.insert field text' := by
  unfold mergeCondition
  split
  · exact ⟨_, rfl⟩
  · exact ⟨_, rfl⟩

theorem mergeCondition_of_path_none {merged : Entries Field (List Char)} {field : Field}
    (h : field = .path → find? .path merged = none) (text : List Char) :
    mergeCondition merged field text = merged.insert field text := by
  unfold mergeCondition
  split
  · rename_i hhead
    cases (h rfl).symm.trans hhead
  · rfl

theorem sorted_setAll {merged : Entries Field (List Char)} (h : Sorted merged)
    (written : Entries Field (List Char)) : Sorted (setAll merged written) := by
  induction written generalizing merged with
  | nil => exact h
  | cons e rest ih =>
    obtain ⟨text', heq⟩ := exists_mergeCondition_eq merged e.1 e.2
    have hset : Sorted (mergeCondition merged e.1 e.2) := by
      rw [heq]
      exact h.insert e.1 text'
    exact ih hset

theorem sorted_sources (chain : List Declaration) : Sorted (ofChain chain).sources := by
  induction chain using List.reverseRecOn with
  | nil => exact sorted_nil
  | append_singleton chain d ih =>
    rw [sources_concat]
    exact sorted_setAll ih _

theorem sources_eq_setAll (chain : List Declaration) :
    (ofChain chain).sources = setAll [] (chain.flatMap Declaration.written) := by
  induction chain using List.reverseRecOn with
  | nil => rfl
  | append_singleton chain d ih =>
    rw [sources_concat, ih, List.flatMap_append, setAll, setAll, setAll, List.foldl_append]
    simp

theorem flatMap_written (chain : List Declaration) :
    chain.flatMap Declaration.written =
      (Level.kept (chain.flatMap (·.conditions))).map fun e =>
        (e.1, spelled (tokens (e.2.source e.1).toList)) := by
  simp only [Level.kept, List.filter_flatMap, List.map_flatMap]
  rfl

theorem sources_of_flatMap {chain : List Declaration} {field : Field} {p : Pattern}
    (h : chain.flatMap (·.conditions) = [(field, p)])
    (hp : Level.isEmptyPath field (p.source field) = false) :
    (ofChain chain).sources = [(field, spelled (tokens (p.source field).toList))] := by
  rw [sources_eq_setAll, flatMap_written, h, Level.kept, List.filter_cons, if_pos (by simp [hp])]
  simp only [List.filter_nil, List.map_cons, List.map_nil]
  exact mergeCondition_of_path_none (fun _ => rfl) _

/-- Levels that declare two paths between them make a scope of the one joined to the other. -/
theorem sources_of_flatMap_path {chain : List Declaration} {p q : Pattern}
    (h : chain.flatMap (·.conditions) = [(.path, p), (.path, q)])
    (hp : Level.isEmptyPath .path (p.source .path) = false)
    (hq : Level.isEmptyPath .path (q.source .path) = false) :
    (ofChain chain).sources =
      [(.path, joinFragments (spelled (tokens (p.source .path).toList))
        (spelled (tokens (q.source .path).toList)))] := by
  rw [sources_eq_setAll, flatMap_written, h, Level.kept, List.filter_cons, if_pos (by simp [hp]),
    List.filter_cons, if_pos (by simp [hq])]
  rfl

theorem find?_mergeCondition_of_ne {field : Field} (hfield : field ≠ .path)
    (merged : Entries Field (List Char)) (field' : Field) (text : List Char) :
    find? field (mergeCondition merged field' text) =
      if field' = field then some text else find? field merged := by
  unfold mergeCondition
  split
  · rw [find?_insert_of_ne hfield, if_neg (Ne.symm hfield)]
  · rw [find?_insert]
    simp only [eq_comm]

theorem find?_setAll_of_ne {field : Field} (hfield : field ≠ .path)
    {written : Entries Field (List Char)} (h : Sorted written)
    (merged : Entries Field (List Char)) :
    find? field (setAll merged written) = (find? field written).or (find? field merged) := by
  induction written generalizing merged with
  | nil => rfl
  | cons e rest ih =>
    refine (ih h.tail _).trans ?_
    rw [find?_mergeCondition_of_ne hfield, find?_cons]
    by_cases hf : e.1 = field
    · have hnone : find? field rest = none :=
        find?_eq_none_of_lt fun e' he' => hf ▸ (List.pairwise_cons.mp h).1 e' he'
      rw [hnone, if_pos hf, if_pos hf.symm]
      rfl
    · rw [if_neg hf, if_neg (Ne.symm hf)]

/-- Of the conditions on a field other than the path, the innermost counts. -/
theorem find?_sources_of_ne {field : Field} (hfield : field ≠ .path) {outer inner : List Declaration}
    {d : Declaration} {p : Pattern} (hp : find? field d.conditions = some p)
    (hinner : ∀ e ∈ inner, find? field e.conditions = none) :
    find? field (ofChain (outer ++ d :: inner)).sources =
      some (spelled (tokens (p.source field).toList)) := by
  induction inner using List.reverseRecOn with
  | nil =>
    rw [sources_concat, find?_setAll_of_ne hfield d.sorted_written, d.find?_written,
      d.find?_kept_of_ne hfield, hp]
    rfl
  | append_singleton inner e ih =>
    obtain ⟨hinner, he⟩ := List.forall_mem_append.mp hinner
    rw [← List.cons_append, ← List.append_assoc, sources_concat,
      find?_setAll_of_ne hfield e.sorted_written, e.find?_written, e.find?_kept_of_ne hfield,
      he e (List.mem_singleton_self e)]
    exact ih hinner

end Scope

end Signpost
