import Mathlib.Algebra.GroupWithZero.Nat
import Mathlib.Data.List.Induction
import Signpost.Proofs.Entries
import Signpost.Scope

/-! # Scopes as chains of declarations

The levels of a scope come from declarations, outermost first. Its path is what the path conditions
of the levels join to, and a placeholder is found where the innermost level that has it puts it.
-/
namespace Signpost
open Entries

instance : Std.LawfulEqOrd Field where
  compare_self {f} := by
    change (compare f.rank f.rank).then (compare f.name f.name) = .eq
    rw [Std.compare_self, Std.compare_self]
    rfl
  eq_of_compare {f g} h := by
    change (compare f.rank g.rank).then (compare f.name g.name) = .eq at h
    obtain ⟨hrank, hname⟩ := Ordering.then_eq_eq.mp h
    rw [Std.compare_eq_iff_eq] at hrank hname
    cases f <;> cases g <;> simp_all [Field.rank, Field.name]

instance : Std.TransOrd Field :=
  inferInstanceAs (Std.TransCmp (compareLex (compareOn Field.rank) (compareOn Field.name)))

/-- What one level of a scope declares: a map of conditions, and parameters. -/
structure Declaration where
  conditions : Conditions
  params : List (String × String)
  sorted : Sorted conditions

def Declaration.level (d : Declaration) : Level := Level.declare d.conditions d.params

def Declaration.ofPath (text : String) : Declaration :=
  ⟨[(.path, .literal text)], [], List.pairwise_singleton _ _⟩

/-- The scope that declarations nested in one another make. -/
def Scope.ofChain (chain : List Declaration) : Scope := chain.map Declaration.level

namespace Level

theorem kept_sorted {conditions : Conditions} (h : Sorted conditions) : Sorted (kept conditions) :=
  h.sublist List.filter_sublist

theorem declare_conditions_sorted {conditions : Conditions} (h : Sorted conditions)
    (params : List (String × String)) : Sorted (declare conditions params).conditions :=
  List.pairwise_map.mpr (kept_sorted h)

theorem declare_placeholders_sorted (conditions : Conditions) (params : List (String × String)) :
    Sorted (declare conditions params).placeholders :=
  sorted_ofList _

theorem find?_kept {conditions : Conditions} (h : Sorted conditions) (field : Field) :
    find? field (kept conditions) =
      (find? field conditions).filter fun p => !isEmptyPath field (p.source field) :=
  h.find?_filter _ field

theorem find?_declare_conditions (conditions : Conditions) (params : List (String × String))
    (field : Field) :
    find? field (declare conditions params).conditions =
      (find? field (kept conditions)).map (condition field) :=
  find?_map field condition (kept conditions)

end Level

namespace Scope

/-- The path fragment of a level. -/
def pathText? (pick : Condition → List Char) (l : Level) : Option (List Char) :=
  (find? .path l.conditions).map pick

/-- Puts a fragment behind the path that the levels outside make. -/
def joinTo : Option (List Char) → List Char → List Char
  | none, text => text
  | some head, text => joinFragments head text

def pathFrom (pick : Condition → List Char) (head : Option (List Char)) :
    Scope → Option (List Char)
  | [] => head
  | l :: rest =>
    match pathText? pick l with
    | some text => pathFrom pick (some (joinTo head text)) rest
    | none => pathFrom pick head rest

theorem pathFrom_append (pick : Condition → List Char) (head : Option (List Char)) (s t : Scope) :
    pathFrom pick head (s ++ t) = pathFrom pick (pathFrom pick head s) t := by
  induction s generalizing head with
  | nil => rfl
  | cons l s ih =>
    simp only [List.cons_append, pathFrom]
    split <;> exact ih _

theorem find?_path_mergeCondition (merged : Entries Field (List Char)) (field : Field)
    (text : List Char) :
    find? .path (mergeCondition merged field text) =
      if field = .path then some (joinTo (find? .path merged) text) else find? .path merged := by
  by_cases hf : field = .path
  · subst hf
    rw [if_pos rfl]
    cases hm : find? Field.path merged with
    | none => simp [mergeCondition, hm, joinTo]
    | some head => simp [mergeCondition, hm, joinTo]
  · rw [if_neg hf]
    unfold mergeCondition
    split
    · exact absurd rfl hf
    · exact find?_insert_of_ne (Ne.symm hf) text merged

theorem find?_path_foldl (pick : Condition → List Char) {conditions : Entries Field Condition}
    (h : Sorted conditions) (merged : Entries Field (List Char)) :
    find? .path (conditions.foldl (fun merged (field, c) => mergeCondition merged field (pick c))
        merged) =
      match find? .path conditions with
      | some c => some (joinTo (find? .path merged) (pick c))
      | none => find? .path merged := by
  induction conditions generalizing merged with
  | nil => rfl
  | cons e rest ih =>
    rw [List.foldl_cons, ih h.tail, find?_path_mergeCondition, find?_cons]
    by_cases hf : e.1 = .path
    · have hnone : find? .path rest = none :=
        find?_eq_none_of_lt fun e' he' => hf ▸ (List.pairwise_cons.mp h).1 e' he'
      rw [hnone, if_pos hf, if_pos hf.symm]
    · rw [if_neg hf, if_neg (Ne.symm hf)]

theorem find?_path_merge (pick : Condition → List Char) {s : Scope}
    (h : ∀ l ∈ s, Sorted l.conditions) :
    find? .path (merge pick s) = pathFrom pick none s := by
  suffices hs : ∀ merged : Entries Field (List Char),
      find? .path (s.foldl (fun merged l => l.conditions.foldl
        (fun merged (field, c) => mergeCondition merged field (pick c)) merged) merged) =
      pathFrom pick (find? .path merged) s from hs []
  induction s with
  | nil => exact fun _ => rfl
  | cons l s ih =>
    intro merged
    obtain ⟨hl, hs⟩ := List.forall_mem_cons.mp h
    rw [List.foldl_cons, ih hs, find?_path_foldl pick hl, pathFrom, pathText?]
    cases find? Field.path l.conditions <;> rfl

theorem ofChain_sorted (chain : List Declaration) : ∀ l ∈ ofChain chain, Sorted l.conditions := by
  intro l hl
  obtain ⟨d, -, rfl⟩ := List.mem_map.mp hl
  exact Level.declare_conditions_sorted d.sorted d.params

def groups (s : Scope) : Nat := (s.map Level.pathGroups).sum

theorem countGroups_joinFragments (head tail : List Char) :
    Placeholder.countGroups (joinFragments head tail) =
      Placeholder.countGroups head + Placeholder.countGroups tail := by
  unfold joinFragments Placeholder.countGroups
  rw [List.count_append]
  congr 1
  · split
    · rename_i hlast
      obtain ⟨front, rfl⟩ := List.getLast?_eq_some_iff.mp hlast
      simp
    · rfl
  · split
    · rename_i hhead
      obtain ⟨back, rfl⟩ := List.head?_eq_some_iff.mp hhead
      simp
    · rfl

theorem countGroups_pathFrom (head : Option (List Char)) (s : Scope) :
    Placeholder.countGroups ((pathFrom Condition.source head s).getD []) =
      Placeholder.countGroups (head.getD []) + groups s := by
  induction s generalizing head with
  | nil => rfl
  | cons l s ih =>
    simp only [pathFrom, pathText?, groups, List.map_cons, List.sum_cons, Level.pathGroups]
    cases find? Field.path l.conditions with
    | none =>
      simp only [Option.map_none, Nat.zero_add]
      exact ih head
    | some c =>
      simp only [Option.map_some]
      rw [ih, Option.getD_some]
      cases head with
      | none => simp [joinTo, groups, Placeholder.countGroups]
      | some head =>
        simp only [joinTo, countGroups_joinFragments, groups, Option.getD_some]
        omega

theorem placeholdersFrom_append (before : Nat) (merged : Entries String (Field × Nat))
    (s t : Scope) :
    placeholdersFrom before merged (s ++ t) =
      placeholdersFrom (before + groups s) (placeholdersFrom before merged s) t := by
  induction s generalizing before merged with
  | nil => rfl
  | cons l s ih =>
    simp only [List.cons_append, placeholdersFrom, groups, List.map_cons, List.sum_cons]
    rw [ih, Nat.add_assoc]
    rfl

theorem find?_placeholders_concat (s : Scope) {l : Level} (h : Sorted l.placeholders)
    (name : String) :
    find? name (placeholders (s ++ [l])) =
      ((find? name l.placeholders).map (shift (groups s))).or (find? name (placeholders s)) := by
  rw [placeholders, placeholdersFrom_append, placeholdersFrom, placeholdersFrom,
    find?_extend_sorted _ _ (h.mapValues _), find?_mapValues, Nat.zero_add]
  rfl

/-- A placeholder is where the innermost level that has it puts it. -/
theorem exists_level_of_placeholder {s : Scope} (hs : ∀ l ∈ s, Sorted l.placeholders)
    {name : String} {place : Field × Nat} (h : find? name s.placeholders = some place) :
    ∃ outer l inner place', s = outer ++ l :: inner ∧
      (∀ l' ∈ inner, find? name l'.placeholders = none) ∧
      find? name l.placeholders = some place' ∧ shift (groups outer) place' = place := by
  induction s using List.reverseRecOn with
  | nil => cases h
  | append_singleton s l ih =>
    rw [find?_placeholders_concat s (hs l (by simp))] at h
    cases hl : find? name l.placeholders with
    | some place' =>
      rw [hl] at h
      exact ⟨s, l, [], place', rfl, by simp, hl, Option.some.inj h⟩
    | none =>
      rw [hl] at h
      obtain ⟨outer, l', inner, place', rfl, hinner, hfound, hshift⟩ :=
        ih (fun e he => hs e (List.mem_append_left _ he)) h
      refine ⟨outer, l', inner ++ [l], place', by simp, ?_, hfound, hshift⟩
      exact List.forall_mem_append.mpr ⟨hinner, List.forall_mem_singleton.mpr hl⟩

end Scope

end Signpost
