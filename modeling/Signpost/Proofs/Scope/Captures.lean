import Mathlib.Data.List.Basic
import Signpost.Proofs.Placeholder
import Signpost.Proofs.Scope.Chain

/-! # Groups of the path

A placeholder of the path is listed with the number of its group in the path of the whole scope.
The group with that number begins where the fragment's token stood, whatever the levels around it
add and whichever anchors are dropped between them.
-/
namespace Signpost
open Entries Placeholder

theorem exists_of_flatMap_eq_append {α β : Type} {f : α → List β} {l : List α} {x : β}
    {before after : List β} (h : l.flatMap f = before ++ x :: after) :
    ∃ front a back before' after', l = front ++ a :: back ∧ f a = before' ++ x :: after' ∧
      after = after' ++ back.flatMap f := by
  induction l generalizing before with
  | nil => simp at h
  | cons a l ih =>
    rw [List.flatMap_cons] at h
    rcases List.append_eq_append_iff.mp h with ⟨rest, rfl, hrest⟩ | ⟨rest, ha, hrest⟩
    · obtain ⟨front, a', back, before', after', rfl, ha', hafter⟩ := ih hrest
      exact ⟨a :: front, a', back, before', after', rfl, ha', hafter⟩
    · cases rest with
      | nil =>
        obtain ⟨front, a', back, before', after', rfl, ha', hafter⟩ := @ih [] hrest.symm
        exact ⟨a :: front, a', back, before', after', rfl, ha', hafter⟩
      | cons y rest =>
        obtain ⟨rfl, hafter⟩ := List.cons.inj hrest
        exact ⟨[], a, l, before, rest, rfl, ha, hafter⟩

def Declaration.Declares (d : Declaration) (name : String) : Prop :=
  ∃ e ∈ d.conditions, .hole (.named name.toList) ∈ tokens (e.2.source e.1).toList

theorem Level.found_eq (field : Field) (p : Pattern) :
    found field p =
      (marks 0 (tokens (p.source field).toList)).map fun m => (m.1, (field, m.2)) := by
  rw [found, substitute_eq]

theorem Level.placeholders_declare (conditions : Conditions) (params : List (String × String)) :
    (declare conditions params).placeholders =
      ofList ((kept conditions).flatMap fun e => found e.1 e.2) := rfl

/-- A text in which a placeholder is found is not one of those that stand for no path. -/
theorem Level.isEmptyPath_of_first?_ne_none {field : Field} {source : String}
    (h : first? source.toList ≠ none) : isEmptyPath field source = false := by
  have htext : ∀ text : String, first? text.toList = none → source ≠ text := by
    rintro text hnone rfl
    exact h hnone
  have hempty := htext "" (by decide)
  have hanchors := htext "^$" (by decide)
  simp [isEmptyPath, hempty, hanchors]

theorem Declaration.mem_kept {d : Declaration} {e : Field × Pattern} {name : List Char}
    (he : e ∈ d.conditions) (hname : .hole (.named name) ∈ tokens (e.2.source e.1).toList) :
    e ∈ Level.kept d.conditions := by
  have hfound : first? (e.2.source e.1).toList ≠ none := by
    intro hnone
    rw [tokens_of_first?_none hnone] at hname
    simp at hname
  refine List.mem_filter.mpr ⟨he, ?_⟩
  simp [Level.isEmptyPath_of_first?_ne_none hfound]

theorem Declaration.exists_mem_found_iff {d : Declaration} {name : String} :
    (∃ place, (name, place) ∈ (Level.kept d.conditions).flatMap fun e => Level.found e.1 e.2) ↔
      d.Declares name := by
  constructor
  · rintro ⟨place, hplace⟩
    obtain ⟨e, he, hfound⟩ := List.mem_flatMap.mp hplace
    rw [Level.found_eq] at hfound
    obtain ⟨⟨name', group⟩, hmark, heq⟩ := List.mem_map.mp hfound
    simp only [Prod.mk.injEq] at heq
    obtain ⟨rfl, rfl⟩ := heq
    obtain ⟨ms, ms', hms⟩ := List.append_of_mem hmark
    obtain ⟨front, back, htokens, -⟩ := exists_hole_of_marks hms
    exact ⟨e, (List.mem_filter.mp he).1, by simp [htokens]⟩
  · rintro ⟨e, he, hname⟩
    obtain ⟨group, hgroup⟩ := mem_marks_of_hole 0 hname
    rw [String.ofList_toList] at hgroup
    refine ⟨(e.1, group), List.mem_flatMap.mpr ⟨e, mem_kept he hname, ?_⟩⟩
    rw [Level.found_eq]
    exact List.mem_map.mpr ⟨_, hgroup, rfl⟩

theorem Declaration.not_declares {d : Declaration} {name : String}
    (h : find? name d.level.placeholders = none) : ¬ d.Declares name := by
  intro hd
  obtain ⟨place, hplace⟩ := exists_mem_found_iff.mpr hd
  rw [level, Level.placeholders_declare, find?_ofList] at h
  exact ne_of_find?_eq_none h _ (List.mem_reverse.mpr hplace) rfl

theorem Declaration.exists_token {d : Declaration} {name : String} {field : Field} {group : Nat}
    (h : find? name d.level.placeholders = some (field, group)) :
    ∃ p front back, find? field (Level.kept d.conditions) = some p ∧
      tokens (p.source field).toList = front ++ .hole (.named name.toList) :: back ∧
      .hole (.named name.toList) ∉ back ∧ group = countGroups (spelled front) + 1 := by
  rw [level, Level.placeholders_declare] at h
  obtain ⟨before, after, hfound, hafter⟩ := eq_append_of_find?_ofList h
  obtain ⟨_, ⟨field', p⟩, _, _, after', hkept, he, rfl⟩ := exists_of_flatMap_eq_append hfound
  rw [Level.found_eq] at he
  obtain ⟨ms, rest, hms, -, hrest⟩ := List.map_eq_append_iff.mp he
  obtain ⟨⟨name', group'⟩, ms', rfl, hm, rfl⟩ := List.map_eq_cons_iff.mp hrest
  simp only [Prod.mk.injEq] at hm
  obtain ⟨rfl, rfl, rfl⟩ := hm
  obtain ⟨front, back, htokens, hgroup, rfl⟩ := exists_hole_of_marks hms
  have hmem : (field', p) ∈ Level.kept d.conditions := by simp [hkept]
  refine ⟨p, front, back, (Level.kept_sorted d.sorted).find?_of_mem hmem, htokens, ?_, ?_⟩
  · intro hback
    obtain ⟨group, hg⟩ := mem_marks_of_hole group' hback
    rw [String.ofList_toList] at hg
    exact hafter _ (List.mem_append_left _ (List.mem_map.mpr ⟨_, hg, rfl⟩)) rfl
  · rw [hgroup, Nat.zero_add]

theorem Level.find?_of_kept {conditions : Conditions} (h : Sorted conditions) {field : Field}
    {p : Pattern} (hp : find? field (kept conditions) = some p) :
    find? field conditions = some p := by
  rw [find?_kept h] at hp
  exact (Option.filter_eq_some_iff.mp hp).1

namespace Scope

theorem joinFragments_append {tail : List Char} (h : tail ≠ []) (head more : List Char) :
    joinFragments head (tail ++ more) = joinFragments head tail ++ more := by
  cases tail with
  | nil => exact absurd rfl h
  | cons c tail =>
    by_cases hc : c = '^'
    · simp [joinFragments, hc]
    · simp [joinFragments, hc]

theorem append_joinFragments {done : List Char} (h : done.getLast? ≠ some '$')
    (head tail : List Char) :
    joinFragments (done ++ head) tail = done ++ joinFragments head tail := by
  simp only [joinFragments, ← List.append_assoc]
  congr 1
  cases head using List.reverseRecOn with
  | nil => simp [h]
  | append_singleton head c =>
    rw [← List.append_assoc, List.getLast?_concat, List.getLast?_concat]
    split <;> simp

theorem joinTo_append {tail : List Char} (h : tail ≠ []) (head : Option (List Char))
    (more : List Char) : joinTo head (tail ++ more) = joinTo head tail ++ more := by
  cases head with
  | none => rfl
  | some head => exact joinFragments_append h head more

theorem joinTo_capture (head : Option (List Char)) (front : List Char) :
    joinTo head (front ++ capture) = joinTo head front ++ capture := by
  cases front with
  | nil =>
    cases head with
    | none => rfl
    | some head => simp [joinTo, joinFragments]
  | cons c front => exact joinTo_append (List.cons_ne_nil c front) head capture

theorem pathFrom_append_left {done : List Char} (h : done.getLast? ≠ some '$')
    (pick : Condition → List Char) (text : List Char) (s : Scope) :
    pathFrom pick (some (done ++ text)) s = (pathFrom pick (some text) s).map (done ++ ·) := by
  induction s generalizing text with
  | nil => rfl
  | cons l s ih =>
    simp only [pathFrom]
    split
    · rw [joinTo, append_joinFragments h]
      exact ih _
    · exact ih text

theorem pathFrom_some (pick : Condition → List Char) (head : List Char) (s : Scope) :
    ∃ path, pathFrom pick (some head) s = some path := by
  induction s generalizing head with
  | nil => exact ⟨head, rfl⟩
  | cons l s ih =>
    simp only [pathFrom]
    split
    · exact ih _
    · exact ih head

theorem countGroups_joinTo (head : Option (List Char)) (text : List Char) :
    countGroups (joinTo head text) = countGroups (head.getD []) + countGroups text := by
  cases head with
  | none => simp [joinTo, countGroups]
  | some head => exact countGroups_joinFragments head text

theorem pathText?_level {d : Declaration} {p : Pattern}
    (h : find? .path (Level.kept d.conditions) = some p) :
    pathText? Condition.source d.level = some (spelled (tokens (p.source .path).toList)) := by
  rw [pathText?, Declaration.level, Level.find?_declare_conditions, h]
  simp [Level.condition, substitute_eq]

@[simp] theorem fst_shift (before : Nat) (place : Field × Nat) :
    (shift before place).1 = place.1 := by
  unfold shift
  split <;> rfl

theorem idxsOf_group (before after : List Char) :
    (List.idxsOf '(' (before ++ (capture ++ after)))[countGroups before]? =
      some before.length := by
  have hcapture : capture = '(' :: capture.tail := by decide
  rw [List.idxsOf_append, List.getElem?_append_right (by simp [countGroups]), hcapture]
  simp [countGroups]

theorem ofChain_placeholders_sorted (chain : List Declaration) :
    ∀ l ∈ ofChain chain, Sorted l.placeholders := by
  intro l hl
  obtain ⟨d, -, rfl⟩ := List.mem_map.mp hl
  exact Level.declare_placeholders_sorted d.conditions d.params

/-- A placeholder that some level has is listed for the scope, in a field of such a level. -/
theorem exists_placeholder_of_declares {chain : List Declaration} {d : Declaration} {name : String}
    (hd : d ∈ chain) (hname : d.Declares name) :
    ∃ place, find? name (ofChain chain).placeholders = some place := by
  induction chain using List.reverseRecOn with
  | nil => cases hd
  | append_singleton chain e ih =>
    have hlast : find? name (ofChain (chain ++ [e])).placeholders =
        ((find? name e.level.placeholders).map (shift (groups (ofChain chain)))).or
          (find? name (ofChain chain).placeholders) := by
      rw [ofChain, List.map_append]
      exact find?_placeholders_concat _ (Level.declare_placeholders_sorted _ _) name
    rw [hlast]
    cases he : find? name e.level.placeholders with
    | some place => exact ⟨_, rfl⟩
    | none =>
      rcases List.mem_append.mp hd with hd | hd
      · exact ih hd
      · rw [List.mem_singleton.mp hd] at hname
        exact absurd hname (Declaration.not_declares he)

/-- If the levels have no condition but the path, their placeholders are in the path. -/
theorem field_eq_path {chain : List Declaration} {name : String} {place : Field × Nat}
    (hchain : ∀ d ∈ chain, ∀ e ∈ d.conditions, e.1 = .path)
    (h : find? name (ofChain chain).placeholders = some place) : place.1 = .path := by
  obtain ⟨_, l, _, place', heq, -, hfound, rfl⟩ :=
    exists_level_of_placeholder (ofChain_placeholders_sorted chain) h
  obtain ⟨d, hd, rfl⟩ := List.mem_map.mp (show l ∈ ofChain chain by simp [heq])
  rw [Declaration.level, Level.placeholders_declare] at hfound
  obtain ⟨before, after, hmem, -⟩ := eq_append_of_find?_ofList hfound
  obtain ⟨e, he, hfound⟩ := List.mem_flatMap.mp
    (show (name, place') ∈ (Level.kept d.conditions).flatMap fun e => Level.found e.1 e.2 by
      simp [hmem])
  rw [Level.found_eq] at hfound
  obtain ⟨m, -, hm⟩ := List.mem_map.mp hfound
  simp only [Prod.mk.injEq] at hm
  obtain ⟨-, rfl⟩ := hm
  have hpath := hchain d hd e (List.mem_filter.mp he).1
  simp [shift, hpath]

/-- The level and the token that a placeholder comes from, and what its number counts: the groups of
its condition up to the token, behind those of the levels outside if the condition is the path. -/
theorem exists_declared_token {chain : List Declaration} {name : String} {field : Field}
    {group : Nat} (h : find? name (ofChain chain).placeholders = some (field, group)) :
    ∃ outer d inner p front back, chain = outer ++ d :: inner ∧
      (∀ e ∈ inner, ¬ e.Declares name) ∧
      find? field (Level.kept d.conditions) = some p ∧
      tokens (p.source field).toList = front ++ .hole (.named name.toList) :: back ∧
      .hole (.named name.toList) ∉ back ∧
      shift (groups (ofChain outer)) (field, countGroups (spelled front) + 1) = (field, group) := by
  obtain ⟨_, _, _, ⟨field', place⟩, hchain, hinner, hfound, hshift⟩ :=
    exists_level_of_placeholder (ofChain_placeholders_sorted chain) h
  obtain ⟨outer, rest, rfl, rfl, hrest⟩ := List.map_eq_append_iff.mp hchain
  obtain ⟨d, inner, rfl, rfl, rfl⟩ := List.map_eq_cons_iff.mp hrest
  have hfield : field' = field := by
    have hfst := congrArg Prod.fst hshift
    rwa [fst_shift] at hfst
  subst hfield
  obtain ⟨p, front, back, hp, htokens, hback, rfl⟩ := Declaration.exists_token hfound
  refine ⟨outer, d, inner, p, front, back, rfl, ?_, hp, htokens, hback, hshift⟩
  intro e he
  exact Declaration.not_declares (hinner _ (List.mem_map_of_mem he))

theorem exists_chars_of_placeholder {chain : List Declaration} {name : String}
    {place : Field × Nat} (h : find? name (ofChain chain).placeholders = some place) :
    ∃ c tail, name.toList = c :: tail ∧ isNameStart c = true ∧ ∀ d ∈ tail, isNameChar d = true := by
  obtain ⟨-, -, -, p, front, back, -, -, -, htokens, -, -⟩ := exists_declared_token h
  have hmem : .hole (.named name.toList) ∈ tokens (p.source place.1).toList := by
    rw [htokens]
    exact List.mem_append_right front List.mem_cons_self
  exact exists_of_named_mem_tokens hmem

theorem exists_token_of_placeholder {chain : List Declaration} {name : String} {group : Nat}
    (h : find? name (ofChain chain).placeholders = some (.path, group)) :
    ∃ outer d inner p front back, chain = outer ++ d :: inner ∧
      (∀ e ∈ inner, ¬ e.Declares name) ∧
      find? .path (Level.kept d.conditions) = some p ∧
      tokens (p.source .path).toList = front ++ .hole (.named name.toList) :: back ∧
      .hole (.named name.toList) ∉ back ∧
      group = groups (ofChain outer) + countGroups (spelled front) + 1 := by
  obtain ⟨outer, d, inner, p, front, back, rfl, hinner, hp, htokens, hback, hshift⟩ :=
    exists_declared_token h
  cases hshift
  exact ⟨outer, d, inner, p, front, back, rfl, hinner, hp, htokens, hback, by omega⟩

/-- The path of the scope around the group of a path placeholder, and the number of the group: one
more than the parentheses before it. -/
theorem exists_source_of_placeholder {chain : List Declaration} {name : String} {group : Nat}
    (h : find? name (ofChain chain).placeholders = some (.path, group)) :
    ∃ outer d inner p front back before after,
      chain = outer ++ d :: inner ∧
      (∀ e ∈ inner, ¬ e.Declares name) ∧
      find? .path d.conditions = some p ∧
      tokens (p.source .path).toList = front ++ .hole (.named name.toList) :: back ∧
      .hole (.named name.toList) ∉ back ∧
      before = joinTo (find? .path (ofChain outer).sources) (spelled front) ∧
      find? .path (ofChain chain).sources = some (before ++ (capture ++ after)) ∧
      group = countGroups before + 1 := by
  obtain ⟨outer, d, inner, p, front, back, rfl, hinner, hp, htokens, hback, rfl⟩ :=
    exists_token_of_placeholder h
  let head := find? .path (ofChain outer).sources
  have hhead : pathFrom Condition.source none (ofChain outer) = head :=
    (find?_path_merge _ (ofChain_sorted outer)).symm
  obtain ⟨after, hafter⟩ := pathFrom_some Condition.source (spelled back) (ofChain inner)
  have hlast : (joinTo head (spelled front) ++ capture).getLast? ≠ some '$' := by
    rw [List.getLast?_append]
    simp
  have hsource : find? .path (ofChain (outer ++ d :: inner)).sources =
      some (joinTo head (spelled front) ++ (capture ++ after)) := by
    rw [sources, find?_path_merge _ (ofChain_sorted _)]
    rw [ofChain, List.map_append, List.map_cons, pathFrom_append]
    change pathFrom _ (pathFrom _ _ (ofChain outer)) (d.level :: ofChain inner) = _
    rw [pathFrom, pathText?_level hp, hhead, htokens]
    simp only [spelled_append, spelled_cons, Token.spell_hole]
    rw [← List.append_assoc, joinTo_append (by simp), joinTo_capture,
      pathFrom_append_left hlast, hafter]
    simp
  have hcount : groups (ofChain outer) + countGroups (spelled front) =
      countGroups (joinTo head (spelled front)) := by
    rw [countGroups_joinTo, ← hhead, countGroups_pathFrom]
    simp [countGroups]
  exact ⟨outer, d, inner, p, front, back, _, after, rfl, hinner,
    Level.find?_of_kept d.sorted hp, htokens, hback, rfl, hsource, congrArg (· + 1) hcount⟩

/-- The group of a path placeholder begins, in the path of the scope, where the last token of that
name in the innermost level that declares it was replaced: behind the path of the levels outside,
joined with the fragment up to the token. -/
theorem placeholder_group_start (chain : List Declaration) (name : String) (group : Nat)
    (h : find? name (ofChain chain).placeholders = some (.path, group)) :
    ∃ outer d inner p front back before after,
      chain = outer ++ d :: inner ∧
      (∀ e ∈ inner, ¬ e.Declares name) ∧
      find? .path d.conditions = some p ∧
      tokens (p.source .path).toList = front ++ .hole (.named name.toList) :: back ∧
      .hole (.named name.toList) ∉ back ∧
      before = joinTo (find? .path (ofChain outer).sources) (spelled front) ∧
      find? .path (ofChain chain).sources = some (before ++ (capture ++ after)) ∧
      1 ≤ group ∧
      (List.idxsOf '(' (before ++ (capture ++ after)))[group - 1]? = some before.length := by
  obtain ⟨outer, d, inner, p, front, back, before, after, hchain, hinner, hp, htokens, hback,
    hbefore, hsource, rfl⟩ := exists_source_of_placeholder h
  refine ⟨outer, d, inner, p, front, back, before, after, hchain, hinner, hp, htokens, hback,
    hbefore, hsource, by omega, ?_⟩
  rw [Nat.add_sub_cancel]
  exact idxsOf_group before after

/-- A hand-written group, an escaped parenthesis and a repeated name, over two levels. -/
theorem placeholder_group_start_nested :
    let chain : List Declaration :=
      [⟨[(.path, .regex "^/(a|b)/:lang$")], [], by decide⟩,
        ⟨[(.path, .literal "/(:id)/:id.")], [], by decide⟩]
    ∃ before after, find? .path (ofChain chain).sources = some (before ++ (capture ++ after)) ∧
      (List.idxsOf '(' (before ++ (capture ++ after)))[4]? = some before.length := by
  intro chain
  obtain ⟨_, _, _, _, _, _, before, after, -, -, -, -, -, -, hsource, -, hgroup⟩ :=
    placeholder_group_start chain "id" 5 (by decide +kernel)
  exact ⟨before, after, hsource, hgroup⟩

end Scope

end Signpost
