import Signpost.Proofs.Scope.Alike
import Signpost.Proofs.Template.Chain

/-! # Nested fragments as one

Literal fragments nested in one another come to the same as the one fragment that they make, when
a slash begins each of them: the anchors between them are dropped, their groups are counted on, and
of equal placeholders the innermost wins, which is the last one of the text.
-/
namespace Signpost.Template
open Entries Placeholder Scope

def pathLevel (text : String) : Level := Level.declare [(.path, .literal text)] []

theorem level_ofPath (text : String) : (Declaration.ofPath text).level = pathLevel text := rfl

def escapedTokens (text : String) : List Token := (tokens text.toList).flatMap escaped

def listed (text : String) : List (String × Nat) := marks 0 (escapedTokens text)

theorem marks_source_literal (text : String) :
    marks 0 (tokens ((Pattern.literal text).source .path).toList) = listed text := by
  rw [tokens_source_literal, marks, marks_append]
  simp [marks, listed, escapedTokens, countGroups]

theorem found_ofPath (text : String) :
    ((Level.kept [(.path, .literal text)]).flatMap fun e => Level.found e.1 e.2) =
      (listed text).map fun m => (m.1, (.path, m.2)) := by
  cases hempty : Level.isEmptyPath .path ((Pattern.literal text).source .path) with
  | true =>
    have htext := (isEmptyPath_literal text).mp hempty
    simp [Level.kept, hempty, listed, escapedTokens, htext, marks]
  | false => simp [Level.kept, hempty, Level.found_eq, marks_source_literal]

theorem pathLevel_conditions (text : String) :
    (pathLevel text).conditions =
      if text = "" then [] else [(.path, Level.condition .path (.literal text))] := by
  rw [← level_ofPath, (isLiteral_ofPath text).level_conditions, fragment_ofPath,
    String.ofList_toList]
  simp only [String.toList_eq_nil_iff]

theorem params_declare (conditions : Conditions) (params : List (String × String)) :
    (Level.declare conditions params).params =
      extend (ofList (((Level.kept conditions).flatMap fun e => Level.found e.1 e.2).map
        fun e => (e.1, ":" ++ e.1))) params := rfl

theorem pathLevel_params (text : String) :
    (pathLevel text).params = ofList ((listed text).map fun m => (m.1, ":" ++ m.1)) := by
  rw [pathLevel, params_declare, found_ofPath, List.map_map, extend, List.foldl_nil]
  rfl

theorem pathLevel_placeholders (text : String) :
    (pathLevel text).placeholders = ofList ((listed text).map fun m => (m.1, (.path, m.2))) := by
  rw [pathLevel, Level.placeholders_declare, found_ofPath]

theorem pathLevel_pathGroups (text : String) :
    (pathLevel text).pathGroups = countGroups (body (tokens text.toList)) := by
  rw [Level.pathGroups, pathLevel_conditions]
  by_cases htext : text = ""
  · rw [if_pos htext, htext, String.toList_empty, tokens_nil]
    rfl
  · rw [if_neg htext, find?_cons, if_pos rfl]
    simp only [condition_literal_source]
    simp [countGroups]

theorem template_pathLevel (text : String) : Scope.template [pathLevel text] = .ok text.toList := by
  have h : (ofChain [.ofPath text]).template = .ok (template [.ofPath text]) :=
    scope_template (by simp [isLiteral_ofPath])
  rw [template, List.flatMap_cons, List.flatMap_nil, List.append_nil, fragment_ofPath] at h
  exact h

theorem pathLevel_hasRegex (text : String) : (pathLevel text).hasRegex = false := by
  change (Level.kept [(.path, .literal text)]).any (fun e => e.2.isRegex) = false
  refine List.any_eq_false.mpr fun e he => ?_
  rw [List.mem_singleton.mp (List.mem_filter.mp he).1]
  simp [Pattern.isRegex]

/-- Puts an anchored expression behind the path that the levels outside make. -/
def putAnchored (merged : Entries Field (List Char)) (cs : List Char) : Entries Field (List Char) :=
  mergeCondition merged .path ('^' :: (cs ++ ['$']))

theorem mergeCondition_path (merged : Entries Field (List Char)) (text : List Char) :
    mergeCondition merged .path text = merged.insert .path (joinTo (find? .path merged) text) := by
  unfold mergeCondition
  cases find? Field.path merged <;> rfl

theorem joinFragments_joinFragments (head a b : List Char) :
    joinFragments (joinFragments head ('^' :: (a ++ ['$']))) ('^' :: b) =
      joinFragments head ('^' :: (a ++ b)) := by
  simp [joinFragments]

theorem putAnchored_putAnchored (merged : Entries Field (List Char)) (a b : List Char) :
    putAnchored (putAnchored merged a) b = putAnchored merged (a ++ b) := by
  have hjoin : joinTo (some (joinTo (find? .path merged) ('^' :: (a ++ ['$']))))
      ('^' :: (b ++ ['$'])) = joinTo (find? .path merged) ('^' :: (a ++ b ++ ['$'])) := by
    cases find? Field.path merged with
    | none => exact joinFragments_anchored a b
    | some head => rw [joinTo, joinTo, joinTo, joinFragments_joinFragments, List.append_assoc]
  simp only [putAnchored, mergeCondition_path, find?_insert_self, insert_insert, hjoin]

section Conditions
variable (pick : Condition → List Char) (written : String → List Char)

theorem mergeConditions_pathLevel
    (hpick : ∀ text, pick (Level.condition .path (.literal text)) = '^' :: (written text ++ ['$']))
    (merged : Entries Field (List Char)) (text : String) :
    mergeConditions pick merged (pathLevel text) =
      if text = "" then merged else putAnchored merged (written text) := by
  rw [mergeConditions, pathLevel_conditions]
  split
  · rfl
  · exact congrArg (mergeCondition merged .path) (hpick text)

theorem mergeConditions_append
    (hpick : ∀ text, pick (Level.condition .path (.literal text)) = '^' :: (written text ++ ['$']))
    {a b : String} (happend : written (a ++ b) = written a ++ written b)
    (merged : Entries Field (List Char)) :
    mergeConditions pick (mergeConditions pick merged (pathLevel a)) (pathLevel b) =
      mergeConditions pick merged (pathLevel (a ++ b)) := by
  simp only [mergeConditions_pathLevel pick written hpick]
  by_cases ha : a = ""
  · simp [ha]
  · by_cases hb : b = ""
    · simp [hb]
    · simp [ha, hb, happend, putAnchored_putAnchored]

end Conditions

theorem extend_params {params : Params} (hparams : Sorted params) (text : String) :
    params.extend (pathLevel text).params =
      params.extend ((listed text).map fun m => (m.1, ":" ++ m.1)) := by
  rw [pathLevel_params, extend_ofList hparams]

theorem extend_placeholders {placed : Entries String (Field × Nat)} (hplaced : Sorted placed)
    (before : Nat) (text : String) :
    placed.extend ((pathLevel text).placeholders.mapValues (shift before)) =
      placed.extend ((listed text).map fun m => (m.1, (.path, m.2 + before))) := by
  have hshifted : (pathLevel text).placeholders.mapValues (shift before) =
      ofList ((listed text).map fun m => (m.1, (.path, m.2 + before))) := by
    rw [pathLevel_placeholders, ofList, mapValues_extend]
    simp [mapValues, shift, ofList, Function.comp_def]
  rw [hshifted, extend_ofList hplaced]

/-- No placeholder spans the place where the texts join. -/
def Seam (a b : String) : Prop := tokens (a ++ b).toList = tokens a.toList ++ tokens b.toList

section Seam
variable {a b : String} {m : Merged}

theorem listed_append (h : Seam a b) :
    listed (a ++ b) =
      listed a ++ (listed b).map fun m => (m.1, m.2 + countGroups (body (tokens a.toList))) := by
  have hescaped : escapedTokens (a ++ b) = escapedTokens a ++ escapedTokens b := by
    rw [escapedTokens, h, List.flatMap_append]
    rfl
  rw [listed, hescaped, marks_append, marks_add, escapedTokens, spelled_escaped]
  rfl

theorem sources_add_add (h : Seam a b) :
    ((m.add (pathLevel a)).add (pathLevel b)).sources = (m.add (pathLevel (a ++ b))).sources := by
  have hbody : body (tokens (a ++ b).toList) =
      body (tokens a.toList) ++ body (tokens b.toList) := by
    rw [h, body_append]
  simp only [Merged.sources_add]
  exact mergeConditions_append Condition.source (fun text => body (tokens text.toList))
    condition_literal_source hbody m.sources

theorem declared_add_add (a b : String) (m : Merged) :
    ((m.add (pathLevel a)).add (pathLevel b)).declared =
      (m.add (pathLevel (a ++ b))).declared := by
  have hescape : Pattern.escape (a ++ b).toList =
      Pattern.escape a.toList ++ Pattern.escape b.toList := by
    rw [String.toList_append, escape_append]
  simp only [Merged.declared_add]
  exact mergeConditions_append (·.declared.toList) (fun text => Pattern.escape text.toList)
    source_literal hescape m.declared

theorem params_add_add (h : Seam a b) (hm : m.Ordered) :
    ((m.add (pathLevel a)).add (pathLevel b)).params = (m.add (pathLevel (a ++ b))).params := by
  rw [Merged.params_add, extend_params (hm.add (pathLevel a)).params, Merged.params_add,
    extend_params hm.params, Merged.params_add, extend_params hm.params, ← extend_append,
    listed_append h, List.map_append, List.map_map]
  rfl

/-- The groups of the second fragment are counted on from those of the first. -/
theorem placeholders_add_add (h : Seam a b) (hm : m.Ordered) :
    ((m.add (pathLevel a)).add (pathLevel b)).placeholders =
      (m.add (pathLevel (a ++ b))).placeholders := by
  rw [Merged.placeholders_add, extend_placeholders (hm.add (pathLevel a)).placeholders,
    Merged.placeholders_add, extend_placeholders hm.placeholders, Merged.groups_add,
    Merged.placeholders_add, extend_placeholders hm.placeholders, ← extend_append, listed_append h,
    List.map_append, List.map_map, pathLevel_pathGroups]
  simp only [Function.comp_def, Nat.add_comm, Nat.add_left_comm]

theorem groups_add_add (h : Seam a b) :
    ((m.add (pathLevel a)).add (pathLevel b)).groups = (m.add (pathLevel (a ++ b))).groups := by
  simp only [Merged.groups_add, pathLevel_pathGroups]
  rw [h, body_append, countGroups_append, Nat.add_assoc]

theorem template_add_add (a b : String) (m : Merged) :
    ((m.add (pathLevel a)).add (pathLevel b)).template =
      (m.add (pathLevel (a ++ b))).template := by
  simp only [Merged.template_add, extendTemplate, template_pathLevel, String.toList_append]
  cases m.template <;> simp [Except.bind, Except.map]

theorem alike_pathLevel_append (h : Seam a b) :
    Alike [pathLevel a, pathLevel b] [pathLevel (a ++ b)] := by
  intro m hm
  change (m.add (pathLevel a)).add (pathLevel b) = m.add (pathLevel (a ++ b))
  ext1
  · exact sources_add_add h
  · exact declared_add_add a b m
  · exact params_add_add h hm
  · exact groups_add_add h
  · exact placeholders_add_add h hm
  · exact template_add_add a b m
  · simp [Merged.hasRegex_add, pathLevel_hasRegex]

end Seam

theorem add_pathLevel_empty (m : Merged) : m.add (pathLevel "") = m := by
  have hlisted : listed "" = [] := by simp [listed, escapedTokens, marks]
  have htemplate : extendTemplate m.template (pathLevel "") = m.template := by
    rw [extendTemplate, template_pathLevel]
    cases m.template <;> simp [Except.bind, Except.map]
  have hgroups : (pathLevel "").pathGroups = 0 := by
    rw [pathLevel_pathGroups, String.toList_empty, tokens_nil]
    rfl
  simp only [Merged.add, mergeConditions, pathLevel_conditions, pathLevel_params,
    pathLevel_placeholders, pathLevel_hasRegex, hlisted, htemplate, hgroups, if_pos,
    Bool.or_false, Nat.add_zero]
  rfl

theorem template_ofPath (fragments : List String) :
    template (fragments.map .ofPath) = (String.join fragments).toList := by
  rw [template, List.flatMap_map, String.toList_join]
  exact List.flatMap_congr fun f _ => fragment_ofPath f

theorem seam_of_seamed {fragments : List String} {last : String}
    (h : Seamed ((fragments ++ [last]).map .ofPath)) : Seam (String.join fragments) last := by
  have htokens := chainTokens_eq h
  rw [List.map_append, List.map_singleton] at h htokens
  rw [chainTokens_concat, template_concat, chainTokens_eq h.init, template_ofPath,
    fragment_ofPath] at htokens
  rw [Seam, String.toList_append]
  exact htokens.symm

/-- Nested fragments come to the same as the fragment that they make, behind any levels. -/
theorem alike_ofPath {fragments : List String} (h : Seamed (fragments.map .ofPath)) :
    Alike (ofChain (fragments.map .ofPath)) (ofChain [.ofPath (String.join fragments)]) := by
  induction fragments using List.reverseRecOn with
  | nil => exact fun m _ => (add_pathLevel_empty m).symm
  | append_singleton fragments last ih =>
    have hinit : Seamed (fragments.map .ofPath) := by
      rw [List.map_append, List.map_singleton] at h
      exact h.init
    have hlast : Alike [pathLevel (String.join fragments), pathLevel last]
        [pathLevel (String.join fragments ++ last)] := alike_pathLevel_append (seam_of_seamed h)
    have hjoin : String.join (fragments ++ [last]) = String.join fragments ++ last := by
      simp [String.join]
    -- the fragments before the last one are one fragment already
    rw [List.map_append, ofChain, List.map_append, hjoin]
    exact ((ih hinit).append (.refl [pathLevel last])).trans hlast

/-- Nesting is flattening: inside any scope, the route behind literal fragments opened one inside
the other is the route behind the one fragment that they make, or both fail with the same error. -/
theorem ofScope_nested_eq_flat (s : Scope) (fragments : List String)
    (h : Seamed (fragments.map .ofPath)) (params : List (String × String)) (defaults : Params)
    (decision : Option Decision) :
    Route.ofScope (s ++ ofChain (fragments.map .ofPath)) params defaults decision =
      Route.ofScope (s ++ ofChain [.ofPath (String.join fragments)]) params defaults decision :=
  ((Alike.refl s).append (alike_ofPath h)).ofScope_eq params defaults decision

/-- An escaped parenthesis, a fragment that adds nothing, and a name that is declared again. -/
theorem ofScope_nested_eq_flat_of_repeated :
    let fragments := ["/a(b", "", "/:id", "/:id/edit"]
    let s := Draft.root Router.initialDefaults
    ∃ route,
      Route.ofScope (s ++ ofChain (fragments.map .ofPath)) [("view", ":id")]
        Router.initialDefaults none = .ok route ∧
      Route.ofScope (s ++ ofChain [.ofPath "/a(b/:id/:id/edit"]) [("view", ":id")]
        Router.initialDefaults none = .ok route := by
  intro fragments s
  have hliteral : ∀ d ∈ fragments.map Declaration.ofPath, IsLiteral d :=
    List.forall_mem_map.mpr fun text _ => isLiteral_ofPath text
  have hrooted : ∀ d ∈ .root Router.initialDefaults :: fragments.map Declaration.ofPath,
      IsLiteral d := isLiteral_root hliteral
  obtain ⟨route, hroute⟩ := exists_route hrooted (by decide) [("view", ":id")]
    Router.initialDefaults none (by decide +kernel) (by decide +kernel)
  have hseamed : Seamed (fragments.map .ofPath) := seamed_of_tail (by decide)
  exact ⟨route, hroute, (ofScope_nested_eq_flat s fragments hseamed _ _ _).symm.trans hroute⟩

/-- Whatever is declared inside nested fragments is declared inside the one fragment alike. -/
theorem run_nest_ofPath (s : Scope) {fragments : List String} (h : Seamed (fragments.map .ofPath))
    (body : Statement) :
    Statement.run s (.nest (fragments.map .ofPath) body) =
      Statement.run s (.nest [.ofPath (String.join fragments)] body) := by
  rw [Statement.run_nest, Statement.run_nest]
  exact Statement.run_alike ((Alike.refl s).append (alike_ofPath h)) body

end Signpost.Template
