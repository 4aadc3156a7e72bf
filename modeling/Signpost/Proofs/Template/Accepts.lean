import Signpost.Proofs.Output
import Signpost.Proofs.Template.Language

/-! # Routes of literal paths

The route of a scope whose fragments are all literal fails on its path only if the program for it
is too large, and otherwise its path condition accepts the texts that fit the tokens of the
fragments, root to leaf.
-/
namespace Signpost.Template
open Entries Placeholder Regex

def pathRegex (ts : List Token) : Regex :=
  ⟨String.ofList ('^' :: (body ts ++ ['$'])), holes ts, pathNode ts, (pathNode ts).code.toArray⟩

theorem compile_path (ts : List Token) :
    compile (String.ofList ('^' :: (body ts ++ ['$']))) false =
      if Node.maxProgramSize < (pathNode ts).programSize then .error .tooLarge
      else .ok (pathRegex ts) :=
  compile_of_parse (parse_path ts)

theorem fits_of_captures? {ts : List Token} {path : String} {c : Captures}
    (h : (pathRegex ts).captures? path = some c) :
    ∃ values, Fits ts values path.toList ∧
      ∀ k value, values[k]? = some value → c.get? (k + 1) = some (String.ofList value) := by
  obtain ⟨⟨start, f⟩, hsearch, rfl⟩ := Option.map_eq_some_iff.mp h
  obtain ⟨hle, hrun⟩ := search_eq_some hsearch
  obtain ⟨values, hfits, hgroups⟩ := fits_of_run (by simpa using hle) hrun
  refine ⟨values, hfits, fun k value hk => ?_⟩
  have hgroup := hgroups k value hk
  unfold groupText? at hgroup
  split at hgroup
  · rename_i start' stop hstart hstop
    cases hgroup
    have hne : k + 1 ≠ 0 := Nat.succ_ne_zero k
    have hstart' : f.saved.lookup (2 * (k + 1)) = some start' := hstart
    have hstop' : f.saved.lookup (2 * (k + 1) + 1) = some stop := hstop
    simp only [Captures.get?, if_neg hne, hstart', hstop', Captures.slice]
  · cases hgroup

theorem captures?_isSome_iff {ts : List Token} {path : String} :
    ((pathRegex ts).captures? path).isSome ↔ ∃ values, Fits ts values path.toList := by
  constructor
  · intro h
    obtain ⟨c, hc⟩ := Option.isSome_iff_exists.mp h
    obtain ⟨values, hfits, -⟩ := fits_of_captures? hc
    exact ⟨values, hfits⟩
  · rintro ⟨values, hfits⟩
    obtain ⟨t, hrun⟩ := exists_run_of_fits hfits
    rw [captures?, Option.isSome_map]
    exact search_isSome_iff.mpr ⟨0, t, Nat.zero_le _, hrun⟩

/-- A condition whose source compiles to an expression of any size. -/
theorem compileCondition_of_compile {field : Field} {source : List Char} (compiled : Regex)
    (h : compile (String.ofList source) (field == .method) =
      if Node.maxProgramSize < compiled.node.programSize then .error .tooLarge else .ok compiled) :
    Route.compileCondition field source =
      if Node.maxProgramSize < compiled.node.programSize then
        .error (.invalidPattern field (String.ofList source) .tooLarge)
      else .ok (field, compiled) := by
  rw [Route.compileCondition, h]
  by_cases hsize : Node.maxProgramSize < compiled.node.programSize
  · simp only [if_pos hsize]
  · simp only [if_neg hsize]

theorem compileCondition_path (ts : List Token) :
    Route.compileCondition .path ('^' :: (body ts ++ ['$'])) =
      if Node.maxProgramSize < (pathNode ts).programSize then
        .error (.invalidPattern .path (pathRegex ts).source .tooLarge)
      else .ok (.path, pathRegex ts) :=
  compileCondition_of_compile (pathRegex ts) (compile_path ts)

theorem compileConditions_literal {chain : List Declaration} (h : ∀ d ∈ chain, IsLiteral d)
    (hne : ∃ d ∈ chain, fragment d ≠ []) :
    Route.compileConditions (Scope.ofChain chain) =
      if Node.maxProgramSize < (pathNode (chainTokens chain)).programSize then
        .error (.invalidPattern .path (pathRegex (chainTokens chain)).source .tooLarge)
      else .ok [(.path, pathRegex (chainTokens chain))] := by
  rw [Route.compileConditions, sources_literal h hne, List.mapM_cons, List.mapM_nil]
  change (Route.compileCondition .path _ >>= _) = _
  rw [compileCondition_path]
  split
  · rfl
  · rfl

theorem exists_route {chain : List Declaration} (h : ∀ d ∈ chain, IsLiteral d)
    (hne : ∃ d ∈ chain, fragment d ≠ []) (params : List (String × String)) (defaults : Params)
    (decision : Option Decision)
    (houtputs : (Route.outputParams (Scope.ofChain chain) params defaults).isOk = true)
    (hsize : ¬ Node.maxProgramSize < (pathNode (chainTokens chain)).programSize) :
    ∃ route, Route.ofScope (Scope.ofChain chain) params defaults decision = .ok route := by
  rw [Route.ofScope, compileConditions_literal h hne, if_neg hsize]
  cases ho : Route.outputParams (Scope.ofChain chain) params defaults with
  | error e =>
    rw [ho] at houtputs
    cases houtputs
  | ok outputs => exact ⟨_, rfl⟩

/-- A literal path accepts exactly its template: the tokens of the fragments, root to leaf, each
character as it is and each placeholder as a segment. Its expression is never invalid, unless the
program for it is too large. -/
theorem ofScope_literal_path (chain : List Declaration) (params : List (String × String))
    (defaults : Params) (decision : Option Decision) (h : ∀ d ∈ chain, IsLiteral d)
    (hne : ∃ d ∈ chain, fragment d ≠ []) :
    (∀ field source cause,
      Route.ofScope (Scope.ofChain chain) params defaults decision =
          .error (.invalidPattern field source cause) →
        cause = .tooLarge ∧
          Node.maxProgramSize < (pathNode (chainTokens chain)).programSize) ∧
    ∀ route, Route.ofScope (Scope.ofChain chain) params defaults decision = .ok route →
      ∃ r, route.conditions = [(.path, r)] ∧
        ∀ path : String, (r.captures? path).isSome ↔
          ∃ values, Fits (chainTokens chain) values path.toList := by
  have hconditions := compileConditions_literal h hne
  constructor
  · intro field source cause hfail
    rcases of_bind_eq_error hfail with hfail | ⟨outputs, -, hfail⟩
    · exact absurd trivial (Route.not_isPattern_of_outputParams hfail)
    · rcases of_bind_eq_error hfail with hfail | ⟨conditions, -, hfail⟩
      · rw [hconditions] at hfail
        split at hfail
        · rename_i hsize
          cases hfail
          exact ⟨rfl, hsize⟩
        · cases hfail
      · cases hfail
  · intro route hroute
    obtain ⟨outputs, -, hroute⟩ := exists_of_bind_eq_ok hroute
    obtain ⟨conditions, hok, hroute⟩ := exists_of_bind_eq_ok hroute
    cases hroute
    rw [hconditions] at hok
    split at hok
    · cases hok
    · cases hok
      exact ⟨_, rfl, fun path => captures?_isSome_iff⟩

/-- Anchors, an escape and a parenthesis at the seams, and a fragment that adds nothing. -/
theorem ofScope_literal_path_seams :
    let chain : List Declaration :=
      [⟨[(.path, .literal "/a$:id")], [], by decide⟩, ⟨[(.path, .literal "")], [], by decide⟩,
        ⟨[(.path, .literal "^(\\.::")], [], by decide⟩]
    ∃ route r, Route.ofScope (Scope.ofChain chain) [] [] none = .ok route ∧
      route.conditions = [(.path, r)] ∧
      ∀ path : String, (r.captures? path).isSome ↔
        ∃ values, Fits (chainTokens chain) values path.toList := by
  intro chain
  have hliteral : ∀ d ∈ chain, IsLiteral d := by simp [chain, IsLiteral]
  have hne : ∃ d ∈ chain, fragment d ≠ [] := ⟨_, List.mem_cons_self, by decide⟩
  obtain ⟨route, hroute⟩ :=
    exists_route hliteral hne [] [] none (by decide +kernel) (by decide +kernel)
  obtain ⟨r, hr, haccepts⟩ :=
    (ofScope_literal_path chain [] [] none hliteral hne).2 route hroute
  exact ⟨route, r, hroute, hr, haccepts⟩

end Signpost.Template
