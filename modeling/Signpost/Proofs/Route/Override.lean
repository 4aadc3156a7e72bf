import Signpost.Proofs.Route.Group

/-! # Placeholders of conditions that are overridden

On a field other than the path only the innermost condition of a scope counts, while a placeholder
stays listed with the number of its group in the condition that declares it. Its parameter is what
the group of that number captured in the innermost condition, whichever condition that is.
-/
namespace Signpost.Placeholder
open Entries Scope
open Route (settled)

theorem exists_innermost_condition {field : Field} {d : Declaration} (inner : List Declaration)
    {p : Pattern} (hp : find? field d.conditions = some p) :
    ∃ above e below q, d :: inner = above ++ e :: below ∧ find? field e.conditions = some q ∧
      ∀ e' ∈ below, find? field e'.conditions = none := by
  obtain ⟨above, e, below, hsplit, he, hbelow⟩ :=
    exists_last (P := fun e : Declaration => (find? field e.conditions).isSome)
      ⟨d, List.mem_cons_self (l := inner), Option.isSome_iff_exists.mpr ⟨p, hp⟩⟩
  obtain ⟨q, hq⟩ := Option.isSome_iff_exists.mp he
  exact ⟨above, e, below, q, hsplit, hq, fun e' he' => by simpa using hbelow e' he'⟩

/-- The parameter of a placeholder on a field other than the path is what the group of the listed
number captured in the innermost condition on the field, or its default. If that condition is the
placeholder's own, and all parentheses before the placeholder open capturing groups, the group is
the placeholder's own. -/
theorem param_of_overridden_placeholder {chain : List Declaration}
    {params : List (String × String)} {defaults found : Params} {name : String} {field : Field}
    {group : Nat} {route : Route} {request : Request} (hfield : field ≠ .path)
    (hplace : find? name (ofChain chain).placeholders = some (field, group))
    (hkeeps : KeepsPlaceholder chain name) (hparams : ∀ e ∈ params, e.1 ≠ name)
    (hroute : Route.ofScope (ofChain chain) params defaults none = .ok route)
    (haccept : route.accept? request = some found) :
    ∃ outer d inner p front back above e below q r c,
      chain = outer ++ d :: inner ∧ (∀ e ∈ inner, ¬ e.Declares name) ∧
      find? field d.conditions = some p ∧
      tokens (p.source field).toList = front ++ .hole (.named name.toList) :: back ∧
      .hole (.named name.toList) ∉ back ∧ group = countGroups (spelled front) + 1 ∧
      d :: inner = above ++ e :: below ∧ find? field e.conditions = some q ∧
      (∀ e' ∈ below, find? field e'.conditions = none) ∧
      Regex.compile (String.ofList (spelled (tokens (q.source field).toList)))
        (field == .method) = .ok r ∧
      route.conditions.lookup field = some r ∧ r.captures? (request.value field) = some c ∧
      find? name found = settled (c.get? group) (find? name defaults) ∧
      (r.groups < group → find? name found = find? name defaults) ∧
      (above = [] → ∀ st, Regex.Stands (field == .method)
          (spelled front ++ (capture ++ spelled back)) st (capture ++ spelled back) →
        st.captures + 1 ≤ r.groups ∧ r.node.Everywhere (Regex.IsCapture (st.captures + 1)) ∧
        st.captures + 1 ≤ group ∧
        (st.captures + 1 = group ↔ Regex.AllOpen (field == .method)
          (spelled front ++ (capture ++ spelled back)) (spelled front)
          (capture ++ spelled back)) ∧
        (st.captures + 1 = group →
          find? name found = (c.get? (st.captures + 1)).or (find? name defaults))) := by
  obtain ⟨outer, d, inner, p, front, back, rfl, hinner, hp, htokens, hback, hshift⟩ :=
    exists_declared_token hplace
  rw [shift, if_neg hfield] at hshift
  cases hshift
  rw [d.find?_kept_of_ne hfield] at hp
  obtain ⟨above, e, below, q, hsplit, hq, hbelow⟩ := exists_innermost_condition inner hp
  have hsource : find? field (ofChain (outer ++ d :: inner)).sources =
      some (spelled (tokens (q.source field).toList)) := by
    rw [hsplit, ← List.append_assoc]
    exact find?_sources_of_ne hfield hq hbelow
  obtain ⟨r, c, hcompile, hr, hc, hfound⟩ :=
    Route.param_of_placeholder hplace hsource hkeeps hparams hroute haccept
  refine ⟨outer, d, inner, p, front, back, above, e, below, q, r, c, rfl, hinner, hp, htokens,
    hback, rfl, hsplit, hq, hbelow, hcompile, hr, hc, hfound, fun hlt => ?_, ?_⟩
  · rw [hfound, settled_of_lt hcompile hc hlt]
  · rintro rfl st hstands
    obtain ⟨rfl, rfl⟩ := List.cons.inj hsplit
    cases hp.symm.trans hq
    have hspelled : spelled (tokens (p.source field).toList) =
        spelled front ++ (capture ++ spelled back) := by
      simp [htokens]
    rw [hspelled] at hcompile
    obtain ⟨hle, hnode, hcount, hopen⟩ := own_group hcompile rfl hstands
    refine ⟨hle, hnode, hcount, hopen, fun heq => ?_⟩
    rw [hfound, ← heq]
    exact settled_capture hcompile hc hstands _

theorem param_of_overridden_placeholder_own :
    ∃ route r c, Route.ofScope (ofChain
        [.root [], ⟨[(.host, .symbol ":sub")], [], by decide⟩]) [] [] none = .ok route ∧
      route.conditions.lookup .host = some r ∧ r.captures? "ab" = some c ∧
      route.accept? ⟨"/", "get", "http://", "ab", []⟩ = some [("sub", "ab")] ∧
      find? "sub" [("sub", "ab")] = settled (c.get? 1) none := by
  have hanswer : Route.answer? (ofChain [.root [], ⟨[(.host, .symbol ":sub")], [], by decide⟩]) []
      [] ⟨"/", "get", "http://", "ab", []⟩ = some [("sub", "ab")] := by decide +kernel
  obtain ⟨route, hroute, haccept⟩ := Route.exists_of_answer? hanswer
  have hplace : find? "sub" (ofChain [.root [],
      ⟨[(.host, .symbol ":sub")], [], by decide⟩]).placeholders = some (.host, 1) := by
    decide +kernel
  obtain ⟨_, _, _, _, _, _, _, _, _, _, r, c, -, -, -, -, -, -, -, -, -, -, hr, hc, hfound, -⟩ :=
    param_of_overridden_placeholder (by decide) hplace
      (keepsPlaceholder_of_free (by simp [Declaration.root])) (by simp) hroute haccept
  exact ⟨route, r, c, hroute, hr, hc, haccept, hfound⟩

/-- A condition that is a placeholder, and one that has none. -/
def subHost : Declaration := ⟨[(.host, .symbol ":sub")], [], by decide⟩

def firstOfHost : Declaration := ⟨[(.host, .regex "^(.)")], [], by decide⟩

/-- An inner condition has no placeholder and replaces the one that has: the parameter is what a
group of the inner condition captured. -/
theorem param_of_overridden_placeholder_ne_own :
    ∃ route r c,
      Route.ofScope (ofChain [.root [("action", "index")], subHost, firstOfHost]) []
        [("action", "index")] none = .ok route ∧
      route.conditions.lookup .host = some r ∧ r.source = "^(.)" ∧
      r.captures? "ab" = some c ∧ c.get? 1 = some "a" ∧
      ((Regex.compile "^([^/.,;?]+)$" false).toOption.bind fun r =>
        (r.captures? "ab").bind (·.get? 1)) = some "ab" ∧
      route.accept? ⟨"/", "get", "http://", "ab", []⟩ =
        some [("action", "index"), ("sub", "a")] := by
  have hanswer : Route.answer? (ofChain [.root [("action", "index")], subHost, firstOfHost]) []
      [("action", "index")] ⟨"/", "get", "http://", "ab", []⟩ =
        some [("action", "index"), ("sub", "a")] := by decide +kernel
  obtain ⟨route, hroute, haccept⟩ := Route.exists_of_answer? hanswer
  have hplace : find? "sub" (ofChain [.root [("action", "index")], subHost,
      firstOfHost]).placeholders = some (.host, 1) := by decide +kernel
  have hsource : find? .host (ofChain [.root [("action", "index")], subHost,
      firstOfHost]).sources = some "^(.)".toList := by decide +kernel
  obtain ⟨r, c, hcompile, hr, hc, -⟩ := Route.param_of_placeholder hplace hsource
    (keepsPlaceholder_of_free (by simp [Declaration.root, subHost, firstOfHost])) (by simp) hroute
    haccept
  have hinner : ((Regex.compile "^(.)" false).toOption.bind fun r =>
      (r.captures? "ab").bind (·.get? 1)) = some "a" := by decide +kernel
  rw [String.ofList_toList] at hcompile
  rw [show Regex.compile _ false = .ok r from hcompile, Except.toOption, Option.bind_some,
    show r.captures? "ab" = some c from hc, Option.bind_some] at hinner
  exact ⟨route, r, c, hroute, hr, (Regex.of_compile hcompile).1, hc, hinner, by decide +kernel,
    haccept⟩

end Signpost.Placeholder
