import Signpost.Proofs.Regex.Capture
import Signpost.Proofs.Route.Accept
import Signpost.Proofs.Router.Single

/-! # The group that a placeholder's number means

A placeholder is listed with a number that counts parentheses. The group that replaces it has the
number that is due when the reader of the expression comes to it. The two are the same exactly if
every parenthesis before the placeholder opens a capturing group; then the parameter is what the
placeholder's own group captured.
-/
namespace Signpost.Placeholder
open Entries Scope
open Route (settled)

variable {field : Field} {r : Regex} {value : String} {c : Regex.Captures}

theorem settled_of_lt {source : String} {ignoreCase : Bool} {group : Nat}
    (h : Regex.compile source ignoreCase = .ok r) (hc : r.captures? value = some c)
    (hgroup : r.groups < group) (fallback : Option String) :
    settled (c.get? group) fallback = fallback := by
  rw [Regex.get?_of_lt h hc hgroup]
  cases fallback <;> rfl

variable {source before after : List Char} {ignoreCase : Bool} {st : Regex.ReadState}

theorem settled_capture
    (h : Regex.compile (String.ofList source) ignoreCase = .ok r)
    (hc : r.captures? value = some c)
    (hstands : Regex.Stands ignoreCase source st (capture ++ after)) (fallback : Option String) :
    settled (c.get? (st.captures + 1)) fallback = (c.get? (st.captures + 1)).or fallback := by
  cases hget : c.get? (st.captures + 1) with
  | none => cases fallback <;> rfl
  | some text =>
    rw [← String.toList_ofList (l := source)] at hstands
    rw [Route.settled_of_ne (Regex.get?_capture_ne_empty h hc hstands hget)]
    rfl

/-- The group of a placeholder, and what the number of the parentheses up to it has to do with the
number of the group. -/
theorem own_group (h : Regex.compile (String.ofList source) ignoreCase = .ok r)
    (hsource : source = before ++ (capture ++ after))
    (hstands : Regex.Stands ignoreCase source st (capture ++ after)) :
    st.captures + 1 ≤ r.groups ∧ r.node.Everywhere (Regex.IsCapture (st.captures + 1)) ∧
      st.captures + 1 ≤ countGroups before + 1 ∧
      (st.captures + 1 = countGroups before + 1 ↔
        Regex.AllOpen ignoreCase source before (capture ++ after)) := by
  have hparse := (Regex.of_compile h).2.1
  rw [String.toList_ofList] at hparse
  obtain ⟨hle, hnode⟩ := Regex.isCapture_of_parse hstands hparse
  obtain ⟨hcount, hopen⟩ := Regex.captures_eq_count_iff hstands hsource
  exact ⟨hle, hnode, Nat.succ_le_succ hcount, Nat.succ_inj.trans hopen⟩

/-- The parameter of a path placeholder is what the group of the listed number captured, or its
default. The listed number is that of the placeholder's own group if all parentheses before it open
capturing groups, and higher otherwise. -/
theorem param_of_path_placeholder {chain : List Declaration} {params : List (String × String)}
    {defaults found : Params} {name : String} {group : Nat} {route : Route} {request : Request}
    (hplace : find? name (ofChain chain).placeholders = some (.path, group))
    (hkeeps : KeepsPlaceholder chain name) (hparams : ∀ e ∈ params, e.1 ≠ name)
    (hroute : Route.ofScope (ofChain chain) params defaults none = .ok route)
    (haccept : route.accept? request = some found) :
    ∃ outer d inner p front back before after source r c,
      chain = outer ++ d :: inner ∧ (∀ e ∈ inner, ¬ e.Declares name) ∧
      find? .path d.conditions = some p ∧
      tokens (p.source .path).toList = front ++ .hole (.named name.toList) :: back ∧
      .hole (.named name.toList) ∉ back ∧
      before = joinTo (find? .path (ofChain outer).sources) (spelled front) ∧
      source = before ++ (capture ++ after) ∧ group = countGroups before + 1 ∧
      Regex.compile (String.ofList source) false = .ok r ∧
      route.conditions.lookup .path = some r ∧ r.captures? request.path = some c ∧
      find? name found = settled (c.get? group) (find? name defaults) ∧
      (r.groups < group → find? name found = find? name defaults) ∧
      ∀ st, Regex.Stands false source st (capture ++ after) →
        st.captures + 1 ≤ r.groups ∧ r.node.Everywhere (Regex.IsCapture (st.captures + 1)) ∧
        st.captures + 1 ≤ group ∧
        (st.captures + 1 = group ↔ Regex.AllOpen false source before (capture ++ after)) ∧
        (st.captures + 1 = group →
          find? name found = (c.get? (st.captures + 1)).or (find? name defaults)) := by
  obtain ⟨outer, d, inner, p, front, back, before, after, hchain, hinner, hp, htokens, hback,
    hbefore, hsource, rfl⟩ := exists_source_of_placeholder hplace
  obtain ⟨r, c, hcompile, hr, hc, hfound⟩ :=
    Route.param_of_placeholder hplace hsource hkeeps hparams hroute haccept
  refine ⟨outer, d, inner, p, front, back, before, after, _, r, c, hchain, hinner, hp, htokens,
    hback, hbefore, rfl, rfl, hcompile, hr, hc, hfound, fun hlt => ?_, fun st hstands => ?_⟩
  · rw [hfound, settled_of_lt hcompile hc hlt]
  · obtain ⟨hle, hnode, hcount, hopen⟩ := own_group hcompile rfl hstands
    refine ⟨hle, hnode, hcount, hopen, fun heq => ?_⟩
    rw [hfound, ← heq]
    exact settled_capture hcompile hc hstands _

theorem param_of_path_placeholder_grouped :
    ∃ route r c, Route.ofScope (ofChain
        [.root [], ⟨[(.path, .regex "^/(a|b)/:id$")], [], by decide⟩]) [] [] none = .ok route ∧
      route.conditions.lookup .path = some r ∧ r.captures? "/a/x" = some c ∧
      route.accept? { path := "/a/x" } = some [("id", "x")] ∧
      find? "id" [("id", "x")] = settled (c.get? 2) none := by
  have hanswer : Route.answer? (ofChain
      [.root [], ⟨[(.path, .regex "^/(a|b)/:id$")], [], by decide⟩]) [] [] { path := "/a/x" } =
        some [("id", "x")] := by decide +kernel
  obtain ⟨route, hroute, haccept⟩ := Route.exists_of_answer? hanswer
  have hplace : find? "id" (ofChain [.root [],
      ⟨[(.path, .regex "^/(a|b)/:id$")], [], by decide⟩]).placeholders = some (.path, 2) := by
    decide +kernel
  obtain ⟨_, _, _, _, _, _, _, _, _, r, c, -, -, -, -, -, -, -, -, -, hr, hc, hfound, -⟩ :=
    param_of_path_placeholder hplace
      (keepsPlaceholder_of_free (by simp [Declaration.root])) (by simp) hroute haccept
  exact ⟨route, r, c, hroute, hr, hc, haccept, hfound⟩

/-- A group that captures nothing, before two placeholders. -/
def looseGroupPath : Declaration := ⟨[(.path, .regex "^/(?:@)?:id/:tail$")], [], by decide⟩

/-- A group that captures nothing is counted as one that does: the parameter is what another group
captured than the placeholder's own. -/
theorem param_of_path_placeholder_ne_own :
    ∃ route r c st,
      Route.ofScope (ofChain [.root [("action", "index")], looseGroupPath]) []
        [("action", "index")] none = .ok route ∧
      route.conditions.lookup .path = some r ∧ r.captures? "/a/b" = some c ∧
      Regex.Stands false r.source.toList st (capture ++ ('/' :: (capture ++ ['$']))) ∧
      c.get? (st.captures + 1) = some "a" ∧
      route.accept? { path := "/a/b" } = some [("action", "index"), ("id", "b")] := by
  have hanswer : Route.answer? (ofChain [.root [("action", "index")], looseGroupPath]) []
      [("action", "index")] { path := "/a/b" } = some [("action", "index"), ("id", "b")] := by
    decide +kernel
  obtain ⟨route, hroute, haccept⟩ := Route.exists_of_answer? hanswer
  have hplace : find? "id" (ofChain [.root [("action", "index")], looseGroupPath]).placeholders =
      some (.path, 2) := by decide +kernel
  have hsource : find? .path (ofChain [.root [("action", "index")], looseGroupPath]).sources =
      some "^/(?:@)?([^/.,;?]+)/([^/.,;?]+)$".toList := by decide +kernel
  obtain ⟨r, c, hcompile, hr, hc, -⟩ := Route.param_of_placeholder hplace hsource
    (keepsPlaceholder_of_free (by simp [Declaration.root, looseGroupPath])) (by simp) hroute haccept
  have hread : ∃ terms, Regex.Stands false "^/(?:@)?([^/.,;?]+)/([^/.,;?]+)$".toList
      ⟨[], terms, [], {}, 0, []⟩ (capture ++ ('/' :: (capture ++ ['$']))) :=
    ⟨_, .head (.element rfl rfl) (.head (.element rfl rfl) (.head (.element rfl rfl)
      (.head (.element rfl rfl) (.head (.element rfl rfl) (.head (.element rfl rfl) .refl)))))⟩
  obtain ⟨terms, hread⟩ := hread
  have hown : ((Regex.compile "^/(?:@)?([^/.,;?]+)/([^/.,;?]+)$" false).toOption.bind fun r =>
      (r.captures? "/a/b").bind (·.get? 1)) = some "a" := by decide +kernel
  rw [String.ofList_toList] at hcompile
  rw [show Regex.compile _ false = .ok r from hcompile, Except.toOption, Option.bind_some,
    show r.captures? "/a/b" = some c from hc, Option.bind_some] at hown
  exact ⟨route, r, c, _, hroute, hr, hc, (Regex.of_compile hcompile).1.symm ▸ hread, hown, haccept⟩

end Signpost.Placeholder
