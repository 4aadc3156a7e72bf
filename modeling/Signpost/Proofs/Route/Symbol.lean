import Signpost.Proofs.Regex.Anchor
import Signpost.Proofs.Route.Accept
import Signpost.Proofs.Router.Single

/-! # Symbols

A symbol is put between anchors as it is written. The anchors do not hold it as one unit: they go to
its first and its last branch.
-/
namespace Signpost.Placeholder
open Entries Scope
open Regex (Stands Anchored branchNodes groupBody)

theorem tokens_anchored (cs : List Char) :
    tokens ('^' :: (cs ++ ['$'])) = .text '^' :: (tokens cs ++ [.text '$']) := by
  have hdollar : tokens ['$'] = [.text '$'] := by
    rw [tokens_cons_of_none (atStart?_singleton '$'), tokens_nil]
  rw [tokens_cons_of_none (atStart?_of_ne (by decide) _),
    tokens_append (stops_cons (by decide) []) (by decide), hdollar]

/-- A route whose one condition is a symbol for a field other than the path accepts the values that
some branch of the symbol has a run in: from the start of the value if it is the first branch, and
to its end if it is the last. If there is one branch, it takes the whole value. -/
theorem symbol_accepts_iff {chain : List Declaration} {params : List (String × String)}
    {defaults : Params} {field : Field} {symbol : String} {r : Regex} {route : Route}
    (hfield : field ≠ .path) (hchain : chain.flatMap (·.conditions) = [(field, .symbol symbol)])
    (hr : Regex.compile (Pattern.fold field symbol) (field == .method) = .ok r)
    (hplain : first? (Pattern.fold field symbol).toList = none)
    (hroute : Route.ofScope (ofChain chain) params defaults none = .ok route) :
    ∃ st, Stands (field == .method) (Pattern.fold field symbol).toList st [] ∧
      (groupBody st.branches st.terms).node = r.node ∧
      (st.flags.verbose = false →
        (∀ request, (route.accept? request).isSome ↔
          ∃ start t, start ≤ (request.value field).toList.length ∧
            Anchored (request.value field).toList.toArray st.flags.endLook
              (branchNodes st.branches st.terms) ⟨start, []⟩ t) ∧
        (st.branches = [] → st.flags.multiLine = false → ∀ request,
          (route.accept? request).isSome ↔
            ∃ t, r.node.Run (request.value field).toList.toArray ⟨0, []⟩ t ∧
              t.pos = (request.value field).toList.length)) := by
  have hsources : (ofChain chain).sources =
      [(field, '^' :: ((Pattern.fold field symbol).toList ++ ['$']))] := by
    rw [sources_of_flatMap hchain (Level.isEmptyPath_of_ne hfield _), Pattern.source,
      String.toList_ofList, tokens_anchored]
    simp [spelled_tokens_of_first?_none hplain]
  obtain ⟨r', hr', haccept⟩ := Route.exists_of_single hsources hroute
  have hparse := (Regex.of_compile hr').2.1
  rw [String.toList_ofList] at hparse
  obtain ⟨st, hstands, hnode, hrun⟩ := Regex.run_anchored (Regex.of_compile hr).2.1 hparse
  refine ⟨st, hstands, hnode, fun hverbose => ?_⟩
  have hbranch : ∀ request, (route.accept? request).isSome ↔
      ∃ start t, start ≤ (request.value field).toList.length ∧
        Anchored (request.value field).toList.toArray st.flags.endLook
          (branchNodes st.branches st.terms) ⟨start, []⟩ t := by
    intro request
    rw [haccept, Regex.isSome_captures?_iff hr']
    refine exists_congr fun start => exists_congr fun t => and_congr_right fun hle => ?_
    exact hrun hverbose _ ⟨start, []⟩ t hle
  refine ⟨hbranch, fun hbranches hmultiLine request => ?_⟩
  have hone : branchNodes st.branches st.terms = [r.node] := by
    rw [← hnode, hbranches]
    rfl
  have hend : st.flags.endLook = .textEnd := if_neg (by rw [hmultiLine]; exact Bool.false_ne_true)
  rw [hbranch, hone, hend]
  simp only [Regex.anchored_singleton]
  constructor
  · rintro ⟨start, t, hle, hzero, hrun, hholds⟩
    cases hzero
    exact ⟨t, hrun, (Regex.holds_textEnd_iff hrun (Nat.zero_le _)).mp hholds⟩
  · rintro ⟨t, hrun, hlength⟩
    exact ⟨0, t, Nat.zero_le _, rfl, hrun,
      (Regex.holds_textEnd_iff hrun (Nat.zero_le _)).mpr hlength⟩

theorem symbol_accepts_iff_method :
    ∃ route r, Route.ofScope (ofChain [.root [], ⟨[(.method, .symbol "GET")], [], by decide⟩]) [] []
        none = .ok route ∧
      Regex.compile "get" true = .ok r ∧ ∀ request, (route.accept? request).isSome ↔
        ∃ t, r.node.Run request.method.toList.toArray ⟨0, []⟩ t ∧
          t.pos = request.method.toList.length := by
  obtain ⟨route, hroute⟩ := exists_eq_ok_of_isOk (x := Route.ofScope (ofChain
    [.root [], ⟨[(.method, .symbol "GET")], [], by decide⟩]) [] [] none) (by decide +kernel)
  obtain ⟨r, hr⟩ := exists_eq_ok_of_isOk (x := Regex.compile "get" true) (by decide)
  have hmethod : Field.method ≠ .path := by decide
  have hchain : [Declaration.root [], ⟨[(.method, .symbol "GET")], [], by decide⟩].flatMap
      (·.conditions) = [(.method, .symbol "GET")] := rfl
  obtain ⟨st, hstands, -, haccept⟩ := symbol_accepts_iff hmethod hchain hr (by decide) hroute
  have hread : ∃ terms, Stands true "get".toList ⟨[], terms, [], { ignoreCase := true }, 0, []⟩ [] :=
    ⟨_, .head (.element rfl rfl) (.head (.element rfl rfl) (.head (.element rfl rfl) .refl))⟩
  obtain ⟨terms, hread⟩ := hread
  cases hstands.unique hread
  exact ⟨route, r, hroute, hr, (haccept rfl).2 rfl rfl⟩

/-- The anchors around two alternatives hold one of them each, so that neither is held by both. -/
theorem symbol_accepts_beyond :
    Regex.compile "a|b" false = .ok ⟨"a|b", 0, .alt (.read (.single 'a')) (.read (.single 'b')),
      (Regex.Node.alt (.read (.single 'a')) (.read (.single 'b'))).code.toArray⟩ ∧
    (¬ ∃ t, (Regex.Node.alt (.read (.single 'a')) (.read (.single 'b'))).Run
      "ax".toList.toArray ⟨0, []⟩ t ∧ t.pos = "ax".toList.length) ∧
    Route.answer? (ofChain [.root [("action", "index")],
      ⟨[(.host, .symbol "a|b")], [], by decide⟩]) [] [("action", "index")]
      ⟨"/", "get", "http://", "ax", []⟩ = some [("action", "index")] := by
  refine ⟨by rfl, ?_, by decide +kernel⟩
  rintro ⟨t, ⟨c, -, -, rfl⟩ | ⟨c, -, -, rfl⟩, hlength⟩
  · cases hlength
  · cases hlength

end Signpost.Placeholder
