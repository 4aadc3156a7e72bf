import Signpost.Proofs.Route.Accept
import Signpost.Proofs.Router.Single
import Signpost.Proofs.Scope.Sources
import Signpost.Proofs.Template.Behind

/-! # A literal path inside a hand-written one

The path of a scope goes on behind a hand-written path without the dollar sign at its end. The text
inside follows its last branch only, and is read as that branch leaves the flags.
-/
namespace Signpost
open Entries Placeholder

namespace Scope

/-- A path without the dollar sign that joining drops from its end. -/
def withoutEnd (head : List Char) : List Char :=
  if head.getLast? = some '$' then head.dropLast else head

theorem joinFragments_start (head tail : List Char) :
    joinFragments head ('^' :: tail) = withoutEnd head ++ tail := rfl

theorem withoutEnd_eq_or (head : List Char) :
    withoutEnd head = head ∨ withoutEnd head ++ ['$'] = head := by
  unfold withoutEnd
  split
  · rename_i hlast
    exact Or.inr (List.dropLast_append_getLast? _ hlast)
  · exact Or.inl rfl

end Scope

namespace Route
open Scope Regex Template

/-- The anchor at the end of a path of one branch adds nothing to a run to the end of the text. -/
theorem run_withoutEnd_iff {head : List Char} {node node' : Node} {groups groups' : Nat}
    {st : ReadState} (h : parse (withoutEnd head) false = .ok (node, groups))
    (h' : parse head false = .ok (node', groups')) (hstands : Stands false (withoutEnd head) st [])
    (hverbose : st.flags.verbose = false) (hbranches : st.branches = [])
    (hmultiLine : st.flags.multiLine = false) {text : List Char} {s t : Spot}
    (ht : t.pos = text.length) : node'.Run text.toArray s t ↔ node.Run text.toArray s t := by
  rcases withoutEnd_eq_or head with heq | heq
  · rw [heq, h'] at h
    cases h
    rfl
  · rw [← heq, show ['$'] = Pattern.escape [] ++ ['$'] from rfl] at h'
    have hcloses : Closes (Pattern.escape [] ++ ['$']) := ⟨'$', by decide, rfl⟩
    obtain ⟨st', hstands', hnode, hrun⟩ := run_followed h h' hcloses
    cases hstands'.unique hstands
    have hend : st.flags.endLook = .textEnd := if_neg (by rw [hmultiLine]; exact Bool.false_ne_true)
    have hholds : Look.textEnd.holds (charBefore text.toArray t.pos) text.toArray[t.pos]? = true := by
      simp [Look.holds, ht]
    have hone : (branchTerm st.terms).node = node := by
      rw [← hnode, hbranches]
      rfl
    rw [hrun hverbose, hbranches, hend, hone]
    constructor
    · rintro (⟨b, hb, -⟩ | ⟨u, hu, rfl, -⟩)
      · cases hb
      · exact hu
    · intro hnode
      exact Or.inr ⟨t, hnode, rfl, hholds⟩

theorem spelled_literal {text : String} (h : first? text.toList = none) :
    spelled (tokens ((Pattern.literal text).source .path).toList) =
      '^' :: (Pattern.escape text.toList ++ ['$']) := by
  have hsource : (substitute ((Pattern.literal text).source .path).toList).1 =
      '^' :: (body (tokens text.toList) ++ ['$']) := condition_literal_source text
  have hbody : body (text.toList.map .text) = Pattern.escape text.toList := by
    simp [body, expression, List.flatMap_map, Pattern.escape]
  rwa [substitute_eq, tokens_of_first?_none h, hbody] at hsource

/-- A route whose path is a literal text inside a hand-written path accepts what a branch of the
hand-written path has a run in, followed by the text and the end of the path if it is the last
branch. If there is one branch, no flag is in force at its end that changes how the text is read,
and nothing in it asks for the end of the path, then these are the paths made of one that the
hand-written path has a run to the end of and the text. -/
theorem nested_accepts_iff {chain : List Declaration} {params : List (String × String)}
    {defaults : Params} {outer inner : String} {r : Regex} {n : Node} {groups : Nat} {route : Route}
    (hchain : chain.flatMap (·.conditions) = [(.path, .regex outer), (.path, .literal inner)])
    (hkept : Level.isEmptyPath .path outer = false) (houter : first? outer.toList = none)
    (hinner : first? inner.toList = none) (hslash : inner.toList.head? = some '/')
    (hr : Regex.compile outer false = .ok r)
    (hn : parse (withoutEnd outer.toList) false = .ok (n, groups))
    (hroute : Route.ofScope (ofChain chain) params defaults none = .ok route) :
    ∃ st, Stands false (withoutEnd outer.toList) st [] ∧
      (groupBody st.branches st.terms).node = n ∧
      (st.flags.verbose = false →
        (∀ request, (route.accept? request).isSome ↔
          ∃ start t, start ≤ (request.value .path).toList.length ∧
            ((∃ b ∈ st.branches, b.node.Run (request.value .path).toList.toArray ⟨start, []⟩ t) ∨
              ∃ u, (branchTerm st.terms).node.Run (request.value .path).toList.toArray
                  ⟨start, []⟩ u ∧
                RunAll (request.value .path).toList.toArray
                  (inner.toList.map (literalNode st.flags)) u t ∧
                st.flags.endLook.holds (charBefore (request.value .path).toList.toArray t.pos)
                  (request.value .path).toList.toArray[t.pos]? = true)) ∧
        (st.branches = [] → st.flags.ignoreCase = false → st.flags.multiLine = false →
          n.Blind '/' → ∀ request, (route.accept? request).isSome ↔
            ∃ front, (request.value .path).toList = front ++ inner.toList ∧
              ∃ start t, start ≤ front.length ∧ r.node.Run front.toArray ⟨start, []⟩ t ∧
                t.pos = front.length)) := by
  have hlevel : Level.isEmptyPath .path ((Pattern.literal inner).source .path) = false := by
    refine Bool.eq_false_iff.mpr ((isEmptyPath_literal inner).not.mpr ?_)
    intro hnil
    rw [hnil] at hslash
    cases hslash
  have hsources : (ofChain chain).sources =
      [(.path, withoutEnd outer.toList ++ (Pattern.escape inner.toList ++ ['$']))] := by
    rw [sources_of_flatMap_path hchain hkept hlevel, spelled_literal hinner, joinFragments_start]
    exact congrArg (fun head => [(Field.path, withoutEnd head ++ _)])
      (spelled_tokens_of_first?_none houter)
  obtain ⟨r', hr', haccept⟩ := exists_of_single hsources hroute
  have hparse := (Regex.of_compile hr').2.1
  rw [String.toList_ofList] at hparse
  obtain ⟨st, hstands, hnode, hrun⟩ := run_followed hn hparse (closes_escape hslash ['$'])
  refine ⟨st, hstands, hnode, fun hverbose => ?_⟩
  have hfollowed : ∀ request, (route.accept? request).isSome ↔ ∃ start t, _ ∧ _ := fun request =>
    (haccept request).trans ((Regex.isSome_captures?_iff hr').trans (exists_congr fun start =>
      exists_congr fun t => and_congr_right fun _ => hrun hverbose _ ⟨start, []⟩ t))
  refine ⟨hfollowed, fun hbranches hignoreCase hmultiLine hblind request => ?_⟩
  have hone : (branchTerm st.terms).node = n := by
    rw [← hnode, hbranches]
    rfl
  have hliteral : literalNode st.flags = fun c => .read (.single c) := by
    funext c
    rw [literalNode, hignoreCase]
    rfl
  have hend : st.flags.endLook = .textEnd := if_neg (by rw [hmultiLine]; exact Bool.false_ne_true)
  simp only [hfollowed, hbranches, List.not_mem_nil, false_and, exists_false, false_or, hone,
    hliteral, hend]
  rw [run_literal_iff hblind hslash]
  refine exists_congr fun front => and_congr_right fun _ => exists_congr fun start =>
    exists_congr fun t => and_congr_right fun _ => and_congr_left fun ht => ?_
  exact (run_withoutEnd_iff hn (Regex.of_compile hr).2.1 hstands hverbose hbranches hmultiLine
    ht).symm

theorem nested_accepts_iff_group :
    let chain : List Declaration := [⟨[(.path, .regex "^/(a|b)$")], [], by decide⟩,
      ⟨[(.path, .literal "/c.")], [], by decide⟩]
    ∃ route r, Route.ofScope (ofChain chain) [] [] none = .ok route ∧
      Regex.compile "^/(a|b)$" false = .ok r ∧ ∀ request, (route.accept? request).isSome ↔
        ∃ front, (request.value .path).toList = front ++ "/c.".toList ∧
          ∃ start t, start ≤ front.length ∧ r.node.Run front.toArray ⟨start, []⟩ t ∧
            t.pos = front.length := by
  intro chain
  obtain ⟨r, hr⟩ := exists_eq_ok_of_isOk (x := Regex.compile "^/(a|b)$" false) (by rfl)
  obtain ⟨r', hr'⟩ := exists_eq_ok_of_isOk (x := Regex.compile "^/(a|b)/c\\.$" false) (by rfl)
  have hsources : (ofChain chain).sources = [(.path, "^/(a|b)/c\\.$".toList)] := by decide +kernel
  obtain ⟨route, hroute⟩ := exists_ofScope_of_single hsources hr' [] [] none
    (by decide +kernel)
  let n : Node := .cat (.look .textStart) (.cat (.read (.single '/'))
    (.group 1 (.alt (.read (.single 'a')) (.read (.single 'b')))))
  have hn : parse (withoutEnd "^/(a|b)$".toList) false = .ok (n, 1) := by rfl
  have hchain : chain.flatMap (·.conditions) =
      [(.path, .regex "^/(a|b)$"), (.path, .literal "/c.")] := rfl
  obtain ⟨st, hstands, -, haccept⟩ := nested_accepts_iff hchain (by decide) (by decide) (by decide)
    (by decide) hr hn hroute
  have hread : ∃ terms, Stands false (withoutEnd "^/(a|b)$".toList) ⟨[], terms, [], {}, 1, []⟩ [] :=
    ⟨_, .head (.element rfl rfl) (.head (.element rfl rfl) (.head (.element rfl rfl)
      (.head (.element rfl rfl) (.head (.element rfl rfl) (.head (.element rfl rfl)
        (.head (.element rfl rfl) .refl))))))⟩
  obtain ⟨terms, hread⟩ := hread
  cases hstands.unique hread
  have hblind : n.Blind '/' := ⟨Look.blind_textStart, trivial, trivial, trivial⟩
  exact ⟨route, r, hroute, hr, (haccept rfl).2 rfl rfl rfl hblind⟩

/-- A dollar sign at the end that is escaped is no anchor. It is dropped all the same, and the escape
goes to the text inside. -/
theorem nested_misses_escaped_dollar :
    let outer : Node := .cat (.look .textStart) (.cat (.read (.single '/'))
      (.cat (.read (.single 'a')) (.read (.single '$'))))
    let scope : Scope := ofChain [.root [("action", "index")],
      ⟨[(.path, .regex "^/a\\$")], [], by decide⟩, ⟨[(.path, .literal "/c")], [], by decide⟩]
    Regex.compile "^/a\\$" false = .ok ⟨"^/a\\$", 0, outer, outer.code.toArray⟩ ∧
      (∃ t, outer.Run "/a$".toList.toArray ⟨0, []⟩ t ∧ t.pos = "/a$".toList.length) ∧
      ∃ route, Route.ofScope scope [] [("action", "index")] none = .ok route ∧
        route.accept? ⟨"/a$/c", "get", "http://", "", []⟩ = none := by
  intro outer scope
  refine ⟨by rfl, ⟨⟨3, []⟩, ?_, rfl⟩, ?_⟩
  · exact ⟨_, ⟨rfl, rfl⟩, _, ⟨'/', rfl, rfl, rfl⟩, _, ⟨'a', rfl, rfl, rfl⟩, ⟨'$', rfl, rfl, rfl⟩⟩
  · let joined : Node := .cat (.look .textStart) (.cat (.read (.single '/'))
      (.cat (.read (.single 'a')) (.cat (.read (.single '/')) (.cat (.read (.single 'c'))
        (.look .textEnd)))))
    have hjoined : Regex.compile "^/a\\/c$" false =
        .ok ⟨"^/a\\/c$", 0, joined, joined.code.toArray⟩ := by rfl
    have hsources : scope.sources = [(.path, "^/a\\/c$".toList)] := by decide +kernel
    obtain ⟨route, hroute⟩ := exists_ofScope_of_single hsources hjoined [] [("action", "index")]
      none (by decide +kernel)
    obtain ⟨r, hr, haccept⟩ := exists_of_single hsources hroute
    cases hjoined.symm.trans hr
    refine ⟨route, hroute, Option.not_isSome_iff_eq_none.mp ((haccept _).not.mpr ?_)⟩
    rw [Bool.not_eq_true]
    decide +kernel

end Route

end Signpost
