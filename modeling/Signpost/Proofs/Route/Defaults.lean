import Signpost.Proofs.Output.Substitution
import Signpost.Proofs.Route.Accept
import Signpost.Proofs.Route.Parameter
import Signpost.Proofs.Template.Chain

/-! # Defaults as templates and as texts

A default is the template of its parameter in a route that does not declare the parameter. In a route
that captures it, the default stands as it is written for a capture that is missing. The two values
agree if the template is its own value, which an escaped underscore is not.
-/
namespace Signpost
open Entries

namespace Output

theorem isLiteral_append (a b : Output) : (a ++ b).isLiteral = (a.isLiteral && b.isLiteral) :=
  List.all_append

theorem isLiteral_literal (cs : List Char) : (literal cs).isLiteral = true := by
  unfold literal
  split <;> rfl

theorem isLiteral_compile {param template : String} {placeholders : Entries String (Field × Nat)}
    {o : Output} (ho : compile param template placeholders = .ok o) :
    o.isLiteral = true ↔ (splitTemplate [] template.toList).1 = [] := by
  obtain ⟨before, hbefore, heq⟩ := exists_of_bind_eq_ok ho
  cases heq
  rw [isLiteral_append, isLiteral_literal, Bool.and_true]
  cases hparts : (splitTemplate [] template.toList).1 with
  | nil =>
    rw [hparts] at hbefore
    cases hbefore
    simp [isLiteral]
  | cons part parts =>
    rw [hparts, compileParts] at hbefore
    obtain ⟨here, hhere, hbefore⟩ := exists_of_bind_eq_ok hbefore
    obtain ⟨rest, -, hbefore⟩ := exists_of_bind_eq_ok hbefore
    cases hbefore
    obtain ⟨place, peeled, -, rfl⟩ := reference_eq_ok_iff.mp hhere
    simp [isLiteral]

end Output

namespace Route
open Scope Output

/-- The route answers the request with these parameters, and the space is what it captured. -/
structure Matches (route : Route) (request : Request) (space : CaptureSpace) (found : Params) :
    Prop where
  captured : capture route.conditions request = some space
  accepted : route.accept? request = some found

theorem Matches.found_eq {route : Route} {request : Request} {space : CaptureSpace}
    {found : Params} (h : route.Matches request space found) (hdecision : route.decision = none) :
    found = paramsOf route.outputs space := by
  have haccepted := h.accepted
  rw [accept?, h.captured, hdecision] at haccepted
  exact (Option.some.inj haccepted).symm

section Values
variable {defaults : Params} {name default : String} {chain : List Declaration} {route : Route}
  {request : Request} {space : CaptureSpace} {found : Params}

theorem find?_params_of_default (hsorted : Sorted defaults)
    (hchain : ∀ d ∈ chain, ¬ d.Declares name ∧ d.params = []) :
    find? name (ofChain (.root defaults :: chain)).params = find? name defaults := by
  have hfree : ∀ d ∈ chain, ∀ p ∈ d.params, p.1 ≠ name := by
    intro d hd p hp
    rw [(hchain d hd).2] at hp
    cases hp
  rw [← List.singleton_append, find?_params_append (fun d hd => (hchain d hd).1) hfree,
    find?_params_root, hsorted.find?_reverse]

theorem param_of_default (hsorted : Sorted defaults) (hdefault : find? name defaults = some default)
    (hchain : ∀ d ∈ chain, ¬ d.Declares name ∧ d.params = [])
    (hroute : ofScope (ofChain (.root defaults :: chain)) [] defaults none = .ok route)
    (hmatch : route.Matches request space found) :
    ∃ o, compile name default (ofChain (.root defaults :: chain)).placeholders = .ok o ∧
      find? name found = settled (o.evaluate (groupText space))
        (if o.isLiteral then none else some default) := by
  obtain ⟨outputs, conditions, houtputs, -, rfl, -, hdecision⟩ := exists_of_ofScope hroute
  have hname : find? name ((ofChain (.root defaults :: chain)).params.extend []) = some default :=
    (find?_params_of_default hsorted hchain).trans hdefault
  obtain ⟨p, -, hp⟩ := (mem_of_mapM_eq_ok houtputs).1 (name, default) (mem_of_find? hname)
  obtain ⟨o, ho, heq⟩ := exists_of_bind_eq_ok hp
  have hvalue := find?_paramsOf (sorted_extend (sorted_params _) []) houtputs hname hp space
  cases heq
  refine ⟨o, ho, ?_⟩
  rw [hmatch.found_eq hdecision, hvalue, paramValue_eq, hdefault]

theorem param_of_missing (hdefault : find? name defaults = some default)
    (hchain : ∀ d ∈ chain, d.params = []) {field : Field} {group : Nat}
    (hplace : find? name (ofChain (.root defaults :: chain)).placeholders = some (field, group))
    (hroute : ofScope (ofChain (.root defaults :: chain)) [] defaults none = .ok route)
    (hmatch : route.Matches request space found) (hmissing : groupText space field group = none) :
    find? name found = some default := by
  obtain ⟨outputs, conditions, houtputs, -, rfl, -, hdecision⟩ := exists_of_ofScope hroute
  have hkeeps : KeepsPlaceholder chain name := by
    refine keepsPlaceholder_of_free fun d hd p hp => ?_
    rw [hchain d hd] at hp
    cases hp
  have hname : find? name ((ofChain (.root defaults :: chain)).params.extend []) =
      some (":" ++ name) :=
    find?_params_of_declares (exists_declares hplace) (Template.keepsPlaceholder_root hkeeps)
  rw [hmatch.found_eq hdecision, find?_paramsOf (sorted_extend (sorted_params _) []) houtputs hname
    (outputParam_of_placeholder hplace), paramValue_eq, evaluate_capture, hmissing, hdefault]
  rfl

end Values

theorem settled_eq_iff {reading : Option String} {default : String} {isLiteral : Bool} :
    settled reading (if isLiteral then none else some default) = some default ↔
      reading = some default ∨ isLiteral = false ∧ (reading = none ∨ reading = some "") := by
  cases isLiteral with
  | true =>
    have hsettled : settled reading none = reading := by rw [settled, Option.none_or, ite_self]
    simp [hsettled]
  | false =>
    cases reading with
    | none => simp [settled]
    | some text =>
      by_cases htext : text = ""
      · subst htext
        simp [settled]
      · simp [settled, htext]

/-- A route that does not declare a parameter and one that captures it, both under the same defaults.
When the capture is missing, the second one has the default as it is written. The first one has the
same value exactly if the default, as a template, has itself for its value, or has references and no
value or an empty one. Without references that is to say that nothing in it is escaped. -/
theorem default_agrees_iff {defaults : Params} (hsorted : Sorted defaults) {name default : String}
    (hdefault : find? name defaults = some default) {plain capturing : List Declaration}
    (hplain : ∀ d ∈ plain, ¬ d.Declares name ∧ d.params = [])
    (hcapturing : ∀ d ∈ capturing, d.params = []) {field : Field} {group : Nat}
    (hplace : find? name (ofChain (.root defaults :: capturing)).placeholders =
      some (field, group)) {first second : Route}
    (hfirst : ofScope (ofChain (.root defaults :: plain)) [] defaults none = .ok first)
    (hsecond : ofScope (ofChain (.root defaults :: capturing)) [] defaults none = .ok second)
    {request request' : Request} {space space' : CaptureSpace} {found found' : Params}
    (hmatch : first.Matches request space found) (hmatch' : second.Matches request' space' found')
    (hmissing : groupText space' field group = none) :
    find? name found' = some default ∧
    ∃ parts last, SplitsInto default.toList parts last ∧
      (find? name found = find? name found' ↔
        Substitutes (ofChain (.root defaults :: plain)).placeholders space parts last default ∨
        parts ≠ [] ∧
          ((∃ part ∈ parts,
              Missing (ofChain (.root defaults :: plain)).placeholders space part.2) ∨
            Substitutes (ofChain (.root defaults :: plain)).placeholders space parts last "")) ∧
      (parts = [] →
        (find? name found = find? name found' ↔ ¬ ['\\', '_'] <:+: default.toList)) := by
  have hwritten : find? name found' = some default :=
    param_of_missing hdefault hcapturing hplace hsecond hmatch' hmissing
  obtain ⟨o, ho, hvalue⟩ := param_of_default hsorted hdefault hplain hfirst hmatch
  obtain ⟨hnone, hsome⟩ := evaluate_compile ho space
  have hliteral := isLiteral_compile ho
  have hagree : find? name found = find? name found' ↔
      o.evaluate (groupText space) = some default ∨ o.isLiteral = false ∧
        (o.evaluate (groupText space) = none ∨ o.evaluate (groupText space) = some "") := by
    rw [hwritten, hvalue]
    exact settled_eq_iff
  refine ⟨hwritten, (splitTemplate [] default.toList).1, (splitTemplate [] default.toList).2,
    splitsInto_iff.mpr rfl, ?_, fun hparts => ?_⟩
  · rw [hagree, hnone, hsome, hsome, ← Bool.not_eq_true, hliteral]
  · have hlast : (splitTemplate [] default.toList).2 = default.toList := by
      apply SplitsInto.last_eq
      rw [splitsInto_iff, ← hparts]
    rw [hagree, hliteral.mpr hparts, hsome, hparts, hlast, substitutes_nil_iff,
      ← unescape_eq_self_iff, String.ext_iff, String.toList_ofList]
    simp [eq_comm]

/-- What a scope's route answers to a request, with the text of a group. -/
def groupAnswer? (s : Scope) (defaults : Params) (request : Request) (field : Field) (group : Nat) :
    Option (Params × Option String) :=
  (ofScope s [] defaults none).toOption.bind fun route =>
    (capture route.conditions request).map fun space =>
      (paramsOf route.outputs space, groupText space field group)

theorem exists_of_groupAnswer? {s : Scope} {defaults : Params} {request : Request} {field : Field}
    {group : Nat} {found : Params} {text : Option String}
    (h : groupAnswer? s defaults request field group = some (found, text)) :
    ∃ route space, ofScope s [] defaults none = .ok route ∧ route.Matches request space found ∧
      groupText space field group = text := by
  obtain ⟨route, hroute, h⟩ := Option.bind_eq_some_iff.mp h
  obtain ⟨space, hspace, heq⟩ := Option.map_eq_some_iff.mp h
  cases heq
  obtain ⟨outputs, conditions, -, -, rfl, rfl, hdecision⟩ :=
    exists_of_ofScope (eq_ok_of_toOption hroute)
  exact ⟨route, space, eq_ok_of_toOption hroute, ⟨hspace, by rw [accept?, hspace, hdecision]⟩, rfl⟩

/-- A path, and a path with a placeholder in an optional group. -/
def plainPath : Declaration := ⟨[(.path, .regex "^/p$")], [], by decide⟩

def optionalPath : Declaration := ⟨[(.path, .regex "^/q(:k)?$")], [], by decide⟩

theorem not_declares_plainPath : ∀ d ∈ [plainPath], ¬ d.Declares "k" ∧ d.params = [] := by
  refine List.forall_mem_singleton.mpr ⟨?_, rfl⟩
  rintro ⟨e, he, hmem⟩
  rw [List.mem_singleton.mp he] at hmem
  revert hmem
  decide +kernel

/-- A default that is the same text as a template. -/
theorem default_agrees_iff_unescaped :
    ∃ first second space space',
      ofScope (ofChain [.root [("k", "v")], plainPath]) [] [("k", "v")] none = .ok first ∧
      ofScope (ofChain [.root [("k", "v")], optionalPath]) [] [("k", "v")] none = .ok second ∧
      first.Matches { path := "/p" } space [("k", "v")] ∧
      second.Matches { path := "/q" } space' [("k", "v")] ∧
      groupText space' .path 2 = none ∧ find? "k" [("k", "v")] = some "v" := by
  have hplace : find? "k" (ofChain [.root [("k", "v")], optionalPath]).placeholders =
      some (.path, 2) := by decide +kernel
  have hfirst : groupAnswer? (ofChain [.root [("k", "v")], plainPath]) [("k", "v")]
      { path := "/p" } .path 1 = some ([("k", "v")], none) := by decide +kernel
  have hsecond : groupAnswer? (ofChain [.root [("k", "v")], optionalPath]) [("k", "v")]
      { path := "/q" } .path 2 = some ([("k", "v")], none) := by decide +kernel
  obtain ⟨first, space, hfirst, hmatch, -⟩ := exists_of_groupAnswer? hfirst
  obtain ⟨second, space', hsecond, hmatch', hmissing⟩ := exists_of_groupAnswer? hsecond
  have hagrees := default_agrees_iff (List.pairwise_singleton _ _) (by rfl) not_declares_plainPath
    (List.forall_mem_singleton.mpr rfl) hplace hfirst hsecond hmatch hmatch' hmissing
  exact ⟨first, second, space, space', hfirst, hsecond, hmatch, hmatch', hmissing, hagrees.1⟩

/-- The default has an escaped underscore: it is one value where it is a template, and another
where it stands for a capture. -/
theorem default_differs_escaped :
    (∀ d ∈ [plainPath], ¬ d.Declares "k" ∧ d.params = []) ∧ optionalPath.params = [] ∧
    find? "k" (ofChain [.root [("k", "a\\_b")], optionalPath]).placeholders = some (.path, 2) ∧
    ∃ first second space space',
      ofScope (ofChain [.root [("k", "a\\_b")], plainPath]) [] [("k", "a\\_b")] none =
        .ok first ∧
      ofScope (ofChain [.root [("k", "a\\_b")], optionalPath]) [] [("k", "a\\_b")] none =
        .ok second ∧
      first.Matches { path := "/p" } space [("k", "a_b")] ∧
      second.Matches { path := "/q" } space' [("k", "a\\_b")] ∧
      groupText space' .path 2 = none ∧
      find? "k" [("k", "a_b")] ≠ find? "k" [("k", "a\\_b")] := by
  have hplace : find? "k" (ofChain [.root [("k", "a\\_b")], optionalPath]).placeholders =
      some (.path, 2) := by decide +kernel
  have hfirst : groupAnswer? (ofChain [.root [("k", "a\\_b")], plainPath]) [("k", "a\\_b")]
      { path := "/p" } .path 1 = some ([("k", "a_b")], none) := by decide +kernel
  have hsecond : groupAnswer? (ofChain [.root [("k", "a\\_b")], optionalPath]) [("k", "a\\_b")]
      { path := "/q" } .path 2 = some ([("k", "a\\_b")], none) := by decide +kernel
  obtain ⟨first, space, hfirst, hmatch, -⟩ := exists_of_groupAnswer? hfirst
  obtain ⟨second, space', hsecond, hmatch', hmissing⟩ := exists_of_groupAnswer? hsecond
  exact ⟨not_declares_plainPath, rfl, hplace, first, second, space, space', hfirst, hsecond,
    hmatch, hmatch', hmissing, by decide⟩

end Route

end Signpost
