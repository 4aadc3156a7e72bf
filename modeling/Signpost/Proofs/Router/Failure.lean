import Signpost.Proofs.Router.Addition

/-! # Calls that fail

A call that fails leaves the router as it was, wherever in a file or a declaration the failure
arises. A run therefore ends in the router that its other calls make on their own. A success that
brings defaults of its own replaces both the table and the defaults.
-/
namespace Signpost.Router
open Table

def fails (r : Router) : Call → Bool
  | .setDefaults _ => false
  | .prepare body => (r.prepare body).failure.isSome
  | .prepareWithDefaults defaults body => (r.prepareWithDefaults defaults body).failure.isSome
  | .prepend body => (r.prepend body).failure.isSome
  | .append body => (r.append body).failure.isSome
  | .install file => (r.install file).failure.isSome
  | .load bytes =>
    match r.load bytes with
    | .ok _ => false
    | .error _ => true

/-- The calls of a run without those that fail in it. -/
def succeeding (r : Router) : List Call → List Call
  | [] => []
  | call :: calls =>
    if r.fails call then succeeding (r.perform call) calls
    else call :: succeeding (r.perform call) calls

theorem router_of_isSome_failure {r : Router} {how : Splice} {defaults : Option Params}
    {body : List Statement} (h : (r.change how defaults body).failure.isSome = true) :
    (r.change how defaults body).router = r := by
  obtain ⟨e, he⟩ := Option.isSome_iff_exists.mp h
  exact router_of_failure he

theorem perform_of_fails {r : Router} {call : Call} (h : r.fails call = true) :
    r.perform call = r := by
  cases call with
  | setDefaults defaults => cases h
  | prepare body => exact router_of_isSome_failure h
  | prepareWithDefaults defaults body => exact router_of_isSome_failure h
  | prepend body => exact router_of_isSome_failure h
  | append body => exact router_of_isSome_failure h
  | install file => exact router_of_isSome_failure h
  | load bytes =>
    rw [fails] at h
    rw [perform]
    cases hload : r.load bytes with
    | error problem => rfl
    | ok loaded =>
      rw [hload] at h
      cases h

/-- A run comes to the same without the calls that fail in it. -/
theorem performAll_succeeding (r : Router) (calls : List Call) :
    r.performAll (r.succeeding calls) = r.performAll calls := by
  induction calls generalizing r with
  | nil => rfl
  | cons call calls ih =>
    rw [succeeding]
    split
    · rename_i hfails
      change _ = (r.perform call).performAll calls
      rw [perform_of_fails hfails]
      exact ih r
    · exact ih (r.perform call)

theorem succeeding_succeeding (r : Router) (calls : List Call) :
    r.succeeding (r.succeeding calls) = r.succeeding calls := by
  induction calls generalizing r with
  | nil => rfl
  | cons call calls ih =>
    rw [succeeding]
    split
    · rename_i hfails
      rw [perform_of_fails hfails]
      exact ih r
    · rename_i hfails
      rw [succeeding, if_neg hfails, ih]

theorem exists_draft {r : Router} {how : Splice} {defaults : Option Params} {body : List Statement}
    (h : (r.change how defaults body).failure = none) :
    ∃ draft, Statement.declare (defaults.getD r.defaults) body = (.ok (), draft) := by
  rw [change] at h
  split at h
  · rename_i draft hdeclare
    exact ⟨draft, hdeclare⟩
  · cases h

/-- A table that replaces another with its own defaults is that of its declaration alone. -/
theorem router_prepareWithDefaults {r : Router} {defaults : Params} {body : List Statement}
    (h : (r.prepareWithDefaults defaults body).failure = none) :
    ∃ draft, Statement.declare defaults body = (.ok (), draft) ∧
      (r.prepareWithDefaults defaults body).router = ⟨ofDraft draft, defaults⟩ := by
  obtain ⟨draft, hdeclare⟩ := exists_draft h
  refine ⟨draft, hdeclare, ?_⟩
  rw [prepareWithDefaults, change_of_declare hdeclare]
  rfl

/-- A call that fails is not seen in the router, and a run ends as it does without such calls. A
declaration or a file with defaults of its own that succeeds replaces the table and the defaults. -/
theorem failures_are_invisible (r : Router) :
    (∀ call, r.fails call = true → r.perform call = r) ∧
    (∀ defaults body, (r.prepareWithDefaults defaults body).failure = none →
      ∃ draft, Statement.declare defaults body = (.ok (), draft) ∧
        (r.prepareWithDefaults defaults body).router = ⟨ofDraft draft, defaults⟩) ∧
    (∀ file, (r.install file).failure = none →
      ∃ draft, Statement.declare file.installDefaults file.statements = (.ok (), draft) ∧
        (r.install file).router = ⟨ofDraft draft, file.installDefaults⟩) ∧
    ∀ calls, r.performAll (r.succeeding calls) = r.performAll calls ∧
      r.succeeding (r.succeeding calls) = r.succeeding calls := by
  refine ⟨fun call => perform_of_fails, fun defaults body => router_prepareWithDefaults,
    fun file => router_prepareWithDefaults, fun calls => ⟨?_, ?_⟩⟩
  · exact performAll_succeeding r calls
  · exact succeeding_succeeding r calls

/-- Failures after a name was given, in a resource, and for a file that cannot be read, and a
success under other defaults. -/
theorem failures_are_invisible_of_partial :
    let post : Statement := .within [(.path, .literal "/post")] [] [.route .listed [] (some "post")]
    let partly : Call := .prepareWithDefaults [("lang", "de")] [post, .resource "" {} []]
    let calls : List Call :=
      [.prepareWithDefaults [("lang", "en")] [post],
        .append [post, .within [] [] [.route .listed [] none, .reject (.namedRouteNotFound "old")]],
        partly, .load none, .append [post]]
    (after calls).fails partly = true ∧ (after calls).perform partly = after calls ∧
      (new.succeeding calls).length = 2 ∧ after (new.succeeding calls) = after calls ∧
      (new.prepareWithDefaults [("lang", "en")] [post]).failure = none ∧
      ∃ draft, Statement.declare [("lang", "en")] [post] = (.ok (), draft) ∧
        (new.prepareWithDefaults [("lang", "en")] [post]).router =
          ⟨ofDraft draft, [("lang", "en")]⟩ := by
  intro post partly calls
  obtain ⟨hfails, hlength, hok⟩ :
      (after calls).fails partly = true ∧ (new.succeeding calls).length = 2 ∧
        (new.prepareWithDefaults [("lang", "en")] [post]).failure = none := by decide +kernel
  have hnew := failures_are_invisible new
  refine ⟨hfails, (failures_are_invisible (after calls)).1 partly hfails, hlength,
    (hnew.2.2.2 calls).1, hok, hnew.2.1 _ _ hok⟩

end Signpost.Router
