import Signpost.Proofs.Table.Place
import Signpost.Router

/-! # Changes of routers

A change splices what the trace of its declaration places into the table, or changes nothing.
Declaring routes and appending others comes to the same as declaring all of them at once, since no
route depends on what was placed before it.
-/
namespace Signpost.Router
open Table

theorem ofDraft_declaration (defaults : Params) (placings : List Placing) (journal : List Note) :
    ofDraft { (Draft.empty defaults).placeAll placings with journal } = empty.placeAll placings :=
  ofDraft_placeAll (d := Draft.empty defaults) (fun _ h => nomatch h) placings

/-- What a change of the router places, if its declaration succeeds. -/
def changeTrace (r : Router) (defaults : Option Params) (body : List Statement) : Trace Unit :=
  Trace.ofDeclaration (defaults.getD r.defaults) body

theorem changeTrace_new (body : List Statement) :
    new.changeTrace none body = Trace.ofDeclaration initialDefaults body := rfl

variable {r : Router} {defaults : Option Params} {body : List Statement}

theorem change_of_ok (h : (r.changeTrace defaults body).outcome = .ok ()) (how : Splice) :
    (r.change how defaults body).failure = none ∧
      (r.change how defaults body).router =
        ⟨r.table.splice (empty.placeAll (r.changeTrace defaults body).placings) how,
          defaults.getD r.defaults⟩ := by
  obtain ⟨journal, hdeclare⟩ := Statement.declare_eq (defaults.getD r.defaults) body
  rw [changeTrace] at h
  rw [h] at hdeclare
  rw [change, hdeclare]
  refine ⟨rfl, ?_⟩
  simp only [ofDraft_declaration, changeTrace]

theorem change_of_error {e : RouteError} (h : (r.changeTrace defaults body).outcome = .error e)
    (how : Splice) :
    (r.change how defaults body).failure = some e ∧ (r.change how defaults body).router = r := by
  obtain ⟨journal, hdeclare⟩ := Statement.declare_eq (defaults.getD r.defaults) body
  rw [changeTrace] at h
  rw [h] at hdeclare
  rw [change, hdeclare]
  exact ⟨rfl, rfl⟩

theorem outcome_of_failure {how : Splice} (h : (r.change how defaults body).failure = none) :
    (r.changeTrace defaults body).outcome = .ok () := by
  cases ht : (r.changeTrace defaults body).outcome with
  | ok => rfl
  | error e =>
    rw [(change_of_error ht how).1] at h
    cases h

theorem outcome_of_failure_some {how : Splice} {e : RouteError}
    (h : (r.change how defaults body).failure = some e) :
    (r.changeTrace defaults body).outcome = .error e := by
  cases ht : (r.changeTrace defaults body).outcome with
  | ok =>
    rw [(change_of_ok ht how).1] at h
    cases h
  | error e' =>
    rw [(change_of_error ht how).1] at h
    rw [Option.some.inj h]

theorem router_of_failure {how : Splice} {e : RouteError}
    (h : (r.change how defaults body).failure = some e) :
    (r.change how defaults body).router = r :=
  (change_of_error (outcome_of_failure_some h) how).2

/-- Declaring routes and appending others makes the router that declaring all at once makes. Both
declarations succeed under the same defaults. -/
theorem append_prepare_eq_prepare_append (r : Router) (first second : List Statement)
    (hfirst : (r.prepare first).failure = none) (hsecond : (r.prepare second).failure = none) :
    let appended := (r.prepare first).router.append second
    let whole := r.prepare (first ++ second)
    appended.failure = none ∧ whole.failure = none ∧ appended.router = whole.router := by
  have hone : (r.changeTrace none first).outcome = .ok () := outcome_of_failure hfirst
  have htwo : (r.changeTrace none second).outcome = .ok () := outcome_of_failure hsecond
  have hboth : r.changeTrace none (first ++ second) =
      ⟨(r.changeTrace none first).placings ++ (r.changeTrace none second).placings, .ok ()⟩ := by
    have happend := Trace.ofDeclaration_append r.defaults first second
    rw [Trace.bind_of_ok (x := Trace.ofDeclaration r.defaults first) hone] at happend
    exact happend.trans (congrArg (Trace.mk _) htwo)
  -- `second` runs under the defaults that the first change has left as they were
  have hprepared : (r.prepare first).router =
      ⟨empty.placeAll (r.changeTrace none first).placings, r.defaults⟩ :=
    (change_of_ok hone .replace).2
  have hlater : ((r.prepare first).router.changeTrace none second).outcome = .ok () := by
    rw [hprepared]
    exact htwo
  have happended := change_of_ok hlater .append
  have hwhole := change_of_ok (congrArg Trace.outcome hboth) .replace
  refine ⟨happended.1, hwhole.1, happended.2.trans (Eq.trans ?_ hwhole.2.symm)⟩
  rw [hboth, hprepared]
  change (⟨(empty.placeAll _).splice (empty.placeAll _) .append, _⟩ : Router) = ⟨empty.placeAll _, _⟩
  rw [splice_append (sorted_placeAll Entries.sorted_nil _), placeAll_append]
  rfl

/-- A name that changes hands, a failure that is tried, and an address for another path. -/
theorem append_prepare_eq_prepare_append_of_taken :
    let first : List Statement :=
      [.within [(.path, .literal "/news")] [("section", "news")]
        [.route .listed [] (some "feed"),
          .attempt [.route .listed [("view", "wide")] none, .reject (.namedRouteNotFound "old")],
          .route .detached [] (some "archive")]]
    let second : List Statement :=
      [.within [(.path, .literal "/blog")] [] [.route .listed [] (some "feed")]]
    let appended := (new.prepare first).router.append second
    let whole := new.prepare (first ++ second)
    (new.prepare first).failure = none ∧ (new.prepare second).failure = none ∧
      appended.failure = none ∧ whole.failure = none ∧ appended.router = whole.router ∧
      whole.router.size = 3 ∧ (whole.router.namedRoute? "feed").map Route.index = some 2 := by
  intro first second appended whole
  obtain ⟨hfirst, hsecond, hsize, hindex⟩ :
      (new.prepare first).failure = none ∧ (new.prepare second).failure = none ∧
        whole.router.size = 3 ∧ (whole.router.namedRoute? "feed").map Route.index = some 2 := by
    decide +kernel
  have h := append_prepare_eq_prepare_append new first second hfirst hsecond
  exact ⟨hfirst, hsecond, h.1, h.2.1, h.2.2, hsize, hindex⟩

end Signpost.Router
