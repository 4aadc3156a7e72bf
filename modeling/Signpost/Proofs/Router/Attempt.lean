import Signpost.Proofs.Declaration.Leaves
import Signpost.Proofs.Declaration.Outline
import Signpost.Proofs.Resource.Plural

/-! # Attempts that fail

A resource that fails in an attempt is not undone. It leaves the single declarations that were made
before it failed, and the table is the one that these make in its place. The routes and the names that
were there before stay, but for names that were given again.
-/
namespace Signpost
open Entries

namespace Draft
variable (d : Draft)

theorem prefix_placeAll (ps : List Placing) :
    d.routes <+: (d.placeAll ps).routes ∧ d.detached <+: (d.placeAll ps).detached := by
  induction ps generalizing d with
  | nil => exact ⟨List.prefix_rfl, List.prefix_rfl⟩
  | cons p ps ih =>
    obtain ⟨hroutes, hdetached⟩ := ih (d.place p)
    have hplace : d.routes <+: (d.place p).routes ∧ d.detached <+: (d.place p).detached := by
      cases p with
      | listed route => exact ⟨List.prefix_append _ _, List.prefix_rfl⟩
      | detached route => exact ⟨List.prefix_rfl, List.prefix_append _ _⟩
    exact ⟨hplace.1.trans hroutes, hplace.2.trans hdetached⟩

theorem find?_names_placeAll {ps : List Placing} {name : String}
    (h : ∀ p ∈ ps, p.route.name ≠ some name) :
    find? name (d.placeAll ps).names = find? name d.names := by
  induction ps generalizing d with
  | nil => rfl
  | cons p ps ih =>
    obtain ⟨hp, hps⟩ := List.forall_mem_cons.mp h
    refine (ih (d.place p) hps).trans ?_
    rw [place, find?_insertSome, if_neg hp]

end Draft

namespace Trace
variable {defaults : Params} {s : Scope} {body kept : List Statement}

theorem Leaves.ofStatements_attempt (h : Leaves defaults s body kept) :
    ofStatements defaults s [.attempt body] = ofStatements defaults s kept := by
  rw [ofStatements_singleton, ofStatement, h.amounts.2]

end Trace

namespace Router
open Statement Resource

theorem change_congr {r : Router} {defaults : Option Params} {body body' : List Statement}
    (h : r.changeTrace defaults body = r.changeTrace defaults body') (how : Splice) :
    (r.change how defaults body).failure = (r.change how defaults body').failure ∧
      (r.change how defaults body).router = (r.change how defaults body').router := by
  cases houtcome : (r.changeTrace defaults body').outcome with
  | error e =>
    have hbody := change_of_error ((congrArg Trace.outcome h).trans houtcome) how
    have hbody' := change_of_error houtcome how
    exact ⟨hbody.1.trans hbody'.1.symm, hbody.2.trans hbody'.2.symm⟩
  | ok =>
    have hbody := change_of_ok ((congrArg Trace.outcome h).trans houtcome) how
    have hbody' := change_of_ok houtcome how
    rw [h] at hbody
    exact ⟨hbody.1.trans hbody'.1.symm, hbody.2.trans hbody'.2.symm⟩

theorem ofStatements_attempt_of_error {defaults : Params} {s : Scope} {statement : Statement}
    {t : Trace Unit} {e : RouteError} (hdone : t.outcome = .ok ())
    (h : Trace.ofStatement defaults s statement = ⟨t.placings, .error e⟩) :
    Trace.ofStatements defaults s [.attempt [statement]] = t := by
  rw [Trace.ofStatements_singleton, Trace.ofStatement, Trace.ofStatements_singleton, h, ← hdone]

/-- A resource in which a resource without a name is nested. -/
def posts : Statement := .resources "posts" {} [.resource "" {} []]

theorem plainResource_posts : PlainResource "posts" {} :=
  ⟨by decide, rfl, nofun⟩

theorem failure_declare_posts : (declare "posts" {}).failure = none := by
  have hlongest : ∀ a ∈ ([] : List ExtraAction), a.action.length ≤ 0 := nofun
  exact failure_eq_none plainResource_posts hlongest (by decide) nofun
    fun _ _ => ⟨_, compile_verbatim plainResource_posts.name.isVerbatim (by decide) _ _⟩

theorem size_declare_posts : (declare "posts" {}).router.size = 8 := by
  obtain ⟨routes, hserved, hroutes⟩ := exists_served plainResource_posts failure_declare_posts
  rw [size, hroutes, Table.length_renumber, ← hserved.length_eq]
  decide

theorem ofStatement_posts :
    Trace.ofStatement initialDefaults (Draft.root initialDefaults) posts =
      ⟨(new.changeTrace none [.resources "posts" {} []]).placings,
        .error (.invalidOptions (.resourceName ""))⟩ := by
  have hresolve := plainResource_posts.resolve
  have hempty : new.changeTrace none [.resources "posts" {} []] =
      Trace.ofResource initialDefaults (Trace.collectionScope initialDefaults "posts")
        (resolved "posts" {}) "posts" {} := by
    refine (Trace.ofDeclaration_resources hresolve []).trans ?_
    rw [Trace.ofStatements, Trace.bind_unit]
  have hdone := outcome_of_failure failure_declare_posts
  have hbody : Trace.ofStatements initialDefaults
      (Trace.memberScope initialDefaults "posts" (resolved "posts" {})) [.resource "" {} []] =
        ⟨[], .error (.invalidOptions (.resourceName ""))⟩ := by
    rw [Trace.ofStatements_singleton, Trace.ofStatement_expand]
    rfl
  rw [← Trace.ofStatements_singleton]
  refine (Trace.ofDeclaration_resources hresolve [.resource "" {} []]).trans ?_
  rw [← hempty, Trace.bind_of_ok hdone, hbody, List.append_nil]

/-- The routes of the outer resource are placed before the nested one fails. -/
theorem exists_placings_posts :
    ∃ placings : List Placing, (Table.empty.placeAll placings).routes.length = 8 ∧
      Trace.ofStatement initialDefaults (Draft.root initialDefaults) posts =
        ⟨placings, .error (.invalidOptions (.resourceName ""))⟩ := by
  have hsize := size_declare_posts
  rw [Resource.declare, prepare, size,
    (change_of_ok (outcome_of_failure failure_declare_posts) _).2] at hsize
  exact ⟨_, hsize, ofStatement_posts⟩

theorem run_posts :
    ∃ e after, (run (Draft.root initialDefaults) posts).run.run (Draft.empty initialDefaults) =
      (.error e, after) ∧ after.routes.length = 8 := by
  obtain ⟨placings, hsize, hplacings⟩ := exists_placings_posts
  have hfollows : Declare.Follows initialDefaults (run (Draft.root initialDefaults) posts)
      (Trace.ofStatement initialDefaults (Draft.root initialDefaults) posts) :=
    Declare.follows_run _ posts
  rw [hplacings] at hfollows
  obtain ⟨journal, hrun⟩ := hfollows (Draft.empty initialDefaults) rfl
  refine ⟨_, _, hrun, ?_⟩
  have htable := ofDraft_declaration initialDefaults placings journal
  exact (congrArg (fun t => t.routes.length) htable).trans hsize

theorem attempt_posts :
    (new.prepare [.attempt [posts]]).failure = none ∧
      (new.prepare [.attempt [posts]]).router = (declare "posts" {}).router := by
  have hdone : (new.changeTrace none [.resources "posts" {} []]).outcome = .ok () :=
    outcome_of_failure failure_declare_posts
  have htrace : new.changeTrace none [.attempt [posts]] =
      new.changeTrace none [.resources "posts" {} []] := by
    rw [changeTrace_new [.attempt [posts]], Trace.ofDeclaration]
    exact ofStatements_attempt_of_error hdone ofStatement_posts
  obtain ⟨hfailure, hrouter⟩ := change_congr htrace .replace
  exact ⟨hfailure.trans failure_declare_posts, hrouter⟩

/-- A call that fails, of a resource for one, leaves the single declarations that it made before, and
nothing when its options are refused. The draft is then as these declarations make it: what was there
before comes first, and a name changes only if they give it. In any declaration around the call, the
table is the same with these declarations in place of the attempt. -/
theorem failed_call_leaves (call : Statement) (s : Scope) (d after : Draft) (e : RouteError)
    (h : (run s call).run.run d = (.error e, after)) :
    ∃ kept, Trace.Leaves d.defaults s [call] kept ∧
      (∀ e', expand s call = .error e' → kept = []) ∧
      (∃ journal, (runAll s kept).run.run d = (.ok (), { after with journal })) ∧
      d.routes <+: after.routes ∧ d.detached <+: after.detached ∧
      (∀ name, (∀ p ∈ (Trace.ofStatements d.defaults s kept).placings, p.route.name ≠ some name) →
        find? name after.names = find? name d.names) ∧
      ∀ (r : Router) (how : Splice) (defaults : Option Params) (outline : Outline),
        defaults.getD r.defaults = d.defaults →
        outline.scope? (Draft.root d.defaults) = some s →
        let tried := r.change how defaults (outline.fill [.attempt [call]])
        let made := r.change how defaults (outline.fill kept)
        tried.failure = made.failure ∧ tried.router = made.router := by
  obtain ⟨journal, hrun⟩ := Declare.follows_run s call d rfl
  rw [h] at hrun
  obtain ⟨houtcome, hafter⟩ := Prod.mk.inj hrun
  obtain ⟨kept, hleaves, hrefused⟩ : ∃ kept, Trace.Leaves d.defaults s [call] kept ∧
      ∀ e', expand s call = .error e' → kept = [] := by
    cases hexpand : expand s call with
    | error e' => exact ⟨[], .refused hexpand, fun _ _ => rfl⟩
    | ok expanded =>
      obtain ⟨kept, hkept⟩ := Trace.exists_leaves s call houtcome.symm []
      exact ⟨kept, hkept, nofun⟩
  have hplacings : (Trace.ofStatements d.defaults s kept).placings =
      (Trace.ofStatement d.defaults s call).placings := by
    rw [hleaves.amounts.2, Trace.ofStatements_singleton]
  obtain ⟨journal', hkept⟩ := Declare.follows_runAll s kept d rfl
  rw [hleaves.amounts.2, Trace.ofStatements_singleton] at hkept
  refine ⟨kept, hleaves, hrefused, ⟨journal', ?_⟩, ?_, ?_, fun name hname => ?_, ?_⟩
  · rw [hkept, hafter]
  · rw [hafter]
    exact (d.prefix_placeAll _).1
  · rw [hafter]
    exact (d.prefix_placeAll _).2
  · rw [hplacings] at hname
    rw [hafter]
    exact d.find?_names_placeAll hname
  · intro r how defaults outline hdefaults hscope
    refine change_congr ?_ how
    rw [changeTrace, changeTrace, hdefaults]
    refine Trace.ofStatements_fill outline fun s' hs' => ?_
    cases hscope.symm.trans hs'
    exact hleaves.ofStatements_attempt

/-- A nested resource without a name, whose failure is tried with the resource around it. -/
theorem failed_call_leaves_posts :
    ∃ e after kept,
      (run (Draft.root initialDefaults) posts).run.run (Draft.empty initialDefaults) =
        (.error e, after) ∧
      Trace.Leaves initialDefaults (Draft.root initialDefaults) [posts] kept ∧
      (new.prepare [.attempt [posts]]).router = (new.prepare kept).router ∧
      (new.prepare kept).router.size = 8 := by
  obtain ⟨e, after, hrun, -⟩ := run_posts
  obtain ⟨kept, hleaves, -, -, -, -, -, hmade⟩ :=
    failed_call_leaves posts (Draft.root initialDefaults) (Draft.empty initialDefaults) after e hrun
  obtain ⟨-, hrouter⟩ := hmade new .replace none (.here [] []) rfl rfl
  have hkept : Outline.fill kept (.here [] []) = kept := List.append_nil kept
  rw [hkept] at hrouter
  refine ⟨e, after, kept, hrun, hleaves, hrouter, ?_⟩
  have hsize := congrArg size attempt_posts.2
  rw [size_declare_posts] at hsize
  exact (congrArg size hrouter).symm.trans hsize

/-- The routes of the resource stay when the resource nested in it fails. -/
theorem failed_call_leaves_routes :
    (∃ e after, (run (Draft.root initialDefaults) posts).run.run (Draft.empty initialDefaults) =
        (.error e, after) ∧ after.routes.length = 8) ∧
      (new.prepare [.attempt [posts]]).failure = none ∧
      (new.prepare [.attempt [posts]]).router.size = 8 ∧ (new.prepare []).router.size = 0 := by
  refine ⟨run_posts, attempt_posts.1, ?_, rfl⟩
  rw [attempt_posts.2, size_declare_posts]

end Router

end Signpost
