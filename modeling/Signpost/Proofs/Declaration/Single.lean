import Signpost.Proofs.Declaration.Outcome

/-! # Resources as single declarations

A resource comes to a list of single declarations inside its path, each of one route, and to its
block. What it places, and how it ends, is what these place and how they end in a row.
-/
namespace Signpost
open Resource (Resolved)

namespace Statement

def ofAddress (address : String × String) : Statement :=
  .within [(.path, .literal address.1)] [] [.route .detached [] (some address.2)]

def ofUsual (params : Params) (a : UsualAction) : Statement :=
  .within (Entries.ofList [(.path, .regex a.path), (.method, .symbol a.method)])
    [("action", a.action)] [.route .listed params none]

/-- An extra action; `opening` is the expression before its name. -/
def ofExtra (params : Params) (opening : String) (a : ExtraAction) : Statement :=
  .within
    (Entries.ofList [(.path, .regex (opening ++ a.action ++ "$")),
      (.method, Resource.methodsPattern a.methods)])
    [("action", a.action)] [.route .listed params none]

def pluralSingles (r : Resolved) (name : String) (options : ResourceOptions) : List Statement :=
  (Trace.extraAddresses r name options).map ofAddress ++
    ((options.member.map (ofExtra r.params "^/:id[/;]") ++
      options.collection.map (ofExtra r.params "^[/;]") ++
      Resource.pluralActions.map (ofUsual r.params)) ++
    (Trace.usualAddresses r name).map ofAddress)

def singularAddresses (r : Resolved) (name : String) : List (String × String) :=
  let single := r.namePrefix ++ name
  [("", single), ("/new", "new_" ++ single), ("/edit", "edit_" ++ single)]

def singularSingles (r : Resolved) (name : String) : List Statement :=
  Resource.singularActions.map (ofUsual r.params) ++ (singularAddresses r name).map ofAddress

/-- What a resource comes to on a scope, unless its options are refused. Other statements are as they
are. -/
def expand (s : Scope) : Statement → Except RouteError Statement
  | .resources name options body =>
    (Resource.resolve s name options).map fun r =>
      .within [(.path, .literal ("/" ++ name))] []
        (pluralSingles r name options ++
          [.within [(.path, .literal ("/:" ++ r.singular ++ "_id"))] [] body])
  | .resource name options body =>
    if !options.member.isEmpty || !options.collection.isEmpty then
      .error (.invalidOptions (.singularActions name))
    else
      (Resource.resolve s name options).map fun r =>
        .within [(.path, .literal ("/" ++ name))] [] (singularSingles r name ++ [.block body])
  | statement => .ok statement

end Statement

namespace Trace
open Statement
variable {defaults params : Params} {s : Scope}

theorem ofStatements_singleton (statement : Statement) :
    ofStatements defaults s [statement] = ofStatement defaults s statement := by
  rw [ofStatements, ofStatements]
  exact bind_unit _

theorem ofStatements_map_cons {α : Type} (f : α → Statement) (a : α) (as : List α) :
    ofStatements defaults s ((a :: as).map f) =
      ofStatement defaults s (f a) >>= fun _ => ofStatements defaults s (as.map f) := by
  rw [List.map_cons, ofStatements]

theorem ofStatement_within (conditions : Conditions) (own : List (String × String))
    (statement : Statement) :
    ofStatement defaults s (.within conditions own [statement]) =
      ofStatement defaults (s.within conditions own) statement := by
  rw [ofStatement, ofStatements_singleton]

theorem ofStatement_route (placement : Placement) (own : List (String × String))
    (name : Option String) :
    ofStatement defaults s (.route placement own name) = ofRoute defaults s placement own name := by
  rw [ofStatement]

theorem ofStatements_addresses (addresses : List (String × String)) :
    ofStatements defaults s (addresses.map ofAddress) = ofAddresses defaults s addresses := by
  induction addresses with
  | nil => rw [List.map_nil, ofStatements, ofAddresses]
  | cons address addresses ih =>
    rw [ofStatements_map_cons, ofAddresses, ih, ofAddress, ofStatement_within, ofStatement_route]

theorem ofStatements_actions {α : Type} {f : α → Statement} {scope : α → Scope}
    (h : ∀ a, ofStatement defaults s (f a) = ofRoute defaults (scope a) .listed params none)
    (as : List α) :
    ofStatements defaults s (as.map f) = ofActions defaults params (as.map scope) := by
  induction as with
  | nil => rw [List.map_nil, ofStatements, List.map_nil, ofActions]
  | cons a as ih => rw [ofStatements_map_cons, List.map_cons, ofActions, ih, h]

theorem ofStatements_usual (as : List UsualAction) :
    ofStatements defaults s (as.map (ofUsual params)) =
      ofActions defaults params (as.map (Resource.usualScope s)) :=
  ofStatements_actions
    (fun a => by rw [ofUsual, ofStatement_within, ofStatement_route, Resource.usualScope]) as

theorem ofStatements_extra (opening : String) (as : List ExtraAction) :
    ofStatements defaults s (as.map (ofExtra params opening)) =
      ofActions defaults params (as.map (Resource.extraScope s opening)) :=
  ofStatements_actions
    (fun a => by rw [ofExtra, ofStatement_within, ofStatement_route, Resource.extraScope]) as

theorem ofActions_append (first second : List Scope) :
    ofActions defaults params (first ++ second) =
      ofActions defaults params first >>= fun _ => ofActions defaults params second := by
  induction first with
  | nil =>
    rw [ofActions, pure_bind]
    rfl
  | cons s first ih => rw [List.cons_append, ofActions, ofActions, ih, bind_assoc]

variable {r : Resolved} {name : String} {options : ResourceOptions}

theorem ofStatements_pluralSingles (r : Resolved) (name : String) (options : ResourceOptions) :
    ofStatements defaults s (pluralSingles r name options) =
      ofResource defaults s r name options := by
  rw [pluralSingles, ofResource, actionScopes, ofStatements_append, ofStatements_append,
    ofStatements_append, ofStatements_append, ofStatements_addresses, ofStatements_addresses,
    ofStatements_extra, ofStatements_extra, ofStatements_usual, ofActions_append, ofActions_append]

theorem ofSingular_of_resolve (hmember : options.member = []) (hcollection : options.collection = [])
    (hresolve : Resource.resolve s name options = .ok r) :
    ofSingular defaults s name options =
      ofStatements defaults (s.within [(.path, .literal ("/" ++ name))] [])
          (singularSingles r name) >>=
        fun _ => pure (s.within [(.path, .literal ("/" ++ name))] []) := by
  have hresolved : ofExcept (Resource.resolve s name options) = pure r := by
    rw [hresolve]
    rfl
  rw [ofSingular, if_neg (by rw [hmember, hcollection]; decide), hresolved, pure_bind,
    singularSingles, ofStatements_append, ofStatements_usual, ofStatements_addresses, bind_assoc]
  rfl

/-- A statement does what it comes to, or fails at once when it is refused. -/
theorem ofStatement_expand (s : Scope) (statement : Statement) :
    ofStatement defaults s statement =
      match expand s statement with
      | .ok expanded => ofStatement defaults s expanded
      | .error e => ofExcept (.error e) := by
  cases statement with
  | resources name options body =>
    rw [expand, ofStatement]
    cases hresolve : Resource.resolve s name options with
    | error e =>
      have hplural : (ofPlural defaults s name options).outcome = .error e := by
        rw [ofPlural, hresolve]
        rfl
      rw [bind_of_error hplural, ofPlural, hresolve]
      rfl
    | ok r =>
      rw [ofPlural_of_resolve hresolve, bind_assoc]
      simp only [pure_bind, Except.map]
      rw [ofStatement, ofStatements_append, ofStatements_pluralSingles, ofStatements_singleton,
        ofStatement]
  | resource name options body =>
    rw [ofStatement]
    by_cases hextra : (!options.member.isEmpty || !options.collection.isEmpty) = true
    · rw [expand, if_pos hextra, ofSingular, if_pos hextra]
      rfl
    · rw [expand, if_neg hextra]
      obtain ⟨hmember, hcollection⟩ : options.member = [] ∧ options.collection = [] := by
        simpa using hextra
      cases hresolve : Resource.resolve s name options with
      | error e =>
        have hsingular : ofSingular defaults s name options = ofExcept (.error e) := by
          rw [ofSingular, if_neg hextra, hresolve]
          rfl
        rw [hsingular]
        rfl
      | ok r =>
        rw [ofSingular_of_resolve hmember hcollection hresolve, bind_assoc]
        simp only [pure_bind, Except.map]
        rw [ofStatement, ofStatements_append, ofStatements_singleton, ofStatement]
  | within conditions own body => rfl
  | block body => rfl
  | route placement own name => rfl
  | attempt body => rfl
  | reject error => rfl

end Trace

end Signpost
