import Signpost.Proofs.Declaration.Trace
import Signpost.Proofs.Result

/-! # Outcomes of resources

A plural resource that is declared places the routes of its addresses aside and those of its actions
in the list. It fails when one of these routes does.
-/
namespace Signpost.Trace
open Resource

/-- The step places what is given and succeeds, or fails with the error that is given. -/
def Mirrors (x : Trace Unit) (placings : Except RouteError (List Placing)) : Prop :=
  x.outcome = placings.map (fun _ => ()) ∧ ∀ ps, placings = .ok ps → x.placings = ps

theorem Mirrors.bind {x y : Trace Unit} {first second : Except RouteError (List Placing)}
    (hx : Mirrors x first) (hy : Mirrors y second) :
    Mirrors (x >>= fun _ => y) (do
      let ps ← first
      let qs ← second
      return ps ++ qs) := by
  obtain ⟨hxo, hxp⟩ := hx
  obtain ⟨hyo, hyp⟩ := hy
  cases first with
  | error e =>
    rw [Mirrors, bind_of_error hxo]
    refine ⟨rfl, ?_⟩
    rintro _ ⟨⟩
  | ok ps =>
    rw [Mirrors, bind_of_ok hxo, hyo, hxp ps rfl]
    cases second with
    | error e =>
      refine ⟨rfl, ?_⟩
      rintro _ ⟨⟩
    | ok qs =>
      refine ⟨rfl, ?_⟩
      rintro _ ⟨⟩
      rw [hyp qs rfl]

theorem mirrors_pure : Mirrors (pure ()) (.ok []) := by
  refine ⟨rfl, ?_⟩
  rintro _ ⟨⟩
  rfl

variable {defaults params : Params} {s : Scope}

theorem mirrors_nothing (defaults : Params) (s : Scope) :
    Mirrors (ofStatements defaults s []) (.ok []) := by
  rw [ofStatements]
  exact mirrors_pure

def actionRoute (defaults params : Params) (s : Scope) : Except RouteError Route :=
  Route.ofScope s params defaults none

/-- The route for an address, with the name that is given to it. -/
def addressRoute (defaults : Params) (s : Scope) (address : String × String) :
    Except RouteError Route := do
  let route ← Route.ofScope (s.within [(.path, .literal address.1)] []) [] defaults none
  match route.segments with
  | .ok _ => return { route with name := some address.2 }
  | .error reason => throw (.notReversible address.2 reason)

theorem mirrors_action :
    Mirrors (ofRoute defaults s .listed params none)
      ((actionRoute defaults params s).map fun route => [.listed route]) := by
  rw [Mirrors, ofRoute]
  cases hroute : actionRoute defaults params s with
  | error e =>
    have hbuild : (ofExcept (build defaults s params .listed)).outcome = .error e := hroute
    rw [bind_of_error hbuild]
    refine ⟨rfl, ?_⟩
    rintro _ ⟨⟩
  | ok route =>
    have hbuild : (ofExcept (build defaults s params .listed)).outcome = .ok route := hroute
    rw [bind_of_ok hbuild]
    refine ⟨rfl, ?_⟩
    rintro _ ⟨⟩
    rfl

theorem mirrors_address (path name : String) :
    Mirrors (ofRoute defaults (s.within [(.path, .literal path)] []) .detached [] (some name))
      ((addressRoute defaults s (path, name)).map fun route => [.detached route]) := by
  rw [Mirrors, ofRoute, addressRoute]
  cases hroute : Route.ofScope (s.within [(.path, .literal path)] []) [] defaults none with
  | error e =>
    have hbuild : (ofExcept (build defaults (s.within [(.path, .literal path)] []) []
        .detached)).outcome = .error e := hroute
    rw [bind_of_error hbuild]
    refine ⟨rfl, ?_⟩
    rintro _ ⟨⟩
  | ok route =>
    have hbuild : (ofExcept (build defaults (s.within [(.path, .literal path)] []) []
        .detached)).outcome = .ok route := hroute
    rw [bind_of_ok hbuild]
    obtain ⟨index, conditions, declared, outputs, name', decision, segments, hasRegex⟩ := route
    cases segments with
    | error reason =>
      refine ⟨rfl, ?_⟩
      rintro _ ⟨⟩
    | ok segments =>
      refine ⟨rfl, ?_⟩
      rintro _ ⟨⟩
      rfl

theorem map_mapM_cons {α : Type} (f : α → Except RouteError Route) (kind : Route → Placing) (a : α)
    (as : List α) :
    ((a :: as).mapM f).map (·.map kind) = (do
      let ps ← (f a).map fun route => [kind route]
      let qs ← (as.mapM f).map (·.map kind)
      return ps ++ qs) := by
  rw [List.mapM_cons]
  cases f a with
  | error e => rfl
  | ok route => cases as.mapM f <;> rfl

theorem mirrors_ofActions (defaults params : Params) (scopes : List Scope) :
    Mirrors (ofActions defaults params scopes)
      ((scopes.mapM (actionRoute defaults params)).map (·.map .listed)) := by
  induction scopes with
  | nil => exact mirrors_pure
  | cons s scopes ih =>
    rw [map_mapM_cons]
    exact mirrors_action.bind ih

theorem mirrors_ofAddresses (defaults : Params) (s : Scope) (addresses : List (String × String)) :
    Mirrors (ofAddresses defaults s addresses)
      ((addresses.mapM (addressRoute defaults s)).map (·.map .detached)) := by
  induction addresses with
  | nil => exact mirrors_pure
  | cons address addresses ih =>
    rw [map_mapM_cons]
    exact (mirrors_address address.1 address.2).bind ih

/-- The addresses of the member and collection actions of a resource. -/
def extraAddresses (r : Resolved) (name : String) (options : ResourceOptions) :
    List (String × String) :=
  options.member.map (fun a => ("/:id/" ++ a.action, a.action ++ "_" ++ (r.namePrefix ++ r.singular))) ++
    options.collection.map fun a => ("/" ++ a.action, a.action ++ "_" ++ (r.namePrefix ++ name))

/-- The addresses of the usual actions of a resource. -/
def usualAddresses (r : Resolved) (name : String) : List (String × String) :=
  let single := r.namePrefix ++ r.singular
  [("", r.namePrefix ++ name), ("/:id", single), ("/new", "new_" ++ single),
    ("/:id/edit", "edit_" ++ single), ("/:action/:id", "custom_" ++ single)]

def actionScopes (base : Scope) (options : ResourceOptions) : List Scope :=
  options.member.map (extraScope base "^/:id[/;]") ++
    options.collection.map (extraScope base "^[/;]") ++ pluralActions.map (usualScope base)

theorem ofAddresses_append (first second : List (String × String)) :
    ofAddresses defaults s (first ++ second) =
      ofAddresses defaults s first >>= fun _ => ofAddresses defaults s second := by
  induction first with
  | nil =>
    rw [ofAddresses, pure_bind]
    rfl
  | cons address first ih =>
    rw [List.cons_append, ofAddresses, ofAddresses, ih, bind_assoc]

theorem bind_unit (x : Trace Unit) : (x >>= fun _ => pure ()) = x := by
  obtain ⟨placings, outcome⟩ := x
  cases outcome with
  | error e => rw [bind_of_error rfl]
  | ok =>
    rw [bind_of_ok rfl]
    exact congrArg (Trace.mk · _) (List.append_nil placings)

variable {r : Resolved} {name : String} {options : ResourceOptions}

/-- The scope of a resource at the root. -/
def collectionScope (defaults : Params) (name : String) : Scope :=
  (Draft.root defaults).within [(.path, .literal ("/" ++ name))] []

/-- The scope inside a member of a resource at the root. -/
def memberScope (defaults : Params) (name : String) (r : Resolved) : Scope :=
  (collectionScope defaults name).within [(.path, .literal ("/:" ++ r.singular ++ "_id"))] []

/-- What a resource declares on its scope: its addresses and its actions in turn. -/
def ofResource (defaults : Params) (base : Scope) (r : Resolved) (name : String)
    (options : ResourceOptions) : Trace Unit := do
  ofAddresses defaults base (extraAddresses r name options)
  ofActions defaults r.params (actionScopes base options)
  ofAddresses defaults base (usualAddresses r name)

/-- A plural resource whose options are accepted declares its addresses and actions inside its path,
and answers with the scope inside a member. -/
theorem ofPlural_of_resolve (hresolve : resolve s name options = .ok r) :
    ofPlural defaults s name options =
      ofResource defaults (s.within [(.path, .literal ("/" ++ name))] []) r name options >>=
        fun _ => pure ((s.within [(.path, .literal ("/" ++ name))] []).within
          [(.path, .literal ("/:" ++ r.singular ++ "_id"))] []) := by
  have hresolved : ofExcept (resolve s name options) = pure r := by
    rw [hresolve]
    rfl
  rw [ofPlural, hresolved, pure_bind, ofResource, extraAddresses, ofAddresses_append]
  simp only [bind_assoc, actionScopes, usualAddresses]

theorem ofPlural_root (hresolve : resolve (Draft.root defaults) name options = .ok r) :
    ofPlural defaults (Draft.root defaults) name options =
      ofResource defaults (collectionScope defaults name) r name options >>= fun _ =>
        pure (memberScope defaults name r) :=
  ofPlural_of_resolve hresolve

/-- A resource alone at the root, and then what is declared inside it. -/
theorem ofDeclaration_resources
    (hresolve : resolve (Draft.root defaults) name options = .ok r) (body : List Statement) :
    ofDeclaration defaults [.resources name options body] =
      ofResource defaults (collectionScope defaults name) r name options >>= fun _ =>
        ofStatements defaults (memberScope defaults name r) body := by
  have hnested : ofDeclaration defaults [.resources name options body] =
      ofPlural defaults (Draft.root defaults) name options >>= fun s =>
        ofStatements defaults s body := by
    rw [ofDeclaration, ofStatements, ofStatement]
    exact bind_unit _
  rw [hnested, ofPlural_root hresolve, bind_assoc]
  simp only [pure_bind]

/-- What a resource places on its scope, if every route of it can be made. -/
def resourcePlacings (defaults : Params) (base : Scope) (r : Resolved) (name : String)
    (options : ResourceOptions) : Except RouteError (List Placing) := do
  let extra ← (extraAddresses r name options).mapM (addressRoute defaults base)
  let actions ← (actionScopes base options).mapM (actionRoute defaults r.params)
  let usual ← (usualAddresses r name).mapM (addressRoute defaults base)
  return extra.map .detached ++ (actions.map .listed ++ usual.map .detached)

theorem mirrors_ofResource (defaults : Params) (base : Scope) (r : Resolved) (name : String)
    (options : ResourceOptions) :
    Mirrors (ofResource defaults base r name options)
      (resourcePlacings defaults base r name options) := by
  have hsteps := (mirrors_ofAddresses defaults base (extraAddresses r name options)).bind
    ((mirrors_ofActions defaults r.params (actionScopes base options)).bind
      (mirrors_ofAddresses defaults base (usualAddresses r name)))
  rw [ofResource, resourcePlacings]
  convert hsteps using 1
  cases (extraAddresses r name options).mapM (addressRoute defaults base) with
  | error e => rfl
  | ok extra =>
    cases (actionScopes base options).mapM (actionRoute defaults r.params) with
    | error e => rfl
    | ok actions => cases (usualAddresses r name).mapM (addressRoute defaults base) <;> rfl

section Body
variable {body : List Statement} {inner : Except RouteError (List Placing)}

theorem mirrors_resources (hresolve : resolve (Draft.root defaults) name options = .ok r)
    (hbody : Mirrors (ofStatements defaults (memberScope defaults name r) body) inner) :
    Mirrors (ofDeclaration defaults [.resources name options body]) (do
      let ps ← resourcePlacings defaults (collectionScope defaults name) r name options
      let qs ← inner
      return ps ++ qs) := by
  rw [ofDeclaration_resources hresolve]
  exact (mirrors_ofResource defaults _ r name options).bind hbody

theorem error_of_resources (hresolve : resolve (Draft.root defaults) name options = .ok r)
    (hbody : Mirrors (ofStatements defaults (memberScope defaults name r) body) inner)
    {e : RouteError}
    (h : (ofDeclaration defaults [.resources name options body]).outcome = .error e) :
    let base := collectionScope defaults name
    (∃ a ∈ extraAddresses r name options ++ usualAddresses r name,
        addressRoute defaults base a = .error e) ∨
      (∃ s ∈ actionScopes base options, actionRoute defaults r.params s = .error e) ∨
        inner = .error e := by
  intro base
  rw [(mirrors_resources hresolve hbody).1] at h
  rcases of_bind_eq_error (eq_error_of_map_eq_error h) with hplacings | ⟨ps, -, hinner⟩
  · rcases of_bind_eq_error hplacings with hextra | ⟨extra, -, hplacings⟩
    · obtain ⟨a, ha, herror⟩ := exists_of_mapM_eq_error hextra
      exact Or.inl ⟨a, List.mem_append_left _ ha, herror⟩
    rcases of_bind_eq_error hplacings with hactions | ⟨actions, -, hplacings⟩
    · exact Or.inr (Or.inl (exists_of_mapM_eq_error hactions))
    rcases of_bind_eq_error hplacings with husual | ⟨usual, -, hplacings⟩
    · obtain ⟨a, ha, herror⟩ := exists_of_mapM_eq_error husual
      exact Or.inl ⟨a, List.mem_append_right _ ha, herror⟩
    · cases hplacings
  · rcases of_bind_eq_error hinner with hinner | ⟨qs, -, hdone⟩
    · exact Or.inr (Or.inr hinner)
    · cases hdone

/-- The routes of a resource that is declared, addresses aside and actions in the list, before those
inside it. -/
theorem placings_of_resources (hresolve : resolve (Draft.root defaults) name options = .ok r)
    (hbody : Mirrors (ofStatements defaults (memberScope defaults name r) body) inner)
    (h : (ofDeclaration defaults [.resources name options body]).outcome = .ok ()) :
    let base := collectionScope defaults name
    ∃ extra actions usual more,
      (extraAddresses r name options).mapM (addressRoute defaults base) = .ok extra ∧
      (actionScopes base options).mapM (actionRoute defaults r.params) = .ok actions ∧
      (usualAddresses r name).mapM (addressRoute defaults base) = .ok usual ∧
      inner = .ok more ∧
      (ofDeclaration defaults [.resources name options body]).placings =
        extra.map .detached ++ (actions.map .listed ++ usual.map .detached) ++ more := by
  intro base
  have hmirrors := mirrors_resources hresolve hbody
  rw [hmirrors.1] at h
  obtain ⟨all, hall, -⟩ := exists_of_map_eq_ok h
  have hplaced := hmirrors.2 all hall
  obtain ⟨ps, hps, hall⟩ := exists_of_bind_eq_ok hall
  obtain ⟨more, hmore, hall⟩ := exists_of_bind_eq_ok hall
  obtain ⟨extra, hextra, hps⟩ := exists_of_bind_eq_ok hps
  obtain ⟨actions, hactions, hps⟩ := exists_of_bind_eq_ok hps
  obtain ⟨usual, husual, hps⟩ := exists_of_bind_eq_ok hps
  refine ⟨extra, actions, usual, more, hextra, hactions, husual, hmore, ?_⟩
  rw [hplaced]
  cases hps
  exact (Except.ok.inj hall).symm

end Body

end Signpost.Trace
