import Signpost.Statement

/-! # Traces of declarations

What a declaration does is the same on every draft: it places routes one after the other, in the
list or aside, and comes to an end or fails. Its trace says so without a draft.
-/
namespace Signpost

/-- A route that a declaration lists or keeps aside, with the name that it gives to the route. -/
inductive Placing where
  | listed (route : Route)
  | detached (route : Route)

def Placing.route : Placing → Route
  | listed route => route
  | detached route => route

/-- What a step of a declaration places, in order, and how it ends. -/
structure Trace (α : Type) where
  placings : List Placing
  outcome : Except RouteError α

namespace Trace

instance : Monad Trace where
  pure a := ⟨[], .ok a⟩
  bind x f :=
    match x.outcome with
    | .ok a => ⟨x.placings ++ (f a).placings, (f a).outcome⟩
    | .error e => ⟨x.placings, .error e⟩

def ofExcept {α : Type} (outcome : Except RouteError α) : Trace α :=
  ⟨[], outcome⟩

/-- Places a route with a name, or without it if the route cannot have one. -/
def place (placing : Route → Placing) (name : Option String) (route : Route) : Trace Unit :=
  match name, route.segments with
  | some name, .ok _ => ⟨[placing { route with name := some name }], .ok ()⟩
  | some name, .error reason => ⟨[placing route], .error (.notReversible name reason)⟩
  | none, _ => ⟨[placing route], .ok ()⟩

theorem place_of_ok {kind : Route → Placing} {name : String} {route : Route}
    {segments : List Segment} (h : route.segments = .ok segments) :
    place kind (some name) route = ⟨[kind { route with name := some name }], .ok ()⟩ := by
  simp only [place, h]

theorem place_of_error {kind : Route → Placing} {name : String} {route : Route}
    {reason : Irreversible} (h : route.segments = .error reason) :
    place kind (some name) route = ⟨[kind route], .error (.notReversible name reason)⟩ := by
  simp only [place, h]

theorem mem_place {kind : Route → Placing} {name : Option String} {route : Route} {p : Placing}
    (h : p ∈ (place kind name route).placings) :
    p = kind route ∨ ∃ name segments, route.segments = .ok segments ∧
      p = kind { route with name := some name } := by
  cases name with
  | none => exact Or.inl (List.mem_singleton.mp h)
  | some name =>
    cases hsegments : route.segments with
    | ok segments =>
      rw [place_of_ok hsegments] at h
      refine Or.inr ⟨name, segments, rfl, ?_⟩
      rw [← hsegments]
      exact List.mem_singleton.mp h
    | error reason =>
      rw [place_of_error hsegments] at h
      exact Or.inl (List.mem_singleton.mp h)

variable (defaults : Params)

def build (s : Scope) (params : List (String × String)) : Placement → Except RouteError Route
  | .listed => Route.ofScope s params defaults none
  | .detached => Route.ofScope s params defaults none
  | .deferred decision => Route.ofScope s params defaults (some decision)
  | .catchAll =>
    Route.ofScope (s.within [(.path, Statement.catchAllPath)] []) params defaults none

def placing : Placement → Route → Placing
  | .detached => .detached
  | .listed => .listed
  | .deferred _ => .listed
  | .catchAll => .listed

theorem route_placing (placement : Placement) (route : Route) :
    (placing placement route).route = route := by
  cases placement <;> rfl

def ofRoute (s : Scope) (placement : Placement) (params : List (String × String))
    (name : Option String) : Trace Unit := do
  let route ← ofExcept (build defaults s params placement)
  place (placing placement) name route

section OfRoute
variable {defaults} {s : Scope} {placement : Placement} {params : List (String × String)}
  {route : Route}

theorem ofRoute_of_error {e : RouteError} (h : build defaults s params placement = .error e)
    (name : Option String) : ofRoute defaults s placement params name = ⟨[], .error e⟩ := by
  rw [ofRoute, h]
  rfl

theorem ofRoute_of_build (h : build defaults s params placement = .ok route)
    (name : Option String) :
    ofRoute defaults s placement params name = place (placing placement) name route := by
  rw [ofRoute, h]
  rfl

end OfRoute

def ofAddresses (s : Scope) : List (String × String) → Trace Unit
  | [] => pure ()
  | (path, name) :: rest => do
    ofRoute defaults (s.within [(.path, .literal path)] []) .detached [] (some name)
    ofAddresses s rest

def ofActions (params : Params) : List Scope → Trace Unit
  | [] => pure ()
  | s :: rest => do
    ofRoute defaults s .listed params none
    ofActions params rest

def ofPlural (s : Scope) (name : String) (options : ResourceOptions) : Trace Scope := do
  let r ← ofExcept (Resource.resolve s name options)
  let base := s.within [(.path, .literal ("/" ++ name))] []
  let plural := r.namePrefix ++ name
  let single := r.namePrefix ++ r.singular
  ofAddresses defaults base
    (options.member.map fun a => ("/:id/" ++ a.action, a.action ++ "_" ++ single))
  ofAddresses defaults base
    (options.collection.map fun a => ("/" ++ a.action, a.action ++ "_" ++ plural))
  ofActions defaults r.params
    (options.member.map (Resource.extraScope base "^/:id[/;]") ++
      options.collection.map (Resource.extraScope base "^[/;]") ++
      Resource.pluralActions.map (Resource.usualScope base))
  ofAddresses defaults base
    [("", plural), ("/:id", single), ("/new", "new_" ++ single), ("/:id/edit", "edit_" ++ single),
     ("/:action/:id", "custom_" ++ single)]
  return base.within [(.path, .literal ("/:" ++ r.singular ++ "_id"))] []

def ofSingular (s : Scope) (name : String) (options : ResourceOptions) : Trace Scope :=
  if !options.member.isEmpty || !options.collection.isEmpty then
    ofExcept (.error (.invalidOptions (.singularActions name)))
  else do
    let r ← ofExcept (Resource.resolve s name options)
    let base := s.within [(.path, .literal ("/" ++ name))] []
    let single := r.namePrefix ++ name
    ofActions defaults r.params (Resource.singularActions.map (Resource.usualScope base))
    ofAddresses defaults base
      [("", single), ("/new", "new_" ++ single), ("/edit", "edit_" ++ single)]
    return base

mutual

/-- What a statement does on a scope. An attempt that fails keeps what it placed. -/
def ofStatement (s : Scope) : Statement → Trace Unit
  | .within conditions params body => ofStatements (s.within conditions params) body
  | .block body => ofStatements s body
  | .route placement params name => ofRoute defaults s placement params name
  | .resources name options body => do
    let nested ← ofPlural defaults s name options
    ofStatements nested body
  | .resource name options body => do
    let nested ← ofSingular defaults s name options
    ofStatements nested body
  | .attempt body => ⟨(ofStatements s body).placings, .ok ()⟩
  | .reject error => ofExcept (.error error)

def ofStatements (s : Scope) : List Statement → Trace Unit
  | [] => pure ()
  | statement :: rest => do
    ofStatement s statement
    ofStatements s rest

end

def ofDeclaration (body : List Statement) : Trace Unit :=
  ofStatements defaults (Draft.root defaults) body

section Bind
variable {α β : Type} {x : Trace α} {f : α → Trace β}

theorem bind_of_ok {a : α} (h : x.outcome = .ok a) :
    x >>= f = ⟨x.placings ++ (f a).placings, (f a).outcome⟩ := by
  change (match x.outcome with | .ok a => _ | .error e => _) = _
  rw [h]

theorem bind_of_error {e : RouteError} (h : x.outcome = .error e) :
    x >>= f = ⟨x.placings, .error e⟩ := by
  change (match x.outcome with | .ok a => _ | .error e => _) = _
  rw [h]

theorem pure_bind (a : α) : (pure a : Trace α) >>= f = f a := by
  rw [bind_of_ok rfl]
  rfl

theorem prefix_bind (x : Trace α) (f : α → Trace β) :
    x.placings <+: (x >>= f).placings := by
  cases hx : x.outcome with
  | error e =>
    have hstop : (x >>= f).placings = x.placings := congrArg Trace.placings (bind_of_error hx)
    exact hstop ▸ List.prefix_rfl
  | ok a =>
    rw [bind_of_ok hx]
    exact List.prefix_append _ _

theorem bind_assoc {γ : Type} (g : β → Trace γ) :
    (x >>= f) >>= g = x >>= fun a => f a >>= g := by
  cases h : x.outcome with
  | error e => rw [bind_of_error h, bind_of_error h, bind_of_error rfl]
  | ok a =>
    rw [bind_of_ok h, bind_of_ok h]
    cases h' : (f a).outcome with
    | error e => rw [bind_of_error h', bind_of_error rfl]
    | ok b => rw [bind_of_ok h', bind_of_ok rfl, List.append_assoc]

end Bind

theorem ofStatements_append (s : Scope) (first second : List Statement) :
    ofStatements defaults s (first ++ second) =
      ofStatements defaults s first >>= fun _ => ofStatements defaults s second := by
  induction first with
  | nil =>
    rw [ofStatements, pure_bind]
    rfl
  | cons statement first ih =>
    rw [List.cons_append, ofStatements, ofStatements, ih, bind_assoc]

theorem ofDeclaration_append (first second : List Statement) :
    ofDeclaration defaults (first ++ second) =
      ofDeclaration defaults first >>= fun _ => ofDeclaration defaults second :=
  ofStatements_append defaults (Draft.root defaults) first second

section Placings
variable {α β : Type} {P : Placing → Prop} {Q : α → Prop} {R : β → Prop}

/-- `P` holds of all that a step places, and `Q` of what it gives. -/
structure Yields (P : Placing → Prop) (Q : α → Prop) (x : Trace α) : Prop where
  placings : ∀ p ∈ x.placings, P p
  outcome : ∀ a, x.outcome = .ok a → Q a

namespace Yields

theorem pure {a : α} (h : Q a) : Yields P Q (Pure.pure a) := by
  refine ⟨fun _ hp => absurd hp List.not_mem_nil, fun b hb => ?_⟩
  cases hb
  exact h

theorem ofExcept (outcome : Except RouteError α) :
    Yields P (fun _ => True) (Trace.ofExcept outcome) :=
  ⟨fun _ hp => absurd hp List.not_mem_nil, fun _ _ => trivial⟩

theorem bind {x : Trace α} {f : α → Trace β} (hx : Yields P Q x)
    (hf : ∀ a, Q a → Yields P R (f a)) : Yields P R (x >>= f) := by
  cases h : x.outcome with
  | error e =>
    rw [bind_of_error h]
    refine ⟨hx.placings, ?_⟩
    rintro _ ⟨⟩
  | ok a =>
    have ha := hf a (hx.outcome a h)
    rw [bind_of_ok h]
    exact ⟨List.forall_mem_append.mpr ⟨hx.placings, ha.placings⟩, ha.outcome⟩

end Yields

/-- It holds of what any single route statement places on a scope with the property, which the levels
inside a scope keep. -/
structure HoldsOfRoutes (defaults : Params) (I : Scope → Prop) (P : Placing → Prop) : Prop where
  within : ∀ {s}, I s → ∀ conditions params, I (s.within conditions params)
  route : ∀ {s}, I s → ∀ placement params name,
    ∀ p ∈ (ofRoute defaults s placement params name).placings, P p

namespace HoldsOfRoutes
variable {defaults : Params} {I : Scope → Prop} {s : Scope}

/-- It is enough to look at a route as it is built, and at the same route with a name when it has
segments. -/
theorem of_build (hwithin : ∀ {s}, I s → ∀ conditions params, I (s.within conditions params))
    (hbuild : ∀ {s}, I s → ∀ placement params route,
      build defaults s params placement = .ok route → P (placing placement route) ∧
        ∀ name segments, route.segments = .ok segments →
          P (placing placement { route with name := some name })) :
    HoldsOfRoutes defaults I P := by
  refine ⟨hwithin, fun {s} hs placement params name => ?_⟩
  cases hroute : build defaults s params placement with
  | error e =>
    rw [ofRoute_of_error hroute]
    exact fun _ hp => absurd hp List.not_mem_nil
  | ok route =>
    obtain ⟨hplain, hnamed⟩ := hbuild hs placement params route hroute
    rw [ofRoute_of_build hroute]
    intro p hp
    rcases mem_place hp with rfl | ⟨name, segments, hsegments, rfl⟩
    · exact hplain
    · exact hnamed name segments hsegments

theorem ofRoute (h : HoldsOfRoutes defaults I P) (hs : I s) (placement : Placement)
    (params : List (String × String)) (name : Option String) :
    Yields P (fun _ => True) (Trace.ofRoute defaults s placement params name) :=
  ⟨h.route hs placement params name, fun _ _ => trivial⟩

theorem ofAddresses (h : HoldsOfRoutes defaults I P) (hs : I s)
    (addresses : List (String × String)) :
    Yields P (fun _ => True) (Trace.ofAddresses defaults s addresses) := by
  induction addresses with
  | nil => exact .pure trivial
  | cons address addresses ih => exact (h.ofRoute (h.within hs _ _) _ _ _).bind fun _ _ => ih

theorem ofActions (h : HoldsOfRoutes defaults I P) (params : Params) {scopes : List Scope}
    (hscopes : ∀ s ∈ scopes, I s) :
    Yields P (fun _ => True) (Trace.ofActions defaults params scopes) := by
  induction scopes with
  | nil => exact .pure trivial
  | cons s scopes ih =>
    obtain ⟨hs, hscopes⟩ := List.forall_mem_cons.mp hscopes
    exact (h.ofRoute hs _ _ _).bind fun _ _ => ih hscopes

theorem usualScope (h : HoldsOfRoutes defaults I P) (hs : I s) (actions : List UsualAction) :
    ∀ s' ∈ actions.map (Resource.usualScope s), I s' :=
  List.forall_mem_map.mpr fun _ _ => h.within hs _ _

theorem extraScope (h : HoldsOfRoutes defaults I P) (hs : I s) (opening : String)
    (actions : List ExtraAction) :
    ∀ s' ∈ actions.map (Resource.extraScope s opening), I s' :=
  List.forall_mem_map.mpr fun _ _ => h.within hs _ _

theorem ofPlural (h : HoldsOfRoutes defaults I P) (hs : I s) (name : String)
    (options : ResourceOptions) : Yields P I (Trace.ofPlural defaults s name options) := by
  refine (Yields.ofExcept _).bind fun r _ => ?_
  have hbase := h.within hs [(.path, .literal ("/" ++ name))] []
  refine (h.ofAddresses hbase _).bind fun _ _ => ?_
  refine (h.ofAddresses hbase _).bind fun _ _ => ?_
  refine (h.ofActions _ ?_).bind fun _ _ => ?_
  · exact List.forall_mem_append.mpr ⟨List.forall_mem_append.mpr
      ⟨h.extraScope hbase _ _, h.extraScope hbase _ _⟩, h.usualScope hbase _⟩
  · exact (h.ofAddresses hbase _).bind fun _ _ => .pure (h.within hbase _ _)

theorem ofSingular (h : HoldsOfRoutes defaults I P) (hs : I s) (name : String)
    (options : ResourceOptions) : Yields P I (Trace.ofSingular defaults s name options) := by
  rw [Trace.ofSingular]
  split
  · refine ⟨fun _ hp => absurd hp List.not_mem_nil, ?_⟩
    rintro _ ⟨⟩
  refine (Yields.ofExcept _).bind fun r _ => ?_
  have hbase := h.within hs [(.path, .literal ("/" ++ name))] []
  refine (h.ofActions _ (h.usualScope hbase _)).bind fun _ _ => ?_
  exact (h.ofAddresses hbase _).bind fun _ _ => .pure hbase

mutual

theorem ofStatement (h : HoldsOfRoutes defaults I P) {s : Scope} (hs : I s)
    (statement : Statement) :
    Yields P (fun _ => True) (Trace.ofStatement defaults s statement) := by
  cases statement with
  | within conditions params body => exact ofStatements h (h.within hs conditions params) body
  | block body => exact ofStatements h hs body
  | route placement params name => exact h.ofRoute hs placement params name
  | resources name options body =>
    exact (h.ofPlural hs name options).bind fun _ hnested => ofStatements h hnested body
  | resource name options body =>
    exact (h.ofSingular hs name options).bind fun _ hnested => ofStatements h hnested body
  | attempt body => exact ⟨(ofStatements h hs body).placings, fun _ _ => trivial⟩
  | reject error => exact .ofExcept _

theorem ofStatements (h : HoldsOfRoutes defaults I P) {s : Scope} (hs : I s)
    (body : List Statement) :
    Yields P (fun _ => True) (Trace.ofStatements defaults s body) := by
  cases body with
  | nil => exact .pure trivial
  | cons statement rest =>
    exact (ofStatement h hs statement).bind fun _ _ => ofStatements h hs rest

end

/-- What holds of the routes of all scopes that come from the root holds of all that is placed. -/
theorem ofDeclaration (h : HoldsOfRoutes defaults I P) (hroot : I (Draft.root defaults))
    (body : List Statement) : ∀ p ∈ (Trace.ofDeclaration defaults body).placings, P p :=
  (h.ofStatements hroot body).placings

end HoldsOfRoutes

end Placings

end Trace

end Signpost
