import Signpost.Proofs.Declaration.Single

/-! # What failures leave

A body that fails leaves what it declared before. That is a body of its own, which succeeds: the
statements before the one that fails, and then what this one leaves in turn. A resource leaves the
single declarations before the one that fails.
-/
namespace Signpost.Trace
open Statement Resource
variable {defaults : Params} {s : Scope}

/-- A body that fails on a scope, and what it leaves. -/
inductive Leaves (defaults : Params) : Scope → List Statement → List Statement → Prop
  | stays {s statement rest kept} (done : (ofStatement defaults s statement).outcome = .ok ())
      (fails : Leaves defaults s rest kept) :
      Leaves defaults s (statement :: rest) (statement :: kept)
  | rejected {s error rest} : Leaves defaults s (.reject error :: rest) []
  | unbuilt {s placement own name rest e} (fails : build defaults s own placement = .error e) :
      Leaves defaults s (.route placement own name :: rest) []
  /-- A route whose name is refused stays without it. -/
  | unnamed {s placement own name rest route reason}
      (built : build defaults s own placement = .ok route)
      (fails : route.segments = .error reason) :
      Leaves defaults s (.route placement own (some name) :: rest) [.route placement own none]
  | within {s conditions own body rest kept}
      (fails : Leaves defaults (s.within conditions own) body kept) :
      Leaves defaults s (.within conditions own body :: rest) [.within conditions own kept]
  | block {s body rest kept} (fails : Leaves defaults s body kept) :
      Leaves defaults s (.block body :: rest) [.block kept]
  /-- The options of a resource are refused before it declares anything. -/
  | refused {s statement rest e} (fails : expand s statement = .error e) :
      Leaves defaults s (statement :: rest) []
  /-- A resource leaves what the single declarations leave that it comes to. -/
  | expanded {s statement singles rest kept} (opened : expand s statement = .ok singles)
      (fails : Leaves defaults s [singles] kept) : Leaves defaults s (statement :: rest) kept

variable {body kept rest : List Statement} {statement : Statement}

/-- The body fails, and `kept` places what the body placed and succeeds. -/
def Amounts (defaults : Params) (s : Scope) (body kept : List Statement) : Prop :=
  (∃ e, (ofStatements defaults s body).outcome = .error e) ∧
    ofStatements defaults s kept = ⟨(ofStatements defaults s body).placings, .ok ()⟩

theorem amounts_of_head {t : Trace Unit} {e : RouteError}
    (ht : ofStatement defaults s statement = t) (he : t.outcome = .error e)
    (hkept : ofStatements defaults s kept = ⟨t.placings, .ok ()⟩) :
    Amounts defaults s (statement :: rest) kept := by
  have hbody : ofStatements defaults s (statement :: rest) = ⟨t.placings, .error e⟩ := by
    rw [ofStatements, ht, bind_of_error he]
  rw [Amounts, hbody]
  exact ⟨⟨e, rfl⟩, hkept⟩

theorem amounts_nothing {e : RouteError} (h : ofStatement defaults s statement = ⟨[], .error e⟩) :
    Amounts defaults s (statement :: rest) [] := by
  refine amounts_of_head h rfl ?_
  rw [ofStatements]
  rfl

theorem Leaves.amounts (h : Leaves defaults s body kept) : Amounts defaults s body kept := by
  induction h with
  | stays done _ ih =>
    obtain ⟨⟨e, he⟩, hkept⟩ := ih
    rw [Amounts, ofStatements, ofStatements, bind_of_ok done, bind_of_ok done, hkept]
    exact ⟨⟨e, he⟩, rfl⟩
  | rejected => exact amounts_nothing (by rw [ofStatement]; rfl)
  | unbuilt fails =>
    exact amounts_nothing ((ofStatement_route _ _ _).trans (ofRoute_of_error fails _))
  | @unnamed s placement own name rest route reason built fails =>
    have hfails : ofStatement defaults s (.route placement own (some name)) =
        ⟨[placing placement route], .error (.notReversible name reason)⟩ := by
      rw [ofStatement_route, ofRoute_of_build built, place_of_error fails]
    refine amounts_of_head hfails rfl ?_
    rw [ofStatements_singleton, ofStatement_route, ofRoute_of_build built]
    rfl
  | within _ ih =>
    obtain ⟨⟨e, he⟩, hkept⟩ := ih
    refine amounts_of_head (by rw [ofStatement]) he ?_
    rw [ofStatements_singleton, ofStatement, hkept]
  | block _ ih =>
    obtain ⟨⟨e, he⟩, hkept⟩ := ih
    refine amounts_of_head (by rw [ofStatement]) he ?_
    rw [ofStatements_singleton, ofStatement, hkept]
  | @refused s statement rest e fails =>
    have hfails : ofStatement defaults s statement = ⟨[], .error e⟩ := by
      rw [ofStatement_expand, fails]
      rfl
    exact amounts_nothing hfails
  | expanded opened _ ih =>
    obtain ⟨⟨e, he⟩, hkept⟩ := ih
    rw [ofStatements_singleton] at he hkept
    refine amounts_of_head ?_ he hkept
    rw [ofStatement_expand, opened]

/-- Whenever the body fails on a scope, there is something that it leaves. -/
def Settled (defaults : Params) (body : List Statement) : Prop :=
  ∀ s e, (ofStatements defaults s body).outcome = .error e → ∃ kept, Leaves defaults s body kept

theorem settled_nil : Settled defaults [] := by
  intro s e h
  rw [ofStatements] at h
  cases h

theorem settled_cons
    (hhead : ∀ s e rest, (ofStatement defaults s statement).outcome = .error e →
      ∃ kept, Leaves defaults s (statement :: rest) kept)
    (hrest : Settled defaults rest) : Settled defaults (statement :: rest) := by
  intro s e h
  cases houtcome : (ofStatement defaults s statement).outcome with
  | error e' => exact hhead s e' rest houtcome
  | ok =>
    rw [ofStatements, bind_of_ok houtcome] at h
    obtain ⟨kept, hkept⟩ := hrest s e h
    exact ⟨statement :: kept, .stays houtcome hkept⟩

theorem exists_leaves_route {placement : Placement} {own : List (String × String)}
    {name : Option String} {e : RouteError}
    (h : (ofRoute defaults s placement own name).outcome = .error e) (rest : List Statement) :
    ∃ kept, Leaves defaults s (.route placement own name :: rest) kept := by
  cases hbuild : build defaults s own placement with
  | error e' => exact ⟨[], .unbuilt hbuild⟩
  | ok route =>
    rw [ofRoute_of_build hbuild] at h
    cases name with
    | none => cases h
    | some name =>
      cases hsegments : route.segments with
      | error reason => exact ⟨_, .unnamed hbuild hsegments⟩
      | ok segments =>
        rw [place_of_ok hsegments] at h
        cases h

def IsSingle (statement : Statement) : Prop :=
  ∃ conditions own placement params name,
    statement = .within conditions own [.route placement params name]

theorem settled_singles {singles : List Statement} (hsingles : ∀ single ∈ singles, IsSingle single)
    (hrest : Settled defaults rest) : Settled defaults (singles ++ rest) := by
  induction singles with
  | nil => exact hrest
  | cons single singles ih =>
    obtain ⟨hsingle, hmore⟩ := List.forall_mem_cons.mp hsingles
    refine settled_cons (fun s e rest h => ?_) (ih hmore)
    obtain ⟨conditions, own, placement, params, name, rfl⟩ := hsingle
    rw [ofStatement_within, ofStatement_route] at h
    obtain ⟨kept, hkept⟩ := exists_leaves_route h []
    exact ⟨_, .within hkept⟩

theorem isSingle_addresses (addresses : List (String × String)) :
    ∀ single ∈ addresses.map ofAddress, IsSingle single :=
  List.forall_mem_map.mpr fun _ _ => ⟨_, _, _, _, _, rfl⟩

theorem isSingle_usual (params : Params) (as : List UsualAction) :
    ∀ single ∈ as.map (ofUsual params), IsSingle single :=
  List.forall_mem_map.mpr fun _ _ => ⟨_, _, _, _, _, rfl⟩

theorem isSingle_extra (params : Params) (opening : String) (as : List ExtraAction) :
    ∀ single ∈ as.map (ofExtra params opening), IsSingle single :=
  List.forall_mem_map.mpr fun _ _ => ⟨_, _, _, _, _, rfl⟩

theorem isSingle_pluralSingles (r : Resolved) (name : String) (options : ResourceOptions) :
    ∀ single ∈ pluralSingles r name options, IsSingle single := by
  rw [pluralSingles]
  simp only [List.forall_mem_append]
  exact ⟨isSingle_addresses _, ⟨⟨isSingle_extra _ _ _, isSingle_extra _ _ _⟩, isSingle_usual _ _⟩,
    isSingle_addresses _⟩

theorem isSingle_singularSingles (r : Resolved) (name : String) :
    ∀ single ∈ singularSingles r name, IsSingle single :=
  List.forall_mem_append.mpr ⟨isSingle_usual _ _, isSingle_addresses _⟩

theorem exists_leaves_expanded {conditions : Conditions} {own : List (String × String)}
    {inner : List Statement} {e : RouteError}
    (hexpand : expand s statement = .ok (.within conditions own inner))
    (hinner : Settled defaults inner) (h : (ofStatement defaults s statement).outcome = .error e)
    (rest : List Statement) : ∃ kept, Leaves defaults s (statement :: rest) kept := by
  rw [ofStatement_expand, hexpand] at h
  simp only [ofStatement] at h
  obtain ⟨kept, hkept⟩ := hinner _ e h
  exact ⟨_, .expanded hexpand (.within hkept)⟩

mutual

theorem exists_leaves (s : Scope) (statement : Statement) {e : RouteError}
    (h : (ofStatement defaults s statement).outcome = .error e) (rest : List Statement) :
    ∃ kept, Leaves defaults s (statement :: rest) kept := by
  cases statement with
  | within conditions own body =>
    rw [ofStatement] at h
    obtain ⟨kept, hkept⟩ := settled body _ e h
    exact ⟨_, .within hkept⟩
  | block body =>
    rw [ofStatement] at h
    obtain ⟨kept, hkept⟩ := settled body _ e h
    exact ⟨_, .block hkept⟩
  | route placement own name =>
    rw [ofStatement_route] at h
    exact exists_leaves_route h rest
  | resources name options body =>
    cases hexpand : expand s (.resources name options body) with
    | error e' => exact ⟨[], .refused hexpand⟩
    | ok expanded =>
      obtain ⟨r, -, rfl⟩ := exists_of_map_eq_ok hexpand
      have hbody : Settled defaults
          [.within [(.path, .literal ("/:" ++ r.singular ++ "_id"))] [] body] := by
        refine settled_cons (fun s' e' rest' h' => ?_) settled_nil
        rw [ofStatement] at h'
        obtain ⟨kept, hkept⟩ := settled body _ e' h'
        exact ⟨_, .within hkept⟩
      exact exists_leaves_expanded hexpand
        (settled_singles (isSingle_pluralSingles r name options) hbody) h rest
  | resource name options body =>
    cases hexpand : expand s (.resource name options body) with
    | error e' => exact ⟨[], .refused hexpand⟩
    | ok expanded =>
      have hsplit := hexpand
      rw [expand] at hsplit
      split at hsplit
      · cases hsplit
      obtain ⟨r, -, rfl⟩ := exists_of_map_eq_ok hsplit
      have hbody : Settled defaults [.block body] := by
        refine settled_cons (fun s' e' rest' h' => ?_) settled_nil
        rw [ofStatement] at h'
        obtain ⟨kept, hkept⟩ := settled body _ e' h'
        exact ⟨_, .block hkept⟩
      exact exists_leaves_expanded hexpand
        (settled_singles (isSingle_singularSingles r name) hbody) h rest
  | attempt body =>
    rw [ofStatement] at h
    cases h
  | reject error => exact ⟨[], .rejected⟩

theorem settled (body : List Statement) : Settled defaults body := by
  cases body with
  | nil => exact settled_nil
  | cons statement rest =>
    exact settled_cons (fun s _ rest' h => exists_leaves s statement h rest') (settled rest)

end

end Signpost.Trace
