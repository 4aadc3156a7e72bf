import Mathlib.Data.List.Basic
import Mathlib.Data.List.Induction
import Signpost.Proofs.Declaration.Run
import Signpost.Table

/-! # Tables of placed routes

A table can be told by what was placed in it. Appending the routes of a declaration places them
behind those that are there; prepending them moves the others, and where names lead with them.
-/
namespace Signpost
open Entries

namespace Placing

def isListed : Placing → Bool
  | listed _ => true
  | detached _ => false

/-- Where the name of a placed route leads, if the route takes the given position. -/
def target (position : Nat) : Placing → Named
  | listed _ => .listed position
  | detached route => .detached route

def listedRoutes (ps : List Placing) : List Route :=
  (ps.filter isListed).map route

@[simp] theorem listedRoutes_nil : listedRoutes [] = [] := rfl

@[simp] theorem listedRoutes_listed (route : Route) (ps : List Placing) :
    listedRoutes (listed route :: ps) = route :: listedRoutes ps := rfl

@[simp] theorem listedRoutes_detached (route : Route) (ps : List Placing) :
    listedRoutes (detached route :: ps) = listedRoutes ps := rfl

@[simp] theorem listedRoutes_append (ps qs : List Placing) :
    listedRoutes (ps ++ qs) = listedRoutes ps ++ listedRoutes qs := by
  simp [listedRoutes]

end Placing

namespace Table
open Placing

@[simp] theorem length_renumber (start : Nat) (routes : List Route) :
    (renumber start routes).length = routes.length := by
  induction routes generalizing start with
  | nil => rfl
  | cons route routes ih => simp [renumber, ih]

theorem renumber_append (start : Nat) (routes more : List Route) :
    renumber start (routes ++ more) =
      renumber start routes ++ renumber (start + routes.length) more := by
  induction routes generalizing start with
  | nil => rfl
  | cons route routes ih =>
    simp only [List.cons_append, renumber, ih, List.length_cons]
    rw [Nat.add_assoc, Nat.add_comm 1]

theorem renumber_renumber (start start' : Nat) (routes : List Route) :
    renumber start (renumber start' routes) = renumber start routes := by
  induction routes generalizing start start' with
  | nil => rfl
  | cons route routes ih => simp only [renumber, ih]

theorem forall₂_renumber {α : Type} {R : α → Route → Prop}
    (hR : ∀ a route index, R a route → R a { route with index }) {as : List α} {routes : List Route}
    (h : List.Forall₂ R as routes) (start : Nat) : List.Forall₂ R as (renumber start routes) := by
  induction h generalizing start with
  | nil => exact .nil
  | cons hhead _ ih => exact .cons (hR _ _ _ hhead) (ih _)

theorem getElem?_renumber (start : Nat) (routes : List Route) (i : Nat) :
    (renumber start routes)[i]? =
      routes[i]?.map fun route => { route with index := start + i } := by
  induction routes generalizing start i with
  | nil => rfl
  | cons route routes ih =>
    cases i with
    | zero => rfl
    | succ i =>
      simp only [renumber, List.getElem?_cons_succ, ih]
      rw [Nat.add_assoc, Nat.add_comm 1]

theorem exists_of_mem_renumber {start : Nat} {routes : List Route} {route : Route}
    (h : route ∈ renumber start routes) :
    ∃ original ∈ routes, ∃ index, route = { original with index } := by
  obtain ⟨i, hi⟩ := List.mem_iff_getElem?.mp h
  rw [getElem?_renumber] at hi
  obtain ⟨original, horiginal, rfl⟩ := Option.map_eq_some_iff.mp hi
  exact ⟨original, List.mem_of_getElem? horiginal, start + i, rfl⟩

/-- Puts a route into its place and leads its name, if it has one, to it. -/
def place (t : Table) (p : Placing) : Table :=
  ⟨t.routes ++ renumber t.routes.length (listedRoutes [p]),
    t.names.insertSome p.route.name (p.target t.routes.length)⟩

def placeAll (t : Table) (ps : List Placing) : Table :=
  ps.foldl place t

theorem placeAll_append (t : Table) (ps qs : List Placing) :
    t.placeAll (ps ++ qs) = (t.placeAll ps).placeAll qs :=
  List.foldl_append

theorem placeAll_concat (t : Table) (ps : List Placing) (p : Placing) :
    t.placeAll (ps ++ [p]) = (t.placeAll ps).place p :=
  t.placeAll_append ps [p]

theorem sorted_place {t : Table} (h : Sorted t.names) (p : Placing) : Sorted (t.place p).names :=
  h.insertSome _ _

theorem sorted_placeAll {t : Table} (h : Sorted t.names) (ps : List Placing) :
    Sorted (t.placeAll ps).names := by
  induction ps generalizing t with
  | nil => exact h
  | cons p ps ih => exact ih (sorted_place h p)

theorem routes_placeAll (t : Table) (ps : List Placing) :
    (t.placeAll ps).routes = t.routes ++ renumber t.routes.length (listedRoutes ps) := by
  induction ps using List.reverseRecOn with
  | nil => exact (List.append_nil _).symm
  | append_singleton ps p ih =>
    rw [placeAll_concat, place, ih, listedRoutes_append, renumber_append, List.length_append,
      length_renumber, List.append_assoc]

theorem find?_placeAll_of_free (t : Table) {ps : List Placing} {name : String}
    (h : ∀ q ∈ ps, q.route.name ≠ some name) :
    find? name (t.placeAll ps).names = find? name t.names := by
  induction ps generalizing t with
  | nil => rfl
  | cons p ps ih =>
    obtain ⟨hp, hps⟩ := List.forall_mem_cons.mp h
    refine (ih (t.place p) hps).trans ?_
    rw [place, find?_insertSome, if_neg hp]

/-- The last placing that gives a name is where the name leads. -/
theorem find?_placeAll_of_given (t : Table) (front : List Placing) {p : Placing}
    {back : List Placing} {name : String} (hp : p.route.name = some name)
    (hback : ∀ q ∈ back, q.route.name ≠ some name) :
    find? name (t.placeAll (front ++ p :: back)).names =
      some (p.target (t.routes.length + (listedRoutes front).length)) := by
  have hsplit : t.placeAll (front ++ p :: back) = ((t.placeAll front).place p).placeAll back :=
    t.placeAll_append front (p :: back)
  have hlength : (t.placeAll front).routes.length =
      t.routes.length + (listedRoutes front).length := by
    rw [routes_placeAll, List.length_append, length_renumber]
  rw [hsplit, find?_placeAll_of_free _ hback, place, find?_insertSome, if_pos hp, hlength]

theorem exists_last_given (ps : List Placing) (name : String) :
    (∀ q ∈ ps, q.route.name ≠ some name) ∨
      ∃ front p back, ps = front ++ p :: back ∧ p.route.name = some name ∧
        ∀ q ∈ back, q.route.name ≠ some name := by
  induction ps with
  | nil => exact Or.inl (by simp)
  | cons p ps ih =>
    rcases ih with hfree | ⟨front, q, back, rfl, hq, hback⟩
    · by_cases hp : p.route.name = some name
      · exact Or.inr ⟨[], p, ps, rfl, hp, hfree⟩
      · exact Or.inl (List.forall_mem_cons.mpr ⟨hp, hfree⟩)
    · exact Or.inr ⟨p :: front, q, back, rfl, hq, hback⟩

/-- Every name of a draft leads to a route of it. -/
def Resolved (d : Draft) : Prop := ∀ e ∈ d.names, (namedOf d e.2).isSome

theorem namedOf_place {d : Draft} {slot : Slot} (p : Placing) (h : (namedOf d slot).isSome) :
    namedOf (d.place p) slot = namedOf d slot := by
  cases p with
  | listed route => cases slot <;> rfl
  | detached route =>
    cases slot with
    | listed index => rfl
    | detached index =>
      have hlt : index < d.detached.length := by
        simpa [namedOf] using h
      change ((d.detached ++ [route])[index]?).map _ = _
      rw [List.getElem?_append_left hlt]
      rfl

theorem namedOf_slotOf (d : Draft) (p : Placing) :
    namedOf (d.place p) (d.slotOf p) = some (p.target d.routes.length) := by
  cases p with
  | listed route => rfl
  | detached route =>
    change ((d.detached ++ [route])[d.detached.length]?).map Named.detached = _
    rw [List.getElem?_concat_length]
    rfl

theorem Resolved.isSome_namedOf_place {d : Draft} (h : Resolved d) (p : Placing) :
    ∀ e ∈ d.names, (namedOf (d.place p) e.2).isSome := by
  intro e he
  rw [namedOf_place p (h e he)]
  exact h e he

theorem Resolved.place {d : Draft} (h : Resolved d) (p : Placing) : Resolved (d.place p) := by
  have hold := h.isSome_namedOf_place p
  intro e he
  change e ∈ d.names.insertSome p.route.name (d.slotOf p) at he
  cases hname : p.route.name with
  | none =>
    rw [hname] at he
    exact hold e he
  | some name =>
    rw [hname] at he
    rcases mem_of_mem_insert he with rfl | he
    · rw [namedOf_slotOf]
      rfl
    · exact hold e he

theorem routes_draft_place (d : Draft) (p : Placing) :
    (d.place p).routes = d.routes ++ renumber d.routes.length (listedRoutes [p]) := by
  cases p with
  | listed route => rfl
  | detached route => exact (List.append_nil _).symm

theorem routes_draft_placeAll (d : Draft) (ps : List Placing) :
    (d.placeAll ps).routes = d.routes ++ renumber d.routes.length (listedRoutes ps) := by
  induction ps using List.reverseRecOn with
  | nil => exact (List.append_nil _).symm
  | append_singleton ps p ih =>
    rw [d.placeAll_append ps [p]]
    change (Draft.place (d.placeAll ps) p).routes = _
    rw [routes_draft_place, ih, listedRoutes_append, renumber_append, List.length_append,
      length_renumber, List.append_assoc]

theorem routes_of_follows {α : Type} {x : Declare α} {t : Trace α} {d : Draft}
    (h : Declare.Follows d.defaults x t) :
    (x.run.run d).2.routes = d.routes ++ renumber d.routes.length (listedRoutes t.placings) := by
  obtain ⟨journal, hrun⟩ := h d rfl
  rw [hrun]
  exact routes_draft_placeAll d t.placings

theorem ofDraft_place {d : Draft} (h : Resolved d) (p : Placing) :
    ofDraft (d.place p) = (ofDraft d).place p := by
  have hnames : d.names.filterMap (fun e => (namedOf (d.place p) e.2).map (e.1, ·)) =
      (ofDraft d).names := by
    apply List.filterMap_congr
    intro e he
    rw [namedOf_place p (h e he)]
  rw [place, ← hnames]
  change Table.mk (d.place p).routes ((d.names.insertSome p.route.name (d.slotOf p)).filterMap
    fun e => (namedOf (d.place p) e.2).map (e.1, ·)) = _
  rw [routes_draft_place]
  cases p.route.name with
  | none => rfl
  | some name =>
    rw [insertSome, filterMap_insert (h.isSome_namedOf_place p) (namedOf_slotOf d p)]
    rfl

theorem ofDraft_placeAll {d : Draft} (h : Resolved d) (ps : List Placing) :
    ofDraft (d.placeAll ps) = (ofDraft d).placeAll ps := by
  induction ps generalizing d with
  | nil => rfl
  | cons p ps ih =>
    have hrest := ih (h.place p)
    rw [ofDraft_place h] at hrest
    exact hrest

theorem shiftNamed_target (by_ position : Nat) (p : Placing) :
    shiftNamed by_ (p.target position) = p.target (position + by_) := by
  cases p <;> rfl

theorem splice_append_place {t u : Table} (ht : Sorted t.names) (hu : Sorted u.names)
    (p : Placing) : t.splice (u.place p) .append = (t.splice u .append).place p := by
  have hroutes : t.routes ++ renumber t.routes.length (u.place p).routes =
      (t.routes ++ renumber t.routes.length u.routes) ++
        renumber (t.routes.length + u.routes.length) (listedRoutes [p]) := by
    rw [place, renumber_append, renumber_renumber, List.append_assoc]
  have hnames : t.names.extend (shiftNames (u.place p).names t.routes.length) =
      (t.names.extend (shiftNames u.names t.routes.length)).insertSome p.route.name
        (p.target (t.routes.length + u.routes.length)) := by
    rw [shiftNames, place, mapValues_insertSome, shiftNamed_target,
      extend_insertSome ht (hu.mapValues _), Nat.add_comm]
    rfl
  rw [splice, hroutes, hnames, place, splice, List.length_append, length_renumber]

/-- Appending what a declaration places on nothing is placing it behind the table. -/
theorem splice_append {t : Table} (ht : Sorted t.names) (ps : List Placing) :
    t.splice (empty.placeAll ps) .append = t.placeAll ps := by
  induction ps using List.reverseRecOn with
  | nil =>
    change Table.mk (t.routes ++ []) t.names = t
    rw [List.append_nil]
  | append_singleton ps p ih =>
    rw [placeAll_concat, placeAll_concat, splice_append_place ht (sorted_placeAll sorted_nil ps),
      ih]

theorem routes_splice_prepend (t u : Table) :
    (t.splice u .prepend).routes = u.routes ++ renumber u.routes.length t.routes := rfl

theorem find?_splice_prepend (t : Table) {u : Table} (hu : Sorted u.names) (name : String) :
    find? name (t.splice u .prepend).names =
      (find? name u.names).or ((find? name t.names).map (shiftNamed u.routes.length)) := by
  change find? name ((shiftNames t.names u.routes.length).extend u.names) = _
  rw [find?_extend_sorted _ _ hu, shiftNames, find?_mapValues]

end Table

end Signpost
