import Signpost.Proofs.Table.Place

/-! # Tables with a history

A table comes from batches of routes, each placed ahead of those that were there or behind them.
Its routes know their positions, and a name leads to the route that a batch gave it to last.
-/
namespace Signpost
open Entries

/-- What one declaration placed, ahead of the routes that were there or behind them. -/
structure Batch where
  ahead : Bool
  placings : List Placing

namespace Batch

def size (batches : List Batch) : Nat :=
  (Placing.listedRoutes (batches.flatMap placings)).length

/-- Where a route stands that a batch lists behind `front`: behind what goes ahead later, and
behind the routes before the batch unless the batch goes ahead of them. -/
def position (before : List Batch) (b : Batch) (after : List Batch) (front : List Placing) : Nat :=
  size (after.filter ahead) + (if b.ahead then 0 else size before) +
    (Placing.listedRoutes front).length

/-- The placing is the last one of a history that gives the name, and this is its position. -/
def GivesLast (history : List Batch) (name : String) (p : Placing) (position : Nat) : Prop :=
  ∃ before b after front back,
    history = before ++ b :: after ∧ b.placings = front ++ p :: back ∧
    p.route.name = some name ∧ (∀ q ∈ back, q.route.name ≠ some name) ∧
    (∀ later ∈ after, ∀ q ∈ later.placings, q.route.name ≠ some name) ∧
    position = Batch.position before b after front

theorem size_concat (history : List Batch) (b : Batch) :
    size (history ++ [b]) = size history + (Placing.listedRoutes b.placings).length := by
  simp [size]

theorem position_concat (before : List Batch) (b : Batch) (after : List Batch) (later : Batch)
    (front : List Placing) :
    position before b (after ++ [later]) front =
      (if later.ahead then (Placing.listedRoutes later.placings).length else 0) +
        position before b after front := by
  rw [position, position, List.filter_append]
  cases h : later.ahead with
  | false => simp [h]
  | true =>
    simp [h, size_concat]
    omega

theorem GivesLast.mem {history : List Batch} {name : String} {p : Placing} {position : Nat}
    (h : GivesLast history name p position) :
    p.route.name = some name ∧ ∃ b ∈ history, p ∈ b.placings := by
  obtain ⟨before, b, after, front, back, rfl, hb, hp, -⟩ := h
  exact ⟨hp, b, by simp, by simp [hb]⟩

end Batch

/-- The route of a placing as it stands at a position of the list, or aside. -/
def Placing.standing (position : Nat) : Placing → Route
  | listed route => { route with index := position }
  | detached route => route

theorem Placing.standing_of_isListed {p : Placing} (h : p.isListed = true) (position : Nat) :
    p.standing position = { p.route with index := position } := by
  cases p with
  | listed route => rfl
  | detached route => cases h

namespace Table
open Placing Batch

def add (t : Table) (b : Batch) : Table :=
  if b.ahead then t.splice (empty.placeAll b.placings) .prepend else t.placeAll b.placings

def ofHistory (history : List Batch) : Table :=
  history.foldl add empty

theorem ofHistory_concat (history : List Batch) (b : Batch) :
    ofHistory (history ++ [b]) = (ofHistory history).add b :=
  List.foldl_append

theorem sorted_ofHistory (history : List Batch) : Sorted (ofHistory history).names := by
  induction history using List.reverseRecOn with
  | nil => exact sorted_nil
  | append_singleton history b ih =>
    rw [ofHistory_concat, add]
    split
    · exact sorted_extend (ih.mapValues _) _
    · exact sorted_placeAll ih b.placings

theorem routes_placeAll_empty (placings : List Placing) :
    (empty.placeAll placings).routes = renumber 0 (listedRoutes placings) :=
  routes_placeAll empty placings

theorem routes_add (t : Table) (b : Batch) :
    (t.add b).routes =
      if b.ahead then
        renumber 0 (listedRoutes b.placings) ++ renumber (listedRoutes b.placings).length t.routes
      else t.routes ++ renumber t.routes.length (listedRoutes b.placings) := by
  rw [add]
  split
  · rw [routes_splice_prepend, routes_placeAll_empty, length_renumber]
  · exact routes_placeAll t b.placings

def Numbered (t : Table) : Prop := renumber 0 t.routes = t.routes

theorem Numbered.index_eq {t : Table} (h : t.Numbered) {i : Nat} {route : Route}
    (hroute : t.routes[i]? = some route) : route.index = i := by
  rw [← h, getElem?_renumber] at hroute
  obtain ⟨other, -, rfl⟩ := Option.map_eq_some_iff.mp hroute
  exact Nat.zero_add i

theorem Numbered.add {t : Table} (h : t.Numbered) (b : Batch) : (t.add b).Numbered := by
  rw [Numbered, routes_add]
  split
  · rw [renumber_append, renumber_renumber, renumber_renumber, length_renumber, Nat.zero_add]
  · rw [renumber_append, h, renumber_renumber, Nat.zero_add]

theorem numbered_ofHistory (history : List Batch) : (ofHistory history).Numbered := by
  induction history using List.reverseRecOn with
  | nil => rfl
  | append_singleton history b ih =>
    rw [ofHistory_concat]
    exact ih.add b

theorem length_routes_ofHistory (history : List Batch) :
    (ofHistory history).routes.length = size history := by
  induction history using List.reverseRecOn with
  | nil => rfl
  | append_singleton history b ih =>
    rw [ofHistory_concat, size_concat, routes_add]
    split
    · rw [List.length_append, length_renumber, length_renumber, ih, Nat.add_comm]
    · rw [List.length_append, length_renumber, ih]

/-- The name leads to the placing at this position, where its route stands if it is listed. -/
def Leads (t : Table) (name : String) (p : Placing) (position : Nat) : Prop :=
  find? name t.names = some (p.target position) ∧
    (p.isListed = true → t.routes[position]? = some (p.standing position))

theorem Leads.named? {t : Table} {name : String} {p : Placing} {position : Nat}
    (h : t.Leads name p position) : t.named? name = some (p.standing position) := by
  obtain ⟨hfind, hlisted⟩ := h
  rw [Table.named?, hfind]
  cases p with
  | listed route => exact hlisted rfl
  | detached route => rfl

theorem find?_add_ahead (t : Table) (placings : List Placing) (name : String) :
    find? name (t.add ⟨true, placings⟩).names =
      (find? name (empty.placeAll placings).names).or
        ((find? name t.names).map (shiftNamed (listedRoutes placings).length)) := by
  have hlength : (empty.placeAll placings).routes.length = (listedRoutes placings).length := by
    rw [routes_placeAll_empty, length_renumber]
  rw [← hlength]
  exact find?_splice_prepend t (sorted_placeAll sorted_nil placings) name

theorem leads_add_of_given (t : Table) {b : Batch} {name : String} {front : List Placing}
    {p : Placing} {back : List Placing} (hb : b.placings = front ++ p :: back)
    (hp : p.route.name = some name) (hback : ∀ q ∈ back, q.route.name ≠ some name) :
    (t.add b).Leads name p
      ((if b.ahead then 0 else t.routes.length) + (listedRoutes front).length) := by
  have hat : p.isListed = true →
      (listedRoutes b.placings)[(listedRoutes front).length]? = some p.route := by
    intro hlisted
    cases p with
    | detached route => cases hlisted
    | listed route => simp [hb, Placing.route]
  rcases b with ⟨_ | _, placings⟩
  · refine ⟨?_, fun hlisted => ?_⟩
    · change find? name (t.placeAll placings).names = _
      rw [show placings = _ from hb]
      exact find?_placeAll_of_given t front hp hback
    · rw [routes_add, if_neg Bool.false_ne_true, if_neg Bool.false_ne_true,
        List.getElem?_append_right (Nat.le_add_right _ _), Nat.add_sub_cancel_left,
        getElem?_renumber, hat hlisted, standing_of_isListed hlisted]
      rfl
  · refine ⟨?_, fun hlisted => ?_⟩
    · rw [find?_add_ahead, show placings = _ from hb,
        find?_placeAll_of_given empty front hp hback]
      rfl
    · have hlt : (listedRoutes front).length < (listedRoutes placings).length :=
        (List.getElem?_eq_some_iff.mp (hat hlisted)).1
      rw [routes_add, if_pos rfl, if_pos rfl, Nat.zero_add,
        List.getElem?_append_left (by rwa [length_renumber]), getElem?_renumber, hat hlisted,
        standing_of_isListed hlisted]
      simp

/-- A name that a batch does not give leads where it led, and moves with its route. -/
theorem Leads.add {t : Table} {b : Batch} {name : String} {p : Placing} {position : Nat}
    (h : t.Leads name p position) (hb : ∀ q ∈ b.placings, q.route.name ≠ some name) :
    (t.add b).Leads name p
      ((if b.ahead then (listedRoutes b.placings).length else 0) + position) := by
  obtain ⟨hfind, hat⟩ := h
  rcases b with ⟨_ | _, placings⟩
  · rw [if_neg Bool.false_ne_true, Nat.zero_add]
    refine ⟨(find?_placeAll_of_free t hb).trans hfind, fun hlisted => ?_⟩
    have hlt : position < t.routes.length := (List.getElem?_eq_some_iff.mp (hat hlisted)).1
    rw [routes_add, if_neg Bool.false_ne_true, List.getElem?_append_left hlt, hat hlisted]
  · rw [if_pos rfl]
    refine ⟨?_, fun hlisted => ?_⟩
    · rw [find?_add_ahead, find?_placeAll_of_free empty hb, hfind]
      change some (shiftNamed _ (p.target position)) = _
      rw [shiftNamed_target, Nat.add_comm]
    · have hle : (renumber 0 (listedRoutes placings)).length ≤
          (listedRoutes placings).length + position := by
        rw [length_renumber]
        exact Nat.le_add_right _ _
      rw [routes_add, if_pos rfl, List.getElem?_append_right hle, length_renumber,
        Nat.add_sub_cancel_left, getElem?_renumber, hat hlisted, standing_of_isListed hlisted,
        standing_of_isListed hlisted]
      rfl

theorem find?_add_of_free {t : Table} {b : Batch} {name : String}
    (h : find? name t.names = none) (hb : ∀ q ∈ b.placings, q.route.name ≠ some name) :
    find? name (t.add b).names = none := by
  rcases b with ⟨_ | _, placings⟩
  · exact (find?_placeAll_of_free t hb).trans h
  · rw [find?_add_ahead, find?_placeAll_of_free empty hb, h]
    rfl

/-- A name of the table leads to the placing of the history that gives it last. -/
theorem leads_ofHistory (history : List Batch) (name : String) :
    find? name (ofHistory history).names = none ∨
      ∃ p position, GivesLast history name p position ∧
        (ofHistory history).Leads name p position := by
  induction history using List.reverseRecOn with
  | nil => exact Or.inl rfl
  | append_singleton history b ih =>
    rw [ofHistory_concat]
    -- the batch gives the name itself, or the name leads where it led before the batch
    rcases exists_last_given b.placings name with hfree | ⟨front, p, back, hb, hp, hback⟩
    · rcases ih with hnone | ⟨p, position, hgives, hleads⟩
      · exact Or.inl (find?_add_of_free hnone hfree)
      · obtain ⟨before, b', after, front, back, rfl, hb', hp, hback, hafter, rfl⟩ := hgives
        refine Or.inr ⟨p, _, ?_, hleads.add hfree⟩
        refine ⟨before, b', after ++ [b], front, back, by simp, hb', hp, hback, ?_, ?_⟩
        · exact List.forall_mem_append.mpr ⟨hafter, List.forall_mem_singleton.mpr hfree⟩
        · rw [position_concat]
    · have hleads := leads_add_of_given (ofHistory history) hb hp hback
      rw [length_routes_ofHistory] at hleads
      refine Or.inr ⟨p, _, ?_, hleads⟩
      refine ⟨history, b, [], front, back, rfl, hb, hp, hback, by simp, ?_⟩
      simp [Batch.position, size]

end Table

end Signpost
