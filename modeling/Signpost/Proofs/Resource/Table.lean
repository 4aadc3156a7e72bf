import Signpost.Proofs.Resource.Route
import Signpost.Proofs.Table.Place
import Signpost.Proofs.Table.Match

/-! # Tables of actions

The routes of a table of actions answer in the order of its rows: the first row that takes a request
answers it, with the action of the row, the controller and what the path captured.
-/
namespace Signpost.Resource
open Template

variable {name controller : String} {request : Request} {routes : List Route}

theorem findRoute_append {rows : List Row}
    (h : List.Forall₂ (Row.Served name controller) rows routes)
    (hrows : ∀ row ∈ rows, ¬ row.Takes name request) (more : List Route) (start : Nat) :
    Table.findRoute request (Table.renumber start (routes ++ more)) =
      Table.findRoute request (Table.renumber (start + rows.length) more) := by
  induction h generalizing start with
  | nil => rfl
  | @cons row route rows routes hserved hrest ih =>
    obtain ⟨hrow, hrows⟩ := List.forall_mem_cons.mp hrows
    have hnone : Route.accept? { route with index := start } request = none :=
      hserved.accept?_eq_none hrow
    rw [List.cons_append, Table.renumber, Table.findRoute, hnone, List.length_cons,
      Nat.add_comm rows.length 1, ← Nat.add_assoc]
    exact ih hrows (start + 1)

/-- The answer of the first row that takes a request. -/
theorem findRoute_of_takes {row : Row} {front back : List Row}
    (h : List.Forall₂ (Row.Served name controller) (front ++ row :: back) routes)
    (htakes : row.Takes name request) (hfront : ∀ other ∈ front, ¬ other.Takes name request)
    (start : Nat) :
    ∃ route found value,
      Table.findRoute request (Table.renumber start routes) =
          some (route, row.form.answer row.action value found) ∧
        route.index = start + front.length ∧ row.form.Meets name found request.path ∧
        (IsVerbatim controller.toList → controller ≠ "" → value = some controller) := by
  have hbefore := (List.forall₂_take_append routes front (row :: back) h.flip).flip
  have hbehind := (List.forall₂_drop_append routes front (row :: back) h.flip).flip
  obtain ⟨route, rest, ⟨hwritten, o, placeholders, hcompile, hserves⟩, -, hrest⟩ :=
    List.forall₂_cons_left_iff.mp hbehind
  have hroutes : routes = routes.take front.length ++ route :: rest := by
    rw [← hrest, List.take_append_drop]
  obtain ⟨params, haccept⟩ := Option.isSome_iff_exists.mp (hserves.isSome_accept?_iff.mpr htakes)
  obtain ⟨found, value, hmeets, rfl, hvalue⟩ := hserves.exists_of_accept? hwritten haccept
  refine ⟨{ route with index := start + front.length }, found, value, ?_, rfl, hmeets,
    fun hverbatim hne => ?_⟩
  · have hnumbered : Route.accept? { route with index := start + front.length } request =
        some (row.form.answer row.action value found) := haccept
    rw [hroutes, findRoute_append hbefore hfront, Table.renumber, Table.findRoute, hnumbered]
  · rw [compile_verbatim hverbatim hne] at hcompile
    exact hvalue controller (Except.ok.inj hcompile).symm

theorem findRoute_eq_none {rows : List Row}
    (h : List.Forall₂ (Row.Served name controller) rows routes)
    (hrows : ∀ row ∈ rows, ¬ row.Takes name request) (start : Nat) :
    Table.findRoute request (Table.renumber start routes) = none := by
  have happend := findRoute_append h hrows [] start
  rwa [List.append_nil] at happend

end Signpost.Resource
