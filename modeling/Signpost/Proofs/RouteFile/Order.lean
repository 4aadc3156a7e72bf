import Signpost.Proofs.Entries
import Signpost.Proofs.RouteFile.Read

/-! # Order in entries

The maps of extra actions are in order in every entry that is read, and so in every file.
-/
namespace Signpost
open Signpost.Yaml

theorem Read.sorted_of_map? {α : Type} {value? : Data → Option α} {data : Data}
    {m : Entries String α} (h : Read.map? value? data = some m) : Entries.Sorted m := by
  cases data with
  | map pairs =>
    obtain ⟨es, -, rfl⟩ := Option.map_eq_some_iff.mp h
    exact Entries.sorted_ofList es
  | null | bool | natural | negative | float | text | list => cases h

namespace Entry
open Fields
variable {kinds : List EntryKind}

mutual

/-- The extra actions are maps in order, at every level of nesting. -/
def ActionsOrdered : Entry → Prop
  | .matching _ scope => AllOrdered scope
  | .resources e scope =>
    Entries.Sorted e.member ∧ Entries.Sorted e.collection ∧ AllOrdered scope
  | .resource _ scope => AllOrdered scope
  | .defaultRoutes _ _ => True

def AllOrdered : List Entry → Prop
  | [] => True
  | entry :: rest => ActionsOrdered entry ∧ AllOrdered rest

end

theorem allOrdered_iff {entries : List Entry} :
    AllOrdered entries ↔ ∀ e ∈ entries, ActionsOrdered e := by
  induction entries with
  | nil => simp [AllOrdered]
  | cons entry entries ih => rw [AllOrdered, ih, List.forall_mem_cons]

theorem sorted_of_defaulted? {α : Type} {f : Fields} {name : String} {value? : Data → Option α}
    {m : Entries String α} (h : f.defaulted? name [] (Read.map? value?) = some m) :
    Entries.Sorted m := by
  rw [Fields.defaulted?] at h
  split at h
  · exact Read.sorted_of_map? h
  · cases h
    exact Entries.sorted_nil

theorem actionsOrdered_of_read? {kind : EntryKind} {f : Fields} {e : Entry}
    (h : kind.read? f = some e)
    (hnested : ∀ entries, f.nested? "scope" = some entries → AllOrdered entries) :
    e.ActionsOrdered := by
  cases kind with
  | resources =>
    obtain ⟨_, -, h⟩ := Option.bind_eq_some_iff.mp h
    obtain ⟨_, -, h⟩ := Option.bind_eq_some_iff.mp h
    obtain ⟨_, -, h⟩ := Option.bind_eq_some_iff.mp h
    obtain ⟨_, -, h⟩ := Option.bind_eq_some_iff.mp h
    obtain ⟨_, hmember, h⟩ := Option.bind_eq_some_iff.mp h
    obtain ⟨_, hcollection, h⟩ := Option.bind_eq_some_iff.mp h
    obtain ⟨_, -, h⟩ := Option.bind_eq_some_iff.mp h
    obtain ⟨scope, hscope, h⟩ := Option.bind_eq_some_iff.mp h
    cases h
    exact ⟨sorted_of_defaulted? hmember, sorted_of_defaulted? hcollection, hnested scope hscope⟩
  | resource =>
    obtain ⟨_, -, h⟩ := Option.bind_eq_some_iff.mp h
    obtain ⟨_, -, h⟩ := Option.bind_eq_some_iff.mp h
    obtain ⟨_, -, h⟩ := Option.bind_eq_some_iff.mp h
    obtain ⟨_, -, h⟩ := Option.bind_eq_some_iff.mp h
    obtain ⟨scope, hscope, h⟩ := Option.bind_eq_some_iff.mp h
    cases h
    exact hnested scope hscope
  | defaultRoutes =>
    obtain ⟨_, -, h⟩ := Option.bind_eq_some_iff.mp h
    obtain ⟨_, -, h⟩ := Option.bind_eq_some_iff.mp h
    cases h
    trivial
  | matching =>
    obtain ⟨_, -, h⟩ := Option.bind_eq_some_iff.mp h
    obtain ⟨_, -, h⟩ := Option.bind_eq_some_iff.mp h
    obtain ⟨_, -, h⟩ := Option.bind_eq_some_iff.mp h
    obtain ⟨_, -, h⟩ := Option.bind_eq_some_iff.mp h
    obtain ⟨_, -, h⟩ := Option.bind_eq_some_iff.mp h
    obtain ⟨scope, hscope, h⟩ := Option.bind_eq_some_iff.mp h
    cases h
    exact hnested scope hscope

theorem allOrdered_of_nested? {f : Fields} {entries : List Entry}
    (hcells : ∀ q ∈ f.cells, ∀ es, q.2.entries? = some es → AllOrdered es)
    (h : f.nested? "scope" = some entries) : AllOrdered entries := by
  rw [Fields.nested?] at h
  split at h
  · rename_i cell hcell
    obtain ⟨front, back, hsplit, -⟩ := List.lookup_eq_some_iff.mp hcell
    refine hcells ("scope", cell) ?_ entries h
    rw [hsplit]
    exact List.mem_append_right _ List.mem_cons_self
  · cases h
    trivial

theorem actionsOrdered_of_named {kind : EntryKind} {cells : List (Data × Cell)} {e : Entry}
    (hcells : ∀ c ∈ cells, ∀ es, c.2.entries? = some es → AllOrdered es)
    (h : kind.ofNamed? cells = some e) : e.ActionsOrdered := by
  obtain ⟨f, hf, hread⟩ := Option.bind_eq_some_iff.mp h
  rw [named?_eq] at hf
  obtain ⟨fields, hfields, rfl⟩ := Option.map_eq_some_iff.mp hf
  refine actionsOrdered_of_read? hread fun entries => allOrdered_of_nested? fun q hq => ?_
  obtain ⟨key, hpair, -⟩ := exists_pair_of_mem hfields hq
  exact hcells _ hpair

theorem actionsOrdered_of_positions {kind : EntryKind} {cells : List Cell} {e : Entry}
    (hcells : ∀ c ∈ cells, ∀ es, c.entries? = some es → AllOrdered es)
    (h : kind.ofOrdered? cells = some e) : e.ActionsOrdered := by
  obtain ⟨f, hf, hread⟩ := Option.bind_eq_some_iff.mp h
  rw [ordered?] at hf
  split at hf
  · cases hf
    exact actionsOrdered_of_read? hread fun entries => allOrdered_of_nested? fun q hq =>
      hcells q.2 (List.of_mem_zip hq).2
  · cases hf

mutual

theorem actionsOrdered_of_data {data : Data} {e : Entry} (h : ofData? kinds data = some e) :
    e.ActionsOrdered := by
  cases data with
  | map pairs =>
    obtain ⟨kind, -, hkind⟩ := List.exists_of_findSome?_eq_some h
    exact actionsOrdered_of_named (fun _ hc _ => allOrdered_of_namedCells hc) hkind
  | list items =>
    obtain ⟨kind, -, hkind⟩ := List.exists_of_findSome?_eq_some h
    exact actionsOrdered_of_positions (fun _ hc _ => allOrdered_of_orderedCells hc) hkind
  | null | bool | natural | negative | float | text => cases h

theorem allOrdered_of_list {data : Data} {entries : List Entry}
    (h : listOfData? kinds data = some entries) : AllOrdered entries := by
  cases data with
  | list items => exact allOrdered_of_items h
  | null | bool | natural | negative | float | text | map => cases h

theorem allOrdered_of_items {items : List Data} {entries : List Entry}
    (h : ofItems? kinds items = some entries) : AllOrdered entries := by
  cases items with
  | nil =>
    cases h
    trivial
  | cons item items =>
    obtain ⟨e, he, h⟩ := Option.bind_eq_some_iff.mp h
    obtain ⟨rest, hrest, h⟩ := Option.bind_eq_some_iff.mp h
    cases h
    exact ⟨actionsOrdered_of_data he, allOrdered_of_items hrest⟩

theorem allOrdered_of_namedCells {pairs : List (Data × Data)} {c : Data × Cell}
    {entries : List Entry} (hc : c ∈ namedCells kinds pairs) (h : c.2.entries? = some entries) :
    AllOrdered entries := by
  cases pairs with
  | nil => cases hc
  | cons p pairs =>
    obtain ⟨key, value⟩ := p
    rw [namedCells] at hc
    rcases List.mem_cons.mp hc with rfl | hc
    · exact allOrdered_of_list h
    · exact allOrdered_of_namedCells hc h

theorem allOrdered_of_orderedCells {items : List Data} {c : Cell} {entries : List Entry}
    (hc : c ∈ orderedCells kinds items) (h : c.entries? = some entries) :
    AllOrdered entries := by
  cases items with
  | nil => cases hc
  | cons item items =>
    rw [orderedCells] at hc
    rcases List.mem_cons.mp hc with rfl | hc
    · exact allOrdered_of_list h
    · exact allOrdered_of_orderedCells hc h

end

end Entry

namespace RouteFile
open Entry
variable {kinds : List EntryKind}

theorem allOrdered_of_routes? {tree : Tree} {entries : List Entry}
    (h : routes? kinds tree = some entries) : AllOrdered entries := by
  cases tree
  case sequence p items =>
    obtain ⟨data, -, h⟩ := Option.bind_eq_some_iff.mp h
    exact allOrdered_of_items h
  all_goals
    rw [routes?] at h
    split at h
    · cases h
      trivial
    · cases h
    all_goals nofun

def Partial.Ordered (fields : Partial) : Prop :=
  ∀ entries, fields.2 = some entries → AllOrdered entries

theorem ordered_of_step? {fields after : Partial} {pair : Tree × Tree} (hfields : fields.Ordered)
    (h : step? kinds fields pair = some after) : after.Ordered := by
  obtain ⟨key, -, h⟩ := Option.bind_eq_some_iff.mp h
  rw [addField?] at h
  split at h
  · obtain ⟨defaults, -, rfl⟩ := Option.map_eq_some_iff.mp h
    exact hfields
  · split at h
    · obtain ⟨read, hread, rfl⟩ := Option.map_eq_some_iff.mp h
      rintro entries ⟨⟩
      exact allOrdered_of_routes? hread
    · cases h

theorem ordered_of_steps? {pairs : List (Tree × Tree)} {fields after : Partial}
    (hfields : fields.Ordered) (h : pairs.foldlM (step? kinds) fields = some after) :
    after.Ordered := by
  induction pairs generalizing fields with
  | nil =>
    cases h
    exact hfields
  | cons pair pairs ih =>
    rw [List.foldlM_cons] at h
    obtain ⟨next, hnext, h⟩ := Option.bind_eq_some_iff.mp h
    exact ih (ordered_of_step? hfields hnext) h

theorem allOrdered_of_ofTree? {tree : Tree} {file : RouteFile}
    (h : ofTree? kinds tree = some file) : AllOrdered file.routes := by
  cases tree
  case mapping p pairs =>
    rw [ofTree?_mapping] at h
    obtain ⟨⟨defaults, entries⟩, hsteps, rfl⟩ := Option.map_eq_some_iff.mp h
    have hnothing : Partial.Ordered (none, none) := by
      rintro _ ⟨⟩
    have hentries := ordered_of_steps? hnothing hsteps
    cases entries with
    | none => trivial
    | some entries => exact hentries entries rfl
  all_goals
    rw [ofTree?] at h
    split at h
    · cases h
      trivial
    · cases h
    all_goals nofun

/-- The entries of a file that is read hold their maps in order. -/
theorem actionsOrdered_of_ofText {text : String} {file : RouteFile} (h : ofText text = .ok file) :
    ∀ e ∈ file.routes, e.ActionsOrdered := by
  rw [← allOrdered_iff]
  rw [ofText, ofTextWith] at h
  split at h
  · cases h
  split at h
  · cases h
    trivial
  · split at h
    · rename_i hfile
      cases h
      exact allOrdered_of_ofTree? hfile
    · cases h
  · cases h

end RouteFile

end Signpost
