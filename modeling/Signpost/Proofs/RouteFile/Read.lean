import Mathlib.Data.List.Forall2
import Signpost.RouteFile.Read

/-! # Reading entries

A mapping is read by its keys and values alone, but for the field that holds nested entries. So two
ways of reading nested entries give the same entry if they agree on what is nested in it. A file is
read field by field.
-/
namespace Signpost
open Signpost.Yaml

namespace Fields
variable {β γ : Type} {names : List String} {name : String} {key : Data}

theorem fieldName?_text {text : String} (h : fieldName? names (.text text) = some name) :
    text = name ∧ name ∈ names := by
  rw [fieldName?] at h
  split at h
  · rename_i hmem
    cases h
    exact ⟨rfl, List.contains_iff_mem.mp hmem⟩
  · cases h

theorem eq_of_fieldName? (h : fieldName? names key = some name) :
    key = .text name ∨ ∃ n, key = .natural n ∧ names[n]? = some name := by
  cases key with
  | text text => exact Or.inl (congrArg Data.text (fieldName?_text h).1)
  | natural n => exact Or.inr ⟨n, rfl, h⟩
  | null => cases h
  | bool b => cases h
  | negative size => cases h
  | float x => cases h
  | list items => cases h
  | map pairs => cases h

def field? (names : List String) (p : Data × β) : Option (String × β) :=
  (fieldName? names p.1).map (·, p.2)

/-- The values of a mapping with their fields, if every key stands for one and none comes twice. -/
def assign? (names : List String) (pairs : List (Data × β)) : Option (List (String × β)) :=
  (pairs.mapM (field? names)).bind fun fields =>
    if (fields.map Prod.fst).Nodup then some fields else none

theorem named?_eq (cells : List (Data × Cell)) :
    named? names cells = (assign? names cells).map (⟨·, false⟩) := by
  rw [assign?, Option.map_bind]
  change (cells.mapM (field? names)).bind _ = _
  congr 1
  funext fields
  split
  · rename_i h
    rw [Function.comp_apply, if_pos h, Option.map_some]
  · rename_i h
    rw [Function.comp_apply, if_neg h, Option.map_none]

theorem eq_of_assign? {pairs : List (Data × β)} {fields : List (String × β)}
    (h : assign? names pairs = some fields) : pairs.mapM (field? names) = some fields := by
  obtain ⟨all, hall, h⟩ := Option.bind_eq_some_iff.mp h
  split at h
  · rw [hall, h]
  · cases h

theorem forall₂_of_assign? {pairs : List (Data × β)} {fields : List (String × β)}
    (h : assign? names pairs = some fields) :
    List.Forall₂ (fun p q => fieldName? names p.1 = some q.1 ∧ p.2 = q.2) pairs fields := by
  replace h := eq_of_assign? h
  induction pairs generalizing fields with
  | nil =>
    cases h
    exact .nil
  | cons p pairs ih =>
    rw [List.mapM_cons] at h
    obtain ⟨q, hq, h⟩ := Option.bind_eq_some_iff.mp h
    obtain ⟨rest, hrest, h⟩ := Option.bind_eq_some_iff.mp h
    obtain ⟨name, hname, rfl⟩ := Option.map_eq_some_iff.mp hq
    cases h
    exact .cons ⟨hname, rfl⟩ (ih hrest)

theorem exists_pair_of_mem {pairs : List (Data × β)} {fields : List (String × β)}
    (h : assign? names pairs = some fields) {q : String × β} (hq : q ∈ fields) :
    ∃ key, (key, q.2) ∈ pairs ∧ fieldName? names key = some q.1 := by
  have hall := forall₂_of_assign? h
  clear h
  induction hall with
  | nil => cases hq
  | @cons p q' pairs fields hp _ ih =>
    rcases List.mem_cons.mp hq with rfl | hq
    · refine ⟨p.1, ?_, hp.1⟩
      rw [← hp.2]
      exact List.mem_cons_self
    · obtain ⟨key, hpair, hkey⟩ := ih hq
      exact ⟨key, List.mem_cons_of_mem _ hpair, hkey⟩

theorem mapM_field?_map (g : β → γ) (pairs : List (Data × β)) :
    (pairs.map fun p => (p.1, g p.2)).mapM (field? names) =
      (pairs.mapM (field? names)).map (List.map fun q => (q.1, g q.2)) := by
  induction pairs with
  | nil => rfl
  | cons p pairs ih =>
    rw [List.map_cons, List.mapM_cons, List.mapM_cons, ih, field?, field?]
    cases fieldName? names p.1 with
    | none => rfl
    | some name => cases pairs.mapM (field? names) <;> rfl

theorem assign?_map (g : β → γ) (pairs : List (Data × β)) :
    assign? names (pairs.map fun p => (p.1, g p.2)) =
      (assign? names pairs).map (List.map fun q => (q.1, g q.2)) := by
  rw [assign?, assign?, mapM_field?_map]
  cases pairs.mapM (field? names) with
  | none => rfl
  | some fields =>
    have hnames : (fields.map fun q => (q.1, g q.2)).map Prod.fst = fields.map Prod.fst := by
      rw [List.map_map]
      rfl
    simp only [Option.map_some, Option.bind_some, hnames]
    split <;> rfl

variable {α : Type} (nested : Data → Option (List Entry)) (fields : List (String × Data))

/-- Fields by name, with what is read where entries are expected. -/
def withNested : Fields :=
  ⟨fields.map fun q => (q.1, ⟨q.2, nested q.2⟩), false⟩

theorem cell?_withNested (name : String) :
    (withNested nested fields).cell? name =
      (fields.lookup name).map fun value => ⟨value, nested value⟩ := by
  change (fields.map _).lookup name = _
  induction fields with
  | nil => rfl
  | cons q fields ih =>
    rw [List.map_cons, List.lookup_cons, List.lookup_cons, ih]
    cases name == q.1 <;> rfl

theorem required?_withNested (name : String) (read? : Data → Option α) :
    (withNested nested fields).required? name read? = (fields.lookup name).bind read? := by
  rw [required?, cell?_withNested, Option.bind_map]
  rfl

theorem optional?_withNested (name : String) (read? : Data → Option α) :
    (withNested nested fields).optional? name read? =
      match fields.lookup name with
      | some value => nullable? read? value
      | none => some none := by
  rw [optional?, cell?_withNested]
  cases fields.lookup name <;> rfl

theorem defaulted?_withNested (name : String) (default : α) (read? : Data → Option α) :
    (withNested nested fields).defaulted? name default read? =
      match fields.lookup name with
      | some value => read? value
      | none => some default := by
  rw [defaulted?, cell?_withNested]
  cases fields.lookup name <;> rfl

theorem nested?_withNested (name : String) :
    (withNested nested fields).nested? name =
      match fields.lookup name with
      | some value => nested value
      | none => some [] := by
  rw [nested?, cell?_withNested]
  cases fields.lookup name <;> rfl

end Fields

namespace EntryKind
open Fields
variable {nested nested' : Data → Option (List Entry)}

theorem read?_withNested (kind : EntryKind) {fields : List (String × Data)}
    (h : ∀ value, fields.lookup "scope" = some value → nested value = nested' value) :
    kind.read? (withNested nested fields) = kind.read? (withNested nested' fields) := by
  have hnested : (withNested nested fields).nested? "scope" =
      (withNested nested' fields).nested? "scope" := by
    rw [nested?_withNested, nested?_withNested]
    cases hscope : fields.lookup "scope" with
    | none => rfl
    | some value => exact h value hscope
  cases kind <;>
    simp only [read?, readResources?, readResource?, readDefaultRoutes?, readMatching?,
      required?_withNested, optional?_withNested, defaulted?_withNested, hnested]

theorem ofNamed?_map (kind : EntryKind) (nested : Data → Option (List Entry))
    (pairs : List (Data × Data)) :
    kind.ofNamed? (pairs.map fun p => (p.1, ⟨p.2, nested p.2⟩)) =
      (assign? kind.fieldNames pairs).bind fun fields => kind.read? (withNested nested fields) := by
  rw [ofNamed?, named?_eq, assign?_map fun value => Cell.mk value (nested value), Option.map_map,
    Option.bind_map]
  rfl

theorem ofNamed?_congr (kind : EntryKind) {pairs : List (Data × Data)}
    (h : ∀ p ∈ pairs, fieldName? kind.fieldNames p.1 = some "scope" → nested p.2 = nested' p.2) :
    kind.ofNamed? (pairs.map fun p => (p.1, ⟨p.2, nested p.2⟩)) =
      kind.ofNamed? (pairs.map fun p => (p.1, ⟨p.2, nested' p.2⟩)) := by
  rw [ofNamed?_map, ofNamed?_map]
  cases hfields : assign? kind.fieldNames pairs with
  | none => rfl
  | some fields =>
    refine kind.read?_withNested fun value hvalue => ?_
    have hmem : ("scope", value) ∈ fields := by
      obtain ⟨front, back, hsplit, -⟩ := List.lookup_eq_some_iff.mp hvalue
      rw [hsplit]
      exact List.mem_append_right _ List.mem_cons_self
    obtain ⟨key, hpair, hkey⟩ := exists_pair_of_mem hfields hmem
    exact h _ hpair hkey

end EntryKind

namespace Entry
variable (kinds : List EntryKind)

theorem namedCells_eq (pairs : List (Data × Data)) :
    namedCells kinds pairs = pairs.map fun p => (p.1, ⟨p.2, listOfData? kinds p.2⟩) := by
  induction pairs with
  | nil => rfl
  | cons p pairs ih => rw [namedCells, ih, List.map_cons]

theorem map_fst_namedCells (pairs : List (Data × Data)) :
    (namedCells kinds pairs).map Prod.fst = pairs.map Prod.fst := by
  rw [namedCells_eq, List.map_map]
  rfl

variable {kinds} in
theorem ofItems?_congr {kinds' : List EntryKind} {items : List Data}
    (h : ∀ item ∈ items, ofData? kinds item = ofData? kinds' item) :
    ofItems? kinds items = ofItems? kinds' items := by
  induction items with
  | nil => rfl
  | cons item items ih =>
    obtain ⟨hitem, hitems⟩ := List.forall_mem_cons.mp h
    rw [ofItems?, ofItems?, hitem, ih hitems]

end Entry

namespace RouteFile
variable {kinds : List EntryKind}

/-- What is known of a file while it is read: its defaults and its entries. -/
abbrev Partial : Type := Option (Option ParamValues) × Option (List Entry)

def step? (kinds : List EntryKind) (fields : Partial) (pair : Tree × Tree) : Option Partial :=
  (keyText? pair.1).bind fun key => addField? kinds key pair.2 fields

theorem ofTree?_mapping (p : Properties Empty) (pairs : List (Tree × Tree)) :
    ofTree? kinds (.mapping p pairs) =
      (pairs.foldlM (step? kinds) (none, none)).map fun fields =>
        ⟨fields.1.join, fields.2.getD []⟩ := by
  rw [Option.map_eq_bind]
  rfl

end RouteFile

end Signpost
