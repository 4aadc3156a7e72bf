import Signpost.Proofs.Entries
import Signpost.Query.Decode

/-! # Parts and leaves of query values

A value is a tree. Its parts are the values in it, and its leaves are its texts, each with the
steps that lead to it, in the order in which they are written.
-/
namespace Signpost.Query

namespace Value

theorem induct {motive : Value → Prop} (text : ∀ s, motive (.text s))
    (list : ∀ items, (∀ v ∈ items, motive v) → motive (.list items))
    (map : ∀ entries, (∀ e ∈ entries, motive e.2) → motive (.map entries)) : ∀ v, motive v
  | .text s => text s
  | .list items => list items fun v _ => induct text list map v
  | .map entries => map entries fun e _ => induct text list map e.2
termination_by v => sizeOf v
decreasing_by
  · rename_i h
    have := List.sizeOf_lt_of_mem h
    simp only [Value.list.sizeOf_spec]
    omega
  · rename_i h
    have := List.sizeOf_lt_of_mem h
    obtain ⟨k, v⟩ := e
    simp only [Value.map.sizeOf_spec, Prod.mk.sizeOf_spec] at this ⊢
    omega

/-- The first value is the second or stands somewhere in it. -/
inductive Part : Value → Value → Prop
  | self (v : Value) : Part v v
  | item {w v : Value} {items : List Value} (hv : v ∈ items) (hw : Part w v) : Part w (.list items)
  | entry {w : Value} {e : String × Value} {entries : List (String × Value)} (he : e ∈ entries)
      (hw : Part w e.2) : Part w (.map entries)

theorem Part.trans {u v w : Value} (hu : Part u v) (hv : Part v w) : Part u w := by
  induction hv with
  | self => exact hu
  | item hmem _ ih => exact .item hmem ih
  | entry hmem _ ih => exact .entry hmem ih

def All (p : Value → Prop) (v : Value) : Prop := ∀ w, Part w v → p w

variable {p : Value → Prop}

theorem all_text {s : String} : All p (.text s) ↔ p (.text s) :=
  ⟨fun h => h _ (.self _), fun h w hw => by cases hw; exact h⟩

theorem all_list {items : List Value} :
    All p (.list items) ↔ p (.list items) ∧ ∀ v ∈ items, All p v := by
  constructor
  · intro h
    exact ⟨h _ (.self _), fun v hv w hw => h w (.item hv hw)⟩
  · rintro ⟨hself, hitems⟩ w hw
    cases hw with
    | self => exact hself
    | item hv hw => exact hitems _ hv w hw

theorem all_map {entries : List (String × Value)} :
    All p (.map entries) ↔ p (.map entries) ∧ ∀ e ∈ entries, All p e.2 := by
  constructor
  · intro h
    exact ⟨h _ (.self _), fun e he w hw => h w (.entry he hw)⟩
  · rintro ⟨hself, hentries⟩ w hw
    cases hw with
    | self => exact hself
    | entry he hw => exact hentries _ he w hw

/-- The steps to a text, and the text. -/
abbrev Leaf := List Step × String

def under (step : Step) (ls : List Leaf) : List Leaf := ls.map fun l => (step :: l.1, l.2)

def leaves : Value → List Leaf
  | .text s => [([], s)]
  | .list items => listLeaves items
  | .map entries => mapLeaves entries
where
  listLeaves : List Value → List Leaf
    | [] => []
    | v :: rest => under .push v.leaves ++ listLeaves rest
  mapLeaves : List (String × Value) → List Leaf
    | [] => []
    | (k, v) :: rest => under (.key k) v.leaves ++ mapLeaves rest

open leaves

@[simp] theorem leaves_text (s : String) : (text s).leaves = [([], s)] := by rw [leaves]
@[simp] theorem leaves_list (items : List Value) : (list items).leaves = listLeaves items := by
  rw [leaves]
@[simp] theorem leaves_map (entries : List (String × Value)) :
    (map entries).leaves = mapLeaves entries := by
  rw [leaves]
@[simp] theorem listLeaves_nil : listLeaves [] = [] := by rw [listLeaves]
@[simp] theorem listLeaves_cons (v : Value) (rest : List Value) :
    listLeaves (v :: rest) = under .push v.leaves ++ listLeaves rest := by
  rw [listLeaves]
@[simp] theorem mapLeaves_nil : mapLeaves [] = [] := by rw [mapLeaves]
@[simp] theorem mapLeaves_cons (e : String × Value) (rest : List (String × Value)) :
    mapLeaves (e :: rest) = under (.key e.1) e.2.leaves ++ mapLeaves rest := by
  rw [mapLeaves]

@[simp] theorem under_nil (step : Step) : under step [] = [] := rfl
@[simp] theorem under_cons (step : Step) (l : Leaf) (ls : List Leaf) :
    under step (l :: ls) = (step :: l.1, l.2) :: under step ls := rfl
@[simp] theorem length_under (step : Step) (ls : List Leaf) :
    (under step ls).length = ls.length := List.length_map _

theorem mem_under {step : Step} {ls : List Leaf} {l : Leaf} :
    l ∈ under step ls ↔ ∃ l' ∈ ls, l = (step :: l'.1, l'.2) := by
  simp [under, eq_comm]

theorem mem_listLeaves {items : List Value} {l : Leaf} :
    l ∈ listLeaves items ↔ ∃ v ∈ items, l ∈ under .push v.leaves := by
  induction items with
  | nil => simp
  | cons v rest ih => simp [ih]

theorem mem_mapLeaves {entries : List (String × Value)} {l : Leaf} :
    l ∈ mapLeaves entries ↔ ∃ e ∈ entries, l ∈ under (.key e.1) e.2.leaves := by
  induction entries with
  | nil => simp
  | cons e rest ih =>
    obtain ⟨k, v⟩ := e
    simp [ih]

theorem listLeaves_append (items items' : List Value) :
    listLeaves (items ++ items') = listLeaves items ++ listLeaves items' := by
  induction items with
  | nil => simp
  | cons v rest ih => simp [ih]

/-- A value with neither an empty list nor an empty map in it. -/
def Full (v : Value) : Prop := v.All fun w => w ≠ .list [] ∧ w ≠ .map []

theorem Full.leaves_ne_nil {v : Value} (h : v.Full) : v.leaves ≠ [] := by
  induction v using induct with
  | text s => simp
  | list items ih =>
    obtain ⟨hself, hitems⟩ := all_list.mp h
    cases items with
    | nil => exact absurd rfl hself.1
    | cons v rest =>
      have hv := ih v List.mem_cons_self (hitems v List.mem_cons_self)
      simp [under, hv]
  | map entries ih =>
    obtain ⟨hself, hentries⟩ := all_map.mp h
    cases entries with
    | nil => exact absurd rfl hself.2
    | cons e rest =>
      have he := ih e List.mem_cons_self (hentries e List.mem_cons_self)
      simp [under, he]

def count (v : Value) : Nat := v.leaves.length

@[simp] theorem count_text (s : String) : (text s).count = 1 := rfl

theorem count_list_append (items items' : List Value) :
    (list (items ++ items')).count = (list items).count + (list items').count := by
  simp [count, listLeaves_append]

@[simp] theorem count_singleton (v : Value) : (list [v]).count = v.count := by
  simp [count]

@[simp] theorem count_map_cons (e : String × Value) (rest : List (String × Value)) :
    (map (e :: rest)).count = e.2.count + (map rest).count := by
  simp [count]

theorem count_insert_of_none {k : String} {entries : Entries String Value}
    (h : entries.find? k = none) (v : Value) :
    (map (entries.insert k v)).count = (map entries).count + v.count := by
  induction entries with
  | nil => simp [Entries.insert, count]
  | cons e rest ih =>
    rw [Entries.find?_cons] at h
    split at h
    · simp at h
    · rename_i hne
      simp only [Entries.insert]
      split
      · simp only [count_map_cons]
        omega
      · rename_i hk
        exact absurd (Std.LawfulEqOrd.eq_of_compare hk) hne
      · simp only [count_map_cons, ih h]
        omega

theorem count_insert_of_some {k : String} {u : Value} {entries : Entries String Value}
    (hs : entries.Sorted) (h : entries.find? k = some u) (v : Value) :
    (map (entries.insert k v)).count + u.count = (map entries).count + v.count := by
  induction entries with
  | nil => simp at h
  | cons e rest ih =>
    have hmem := Entries.mem_of_find? h
    rw [Entries.find?_cons] at h
    simp only [Entries.insert]
    cases hk : compare k e.1 with
    | lt =>
      rcases List.mem_cons.mp hmem with he | hrest
      · simp [← he, Std.compare_self] at hk
      · have hgt := (List.pairwise_cons.mp hs).1 _ hrest
        have hlt := Std.TransCmp.lt_trans hk hgt
        simp [Std.compare_self] at hlt
    | eq =>
      rw [if_pos (Std.LawfulEqOrd.eq_of_compare hk)] at h
      cases h
      simp only [count_map_cons]
      omega
    | gt =>
      have hne : k ≠ e.1 := by
        rintro rfl
        simp [Std.compare_self] at hk
      rw [if_neg hne] at h
      have := ih hs.tail h
      simp only [count_map_cons]
      omega

end Value

end Signpost.Query
