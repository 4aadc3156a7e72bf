import Signpost.Proofs.Query.Placing

/-! # Placing leaves in order

Each leaf goes into what the leaves before it built. The leaves of an entry of a map build its
value beside the other entries. The leaves of an item of a list build the item at the end of the
list, unless the item before it takes the first of them. No two leaves of one value meet.
-/
namespace Signpost.Query
open Value Value.leaves

def placeAll : List Leaf → Option Value → Option (Option Value)
  | [], cur => some cur
  | l :: rest, cur => (place (.text l.2) l.1 cur).bind fun w => placeAll rest (some w)

@[simp] theorem placeAll_nil (cur : Option Value) : placeAll [] cur = some cur := rfl

theorem placeAll_cons (l : Leaf) (rest : List Leaf) (cur : Option Value) :
    placeAll (l :: rest) cur = (place (.text l.2) l.1 cur).bind fun w => placeAll rest (some w) :=
  rfl

theorem placeAll_append (ls ls' : List Leaf) (cur : Option Value) :
    placeAll (ls ++ ls') cur = (placeAll ls cur).bind (placeAll ls') := by
  induction ls generalizing cur with
  | nil => rfl
  | cons l rest ih =>
    simp only [List.cons_append, placeAll_cons, Option.bind_assoc]
    exact congrArg _ (funext fun w => ih (some w))

theorem exists_of_placeAll {ls : List Leaf} {cur r : Option Value} (hls : ls ≠ [])
    (h : placeAll ls cur = some r) : ∃ w, r = some w := by
  induction ls generalizing cur with
  | nil => exact absurd rfl hls
  | cons l rest ih =>
    obtain ⟨w, -, hrest⟩ := Option.bind_eq_some_iff.mp h
    cases rest with
    | nil =>
      cases hrest
      exact ⟨w, rfl⟩
    | cons l' rest => exact ih (by simp) hrest

/-- Each leaf has the property together with what the leaves before it left. -/
def Along (q : List Step → Value → Prop) : Option Value → List Leaf → Prop
  | _, [] => True
  | cur, l :: rest =>
    (∀ c ∈ cur, q l.1 c) ∧ ∀ w, place (.text l.2) l.1 cur = some w → Along q (some w) rest

variable {q q' : List Step → Value → Prop}

theorem along_append {cur : Option Value} {ls ls' : List Leaf} (h : Along q cur ls)
    (h' : ∀ r, placeAll ls cur = some r → Along q r ls') : Along q cur (ls ++ ls') := by
  induction ls generalizing cur with
  | nil => exact h' cur rfl
  | cons l rest ih =>
    refine ⟨h.1, fun w hw => ih (h.2 w hw) fun r hr => h' r ?_⟩
    rw [placeAll_cons, hw]
    exact hr

/-- Nothing is there yet at the end of the path. -/
def Free (p : List Step) (c : Value) : Prop := c.hasPath p = false

/-- The path goes on into the item. -/
def Takes (p : List Step) (c : Value) : Prop := c.takesPath p = true

theorem ordered_of_placeAll {ls : List Leaf} {cur r : Option Value}
    (hcur : ∀ c ∈ cur, c.Ordered) (h : placeAll ls cur = some r) : ∀ c ∈ r, c.Ordered := by
  induction ls generalizing cur with
  | nil =>
    cases h
    exact hcur
  | cons l rest ih =>
    obtain ⟨w, hw, hrest⟩ := Option.bind_eq_some_iff.mp h
    have hw := (Placed.of_place hw).ordered (ordered_text _) hcur
    exact ih (by simpa using hw) hrest

theorem count_of_placeAll {ls : List Leaf} {cur r : Option Value} (hcur : ∀ c ∈ cur, c.Ordered)
    (hfree : Along Free cur ls) (h : placeAll ls cur = some r) :
    r.elim 0 count = cur.elim 0 count + ls.length := by
  induction ls generalizing cur with
  | nil =>
    cases h
    rfl
  | cons l rest ih =>
    obtain ⟨w, hw, hrest⟩ := Option.bind_eq_some_iff.mp h
    have hplaced := Placed.of_place hw
    have hordered := hplaced.ordered (ordered_text _) hcur
    have hcount := hplaced.count_eq hfree.1 hcur
    rw [ih (by simpa using hordered) (hfree.2 w hw) hrest, List.length_cons, Option.elim_some]
    omega

theorem placeAll_under_key {k : String} {ls : List Leaf} (hls : ls ≠ [])
    (entries : Entries String Value) :
    placeAll (under (.key k) ls) (some (.map entries)) =
      (placeAll ls (entries.find? k)).map fun r => r.map fun w => .map (entries.insert k w) := by
  induction ls generalizing entries with
  | nil => exact absurd rfl hls
  | cons l rest ih =>
    rw [under_cons, placeAll_cons, placeAll_cons, place_key_map]
    cases hw : place (.text l.2) l.1 (entries.find? k) with
    | none => rfl
    | some w =>
      cases rest with
      | nil => rfl
      | cons l' rest =>
        have := ih (by simp) (entries.insert k w)
        rw [Entries.find?_insert_self] at this
        simpa only [Entries.insert_insert, Option.map_some, Option.bind_some] using this

theorem exists_of_placeAll_under_key {k : String} {ls : List Leaf} {r : Option Value}
    (hls : ls ≠ []) {entries : Entries String Value}
    (h : placeAll (under (.key k) ls) (some (.map entries)) = some r) :
    ∃ w, placeAll ls (entries.find? k) = some (some w) ∧ r = some (.map (entries.insert k w)) := by
  rw [placeAll_under_key hls] at h
  obtain ⟨r', hr', rfl⟩ := Option.map_eq_some_iff.mp h
  obtain ⟨w, rfl⟩ := exists_of_placeAll hls hr'
  exact ⟨w, hr', rfl⟩

theorem find?_of_placeAll_mapLeaves {es : List (String × Value)} {k : String}
    (hk : ∀ e ∈ es, e.1 ≠ k) (hfull : ∀ e ∈ es, e.2.Full) {entries : Entries String Value}
    {r : Option Value} (h : placeAll (mapLeaves es) (some (.map entries)) = some r) :
    ∃ entries' : Entries String Value,
      r = some (.map entries') ∧ entries'.find? k = entries.find? k := by
  induction es generalizing entries with
  | nil =>
    rw [mapLeaves_nil] at h
    cases h
    exact ⟨entries, rfl, rfl⟩
  | cons e rest ih =>
    have hls := (hfull e List.mem_cons_self).leaves_ne_nil
    rw [mapLeaves_cons, placeAll_append] at h
    obtain ⟨r', hr', hrest⟩ := Option.bind_eq_some_iff.mp h
    obtain ⟨w, -, rfl⟩ := exists_of_placeAll_under_key hls hr'
    obtain ⟨entries', hr, hfind⟩ := ih (fun e he => hk e (List.mem_cons_of_mem _ he))
      (fun e he => hfull e (List.mem_cons_of_mem _ he)) hrest
    have hne : k ≠ e.1 := (hk e List.mem_cons_self).symm
    exact ⟨entries', hr, hfind.trans (Entries.find?_insert_of_ne hne w entries)⟩

theorem placeAll_under_push_taken {ls : List Leaf} {w : Value} (items : List Value)
    (h : Along Takes (some w) ls) :
    placeAll (under .push ls) (some (.list (items ++ [w]))) =
      (placeAll ls (some w)).map fun r => r.map fun w => .list (items ++ [w]) := by
  induction ls generalizing w with
  | nil => rfl
  | cons l rest ih =>
    rw [under_cons, placeAll_cons, placeAll_cons, place_push_taken (h.1 w rfl)]
    cases hw : place (.text l.2) l.1 (some w) with
    | none => rfl
    | some w => simpa only [Option.map_some, Option.bind_some] using ih (h.2 w hw)

/-- Leaves whose first is not taken build a new item, which takes the others. -/
theorem placeAll_under_push_new {l : Leaf} {ls : List Leaf} {items : List Value}
    (hnew : ∀ last ∈ items.getLast?, last.takesPath l.1 = false)
    (h : Along Takes none (l :: ls)) :
    placeAll (under .push (l :: ls)) (some (.list items)) =
      (placeAll (l :: ls) none).map fun r => r.map fun w => .list (items ++ [w]) := by
  rw [under_cons, placeAll_cons, placeAll_cons, place_push_new hnew]
  cases hw : place (.text l.2) l.1 none with
  | none => rfl
  | some w =>
    simpa only [Option.map_some, Option.bind_some] using placeAll_under_push_taken items (h.2 w hw)

theorem eq_push_of_mem_listLeaves {items : List Value} {l : Leaf} (h : l ∈ listLeaves items) :
    ∃ p, l.1 = .push :: p := by
  obtain ⟨v, -, hl⟩ := mem_listLeaves.mp h
  obtain ⟨l', -, rfl⟩ := mem_under.mp hl
  exact ⟨l'.1, rfl⟩

theorem eq_key_of_mem_mapLeaves {entries : List (String × Value)} {l : Leaf}
    (h : l ∈ mapLeaves entries) : ∃ k p, l.1 = .key k :: p := by
  obtain ⟨e, -, hl⟩ := mem_mapLeaves.mp h
  obtain ⟨l', -, rfl⟩ := mem_under.mp hl
  exact ⟨e.1, l'.1, rfl⟩

theorem along_takes_of_push {ls : List Leaf} (hls : ∀ l ∈ ls, ∃ p, l.1 = .push :: p)
    {cur : Option Value} (hcur : ∀ c ∈ cur, ∃ items, c = .list items) : Along Takes cur ls := by
  induction ls generalizing cur with
  | nil => trivial
  | cons l rest ih =>
    obtain ⟨p, hp⟩ := hls l List.mem_cons_self
    refine ⟨fun c hc => ?_, fun w hw => ih (fun l hl => hls l (List.mem_cons_of_mem _ hl)) ?_⟩
    · obtain ⟨items, rfl⟩ := hcur c hc
      simp [Takes, takesPath, hp]
    · rw [hp] at hw
      simpa using (Placed.of_place hw).exists_list

theorem along_takes_of_key {ls : List Leaf} (hls : ∀ l ∈ ls, ∃ k p, l.1 = .key k :: p)
    {cur : Option Value} (hcur : ∀ c ∈ cur, ∃ entries, c = .map entries)
    (hfree : Along Free cur ls) : Along Takes cur ls := by
  induction ls generalizing cur with
  | nil => trivial
  | cons l rest ih =>
    obtain ⟨k, p, hp⟩ := hls l List.mem_cons_self
    refine ⟨fun c hc => ?_, fun w hw => ?_⟩
    · obtain ⟨entries, rfl⟩ := hcur c hc
      have := hfree.1 _ hc
      rw [Free, hp] at this
      simp [Takes, takesPath, hp, this]
    · refine ih (fun l hl => hls l (List.mem_cons_of_mem _ hl)) ?_ (hfree.2 w hw)
      rw [hp] at hw
      simpa using (Placed.of_place hw).exists_map

theorem along_free_of_push {ls : List Leaf} (hls : ∀ l ∈ ls, ∃ p, l.1 = .push :: p)
    (cur : Option Value) : Along Free cur ls := by
  induction ls generalizing cur with
  | nil => trivial
  | cons l rest ih =>
    obtain ⟨p, hp⟩ := hls l List.mem_cons_self
    refine ⟨fun c _ => ?_, fun w _ => ih (fun l hl => hls l (List.mem_cons_of_mem _ hl)) _⟩
    rw [Free, hp]
    cases c <;> rfl

theorem along_free_under_key {k : String} {ls : List Leaf} {entries : Entries String Value}
    (h : Along Free (entries.find? k) ls) : Along Free (some (.map entries)) (under (.key k) ls) := by
  induction ls generalizing entries with
  | nil => trivial
  | cons l rest ih =>
    refine ⟨?_, fun w hw => ?_⟩
    · rintro c ⟨⟩
      have := h.1
      simp only [Free, hasPath]
      cases hfind : entries.find? k with
      | none => rfl
      | some u => exact this u hfind
    · rw [place_key_map] at hw
      obtain ⟨u, hu, rfl⟩ := Option.map_eq_some_iff.mp hw
      apply ih
      rw [Entries.find?_insert_self]
      exact h.2 u hu

theorem along_free_mapLeaves {es : List (String × Value)} (hfull : ∀ e ∈ es, e.2.Full)
    (hfree : ∀ e ∈ es, Along Free none e.2.leaves) (hs : Entries.Sorted es)
    {entries : Entries String Value} (hnew : ∀ e ∈ es, entries.find? e.1 = none) :
    Along Free (some (.map entries)) (mapLeaves es) := by
  induction es generalizing entries with
  | nil => trivial
  | cons e rest ih =>
    have hls := (hfull e List.mem_cons_self).leaves_ne_nil
    rw [mapLeaves_cons]
    apply along_append
    · apply along_free_under_key
      rw [hnew e List.mem_cons_self]
      exact hfree e List.mem_cons_self
    · intro r hr
      obtain ⟨w, -, rfl⟩ := exists_of_placeAll_under_key hls hr
      apply ih (fun e he => hfull e (List.mem_cons_of_mem _ he))
        (fun e he => hfree e (List.mem_cons_of_mem _ he)) hs.tail
      intro e' he'
      have hne : e'.1 ≠ e.1 := fun heq => by
        have := (List.pairwise_cons.mp hs).1 e' he'
        simp [heq, Std.compare_self] at this
      rw [Entries.find?_insert_of_ne hne]
      exact hnew e' (List.mem_cons_of_mem _ he')

theorem along_free_none {ls : List Leaf} (hls : ∀ l ∈ ls, ∃ k p, l.1 = .key k :: p)
    (h : Along Free (some (.map [])) ls) : Along Free none ls := by
  cases ls with
  | nil => trivial
  | cons l rest =>
    obtain ⟨k, p, hp⟩ := hls l List.mem_cons_self
    refine ⟨by simp, fun w hw => h.2 w ?_⟩
    rw [hp] at hw ⊢
    exact hw

theorem along_free_leaves {v : Value} (hfull : v.Full) (hv : v.Ordered) :
    Along Free none v.leaves := by
  induction v using Value.induct with
  | text s => simp [Along]
  | list items _ =>
    rw [leaves_list]
    exact along_free_of_push (fun l hl => eq_push_of_mem_listLeaves hl) none
  | map entries ih =>
    obtain ⟨hsorted, hvalues⟩ := ordered_map.mp hv
    have hfull := (all_map.mp hfull).2
    rw [leaves_map]
    apply along_free_none (fun l hl => eq_key_of_mem_mapLeaves hl)
    exact along_free_mapLeaves hfull (fun e he => ih e he (hfull e he) (hvalues e he)) hsorted
      (by simp)

theorem along_takes_leaves {v : Value} (hfull : v.Full) (hv : v.Ordered) :
    Along Takes none v.leaves := by
  cases v with
  | text s => simp [Along]
  | list items =>
    rw [leaves_list]
    exact along_takes_of_push (fun l hl => eq_push_of_mem_listLeaves hl) (by simp)
  | map entries =>
    have hfree := along_free_leaves hfull hv
    rw [leaves_map] at hfree ⊢
    exact along_takes_of_key (fun l hl => eq_key_of_mem_mapLeaves hl) (by simp) hfree

/-- What the leaves of a value build has as many texts as the value. -/
theorem count_of_placeAll_leaves {v w : Value} (hfull : v.Full) (hv : v.Ordered)
    (h : placeAll v.leaves none = some (some w)) : w.count = v.count := by
  have := count_of_placeAll (by simp) (along_free_leaves hfull hv) h
  simpa [count] using this

end Signpost.Query
