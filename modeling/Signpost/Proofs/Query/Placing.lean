import Signpost.Proofs.Query.Leaves

/-! # Placing a leaf

What placing a value at the end of a path can do: it sets an entry of a map, goes on into the
last item of a list, or adds an item. Everything that a placement keeps is shown by going through
these cases once.
-/
namespace Signpost.Query
open Value Value.leaves

theorem taken_or_new (items : List Value) (rest : List Step) :
    (∃ init last, items = init ++ [last] ∧ last.takesPath rest = true) ∨
      ∀ last ∈ items.getLast?, last.takesPath rest = false := by
  cases hl : items.getLast? with
  | none => exact Or.inr (by simp)
  | some last =>
    cases ht : last.takesPath rest with
    | true =>
      obtain ⟨init, rfl⟩ := List.getLast?_eq_some_iff.mp hl
      exact Or.inl ⟨init, last, rfl, ht⟩
    | false => exact Or.inr (by simp [ht])

section Equations
variable {v : Value} {k : String} {rest : List Step} {items : List Value}

theorem place_key_none :
    place v (.key k :: rest) none = place v (.key k :: rest) (some (.map [])) := rfl

theorem place_key_map {entries : Entries String Value} :
    place v (.key k :: rest) (some (.map entries)) =
      (place v rest (entries.find? k)).map fun w => .map (entries.insert k w) := rfl

theorem place_push_none :
    place v (.push :: rest) none = place v (.push :: rest) (some (.list [])) := rfl

theorem place_push_taken {last : Value} (h : last.takesPath rest = true) :
    place v (.push :: rest) (some (.list (items ++ [last]))) =
      (place v rest (some last)).map fun w => .list (items ++ [w]) := by
  simp [place, h]

theorem place_push_new (h : ∀ last ∈ items.getLast?, last.takesPath rest = false) :
    place v (.push :: rest) (some (.list items)) =
      (place v rest none).map fun w => .list (items ++ [w]) := by
  rw [place]
  cases hl : items.getLast? with
  | none => simp [List.getLast?_eq_none_iff.mp hl]
  | some last => simp [h last hl]

end Equations

/-- Placing `v` at the end of the path leaves the last value. No value at all is as good as an
empty container of the kind that the path needs. -/
inductive Placed (v : Value) : List Step → Option Value → Value → Prop
  | here (cur : Option Value) : Placed v [] cur v
  | entry {k : String} {rest : List Step} {cur : Option Value} {entries : Entries String Value}
      {u : Value} (hcur : cur.getD (.map []) = .map entries)
      (hu : Placed v rest (entries.find? k) u) :
      Placed v (.key k :: rest) cur (.map (entries.insert k u))
  | taken {rest : List Step} {init : List Value} {last u : Value}
      (htakes : last.takesPath rest = true) (hu : Placed v rest (some last) u) :
      Placed v (.push :: rest) (some (.list (init ++ [last]))) (.list (init ++ [u]))
  | new {rest : List Step} {cur : Option Value} {items : List Value} {u : Value}
      (hcur : cur.getD (.list []) = .list items)
      (hnew : ∀ last ∈ items.getLast?, last.takesPath rest = false)
      (hu : Placed v rest none u) : Placed v (.push :: rest) cur (.list (items ++ [u]))

theorem Placed.of_place {v w : Value} {p : List Step} {cur : Option Value}
    (h : place v p cur = some w) : Placed v p cur w := by
  induction p generalizing cur w with
  | nil =>
    cases h
    exact .here cur
  | cons step p ih =>
    cases step with
    | key k =>
      have hmap : ∀ entries, cur.getD (.map []) = .map entries →
          place v (.key k :: p) (some (.map entries)) = some w → Placed v (.key k :: p) cur w := by
        intro entries hcur h
        obtain ⟨u, hu, rfl⟩ := Option.map_eq_some_iff.mp (place_key_map ▸ h)
        exact .entry hcur (ih hu)
      match cur with
      | none => exact hmap [] rfl h
      | some (.map entries) => exact hmap entries rfl h
      | some (.text _) => simp [place] at h
      | some (.list _) => simp [place] at h
    | push =>
      have hlist : ∀ items, cur.getD (.list []) = .list items → (items ≠ [] → cur ≠ none) →
          place v (.push :: p) (some (.list items)) = some w → Placed v (.push :: p) cur w := by
        intro items hcur hne h
        rcases taken_or_new items p with ⟨init, last, rfl, htakes⟩ | hnew
        · obtain ⟨u, hu, rfl⟩ := Option.map_eq_some_iff.mp (place_push_taken htakes ▸ h)
          cases cur with
          | none => exact absurd rfl (hne (by simp))
          | some c =>
            cases hcur
            exact .taken htakes (ih hu)
        · obtain ⟨u, hu, rfl⟩ := Option.map_eq_some_iff.mp (place_push_new hnew ▸ h)
          exact .new hcur hnew (ih hu)
      match cur with
      | none => exact hlist [] rfl (by simp) h
      | some (.list items) => exact hlist items rfl (by simp) h
      | some (.text _) => simp [place] at h
      | some (.map _) => simp [place] at h

/-- A property of what is there and of an empty container is one of what is taken as there. -/
theorem of_getD {P : Value → Prop} {cur : Option Value} {empty c : Value}
    (h : cur.getD empty = c) (hcur : ∀ c ∈ cur, P c) (hempty : P empty) : P c := by
  cases cur with
  | none => exact h ▸ hempty
  | some _ => exact h ▸ hcur _ rfl

theorem Placed.exists_map {v w : Value} {k : String} {rest : List Step} {cur : Option Value}
    (h : Placed v (.key k :: rest) cur w) : ∃ entries, w = .map entries := by
  cases h
  exact ⟨_, rfl⟩

theorem Placed.exists_list {v w : Value} {rest : List Step} {cur : Option Value}
    (h : Placed v (.push :: rest) cur w) : ∃ items, w = .list items := by
  cases h <;> exact ⟨_, rfl⟩

theorem hasPath_of_takesPath {v : Value} {p : List Step} (h : v.takesPath p = true) :
    v.hasPath p = false := by
  match v, p with
  | .text _, _ => simp [takesPath] at h
  | .list _, [] => simp [takesPath] at h
  | .list _, .key _ :: _ => rfl
  | .list _, .push :: _ => rfl
  | .map _, [] => simp [takesPath] at h
  | .map _, .key _ :: _ => simpa [takesPath] using h
  | .map _, .push :: _ => rfl

/-- A property of all parts is kept if it is kept by what a placement does to one container. -/
theorem Placed.all {P : Value → Prop} {v w : Value} {p : List Step} {cur : Option Value}
    (h : Placed v p cur w) (hv : v.All P) (hcur : ∀ c ∈ cur, c.All P)
    (hentry : ∀ k entries u, .key k ∈ p → (entries ≠ [] → P (.map entries)) →
      P (.map (Entries.insert k u entries)))
    (htaken : ∀ rest init last u, last.takesPath rest = true → Placed v rest (some last) u →
      P (.list (init ++ [last])) → P (.list (init ++ [u])))
    (hnew : ∀ rest items u, (∀ last ∈ items.getLast?, last.takesPath rest = false) →
      Placed v rest none u → (items ≠ [] → P (.list items)) → P (.list (items ++ [u]))) :
    w.All P := by
  induction h with
  | here => exact hv
  | @entry k rest cur entries u hc _ ih =>
    have hentries : (entries ≠ [] → P (.map entries)) ∧ ∀ e ∈ entries, e.2.All P := by
      cases cur with
      | none =>
        cases hc
        simp
      | some c =>
        cases hc
        exact (all_map.mp (hcur _ rfl)).imp_left fun h _ => h
    refine all_map.mpr ⟨hentry k entries u List.mem_cons_self hentries.1, ?_⟩
    intro e he
    rcases Entries.mem_of_mem_insert he with rfl | he
    · exact ih (fun c hc => hentries.2 _ (Entries.mem_of_find? hc)) fun k entries u hk =>
        hentry k entries u (List.mem_cons_of_mem _ hk)
    · exact hentries.2 e he
  | @taken rest init last u htakes hu ih =>
    obtain ⟨hself, hitems⟩ := all_list.mp (hcur _ rfl)
    refine all_list.mpr ⟨htaken rest init last u htakes hu hself, fun x hx => ?_⟩
    rcases List.mem_append.mp hx with hx | hx
    · exact hitems x (List.mem_append_left _ hx)
    · rw [List.mem_singleton.mp hx]
      exact ih (fun c hc => by cases hc; exact hitems _ (by simp)) fun k entries u hk =>
        hentry k entries u (List.mem_cons_of_mem _ hk)
  | @new rest cur items u hc hlast hu ih =>
    have hitems : (items ≠ [] → P (.list items)) ∧ ∀ x ∈ items, x.All P := by
      cases cur with
      | none =>
        cases hc
        simp
      | some c =>
        cases hc
        exact (all_list.mp (hcur _ rfl)).imp_left fun h _ => h
    refine all_list.mpr ⟨hnew rest items u hlast hu hitems.1, fun x hx => ?_⟩
    rcases List.mem_append.mp hx with hx | hx
    · exact hitems.2 x hx
    · rw [List.mem_singleton.mp hx]
      exact ih (by simp) fun k entries u hk => hentry k entries u (List.mem_cons_of_mem _ hk)

def KeysIncrease (w : Value) : Prop := ∀ entries, w = .map entries → Entries.Sorted entries

def Value.Ordered (v : Value) : Prop := v.All KeysIncrease

theorem ordered_text (s : String) : (text s).Ordered :=
  all_text.mpr fun _ h => by cases h

theorem ordered_list {items : List Value} : (list items).Ordered ↔ ∀ v ∈ items, v.Ordered := by
  rw [Ordered, all_list]
  exact ⟨fun h => h.2, fun h => ⟨(fun _ he => by cases he), h⟩⟩

theorem keysIncrease_map {entries : List (String × Value)} :
    KeysIncrease (map entries) ↔ Entries.Sorted entries :=
  ⟨fun h => h _ rfl, fun h _ he => by cases he; exact h⟩

theorem ordered_map {entries : List (String × Value)} :
    (map entries).Ordered ↔ Entries.Sorted entries ∧ ∀ e ∈ entries, e.2.Ordered := by
  rw [Ordered, all_map, keysIncrease_map]
  rfl

theorem ordered_nil : (map []).Ordered ∧ (list []).Ordered :=
  ⟨ordered_map.mpr ⟨Entries.sorted_nil, by simp⟩, ordered_list.mpr (by simp)⟩

theorem keysIncrease_insert {k : String} {u : Value} {entries : List (String × Value)}
    (h : entries ≠ [] → KeysIncrease (map entries)) :
    KeysIncrease (map (Entries.insert k u entries)) := by
  rw [keysIncrease_map]
  by_cases hne : entries = []
  · subst hne
    exact Entries.sorted_nil.insert k u
  · exact (keysIncrease_map.mp (h hne)).insert k u

theorem Placed.ordered {v w : Value} {p : List Step} {cur : Option Value} (h : Placed v p cur w)
    (hv : v.Ordered) (hcur : ∀ c ∈ cur, c.Ordered) : w.Ordered :=
  h.all hv hcur (fun _ _ _ _ => keysIncrease_insert) (fun _ _ _ _ _ _ _ _ he => by cases he)
    fun _ _ _ _ _ _ _ he => by cases he

theorem Placed.count_eq {s : String} {w : Value} {p : List Step} {cur : Option Value}
    (h : Placed (.text s) p cur w) (hfree : ∀ c ∈ cur, c.hasPath p = false)
    (hcur : ∀ c ∈ cur, c.Ordered) : w.count = cur.elim 0 count + 1 := by
  induction h with
  | here cur =>
    cases cur with
    | none => rfl
    | some c => simpa [hasPath] using hfree c rfl
  | @entry k rest cur entries u hc hu ih =>
    obtain ⟨hsorted, hvalues⟩ := ordered_map.mp (of_getD hc hcur ordered_nil.1)
    have hfree := of_getD (P := fun c => c.hasPath (.key k :: rest) = false) hc hfree
      (by simp [hasPath])
    have hcount : cur.elim 0 count = (map entries).count := by
      cases cur with
      | none =>
        cases hc
        rfl
      | some c =>
        cases hc
        rfl
    rw [hcount]
    cases hfind : entries.find? k with
    | none =>
      rw [hfind] at ih
      rw [count_insert_of_none hfind, ih (by simp) (by simp)]
      rfl
    | some x =>
      rw [hfind] at ih
      simp only [hasPath, hfind] at hfree
      have hx := hvalues _ (Entries.mem_of_find? hfind)
      have hu := ih (by simpa using hfree) (by simpa using hx)
      have := count_insert_of_some hsorted hfind u
      simp only [Option.elim_some] at hu
      omega
  | @taken rest init last u htakes _ ih =>
    have hlast : last.Ordered := ordered_list.mp (hcur _ rfl) last (by simp)
    have hu := ih (by simpa using hasPath_of_takesPath htakes) (by simpa using hlast)
    simp only [Option.elim_some, count_list_append, count_singleton] at hu ⊢
    omega
  | @new rest cur items u hc _ _ ih =>
    have hcount : cur.elim 0 count = (list items).count := by
      cases cur with
      | none =>
        cases hc
        rfl
      | some c =>
        cases hc
        rfl
    rw [hcount, count_list_append, count_singleton, ih (by simp) (by simp)]
    rfl

end Signpost.Query
