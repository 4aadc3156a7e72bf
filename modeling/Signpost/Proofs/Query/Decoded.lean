import Signpost.Proofs.Query.Pair
import Mathlib.Data.List.Chain

/-! # Decoded maps

What one pair does to the parameters, and what therefore holds of every map that is read from a
query string: its keys are names that can be written, it has no empty container, its texts are
not too deep, and no list in it has two lists side by side.
-/
namespace Signpost.Query
open Value Value.leaves

theorem insertAt_eq (m : QueryMap) (head : String) (steps : List Step) (s : String) :
    insertAt m (.key head :: steps) s =
      (place (.text s) steps (m.find? head)).map fun u => m.insert head u := by
  rw [insertAt, place_key_map]
  cases place (.text s) steps (m.find? head) <;> rfl

theorem addPair_pairText {m : QueryMap} {l : Leaf} {head : String} {steps : List Step}
    (hl : l.1 = .key head :: steps) (hnamed : Named head steps) (hne : head ≠ "") :
    addPair m (pairText l) = match insertAt m l.1 l.2 with
      | some m' => .ok m'
      | none => .error (.typeMismatch (String.ofList (pathText String.toList l.1))) := by
  have hhead : (Step.key head :: steps).head? ≠ some (.key "") := by simpa using hne
  have hpath : keyPath (String.ofList (pathText String.toList l.1)) = .ok l.1 := by
    rw [hl]
    exact hnamed.keyPath_eq
  simp only [addPair, splitPair_pairText, decodeComponent_pathText, decodeComponent_written, bind,
    Except.bind, hpath]
  rw [if_neg (by rwa [hl])]
  cases insertAt m l.1 l.2 <;> rfl

theorem of_addPair {m m' : QueryMap} {pair : List Char} (h : addPair m pair = .ok m') :
    m' = m ∨ ∃ head steps s u, head ≠ "" ∧ Named head steps ∧
      Placed (.text s) steps (m.find? head) u ∧ m' = m.insert head u := by
  simp only [addPair, bind, Except.bind] at h
  split at h
  · cases h
  · split at h
    · cases h
    · rename_i text _
      split at h
      · cases h
      · rename_i path hpath
        obtain ⟨head, steps, rfl, hnamed⟩ := named_of_keyPath hpath
        split at h
        · cases h
          exact Or.inl rfl
        · rename_i hhead
          rw [insertAt_eq] at h
          cases hu : place (Value.text text) steps (m.find? head) with
          | none =>
            rw [hu] at h
            cases h
          | some u =>
            rw [hu] at h
            cases h
            refine Or.inr ⟨head, steps, text, u, ?_, hnamed, .of_place hu, rfl⟩
            rintro rfl
            exact hhead rfl

/-- What holds of no parameters and is kept by every pair holds of all that is decoded. -/
theorem decode_induct {P : QueryMap → Prop} (hnil : P [])
    (hinsert : ∀ m head steps s u, P m → head ≠ "" → Named head steps →
      Placed (.text s) steps (m.find? head) u → P (m.insert head u))
    {q : String} {m : QueryMap} (h : decode q = .ok m) : P m := by
  have hfold : ∀ (ps : List (List Char)) m₀ m, P m₀ → ps.foldlM addPair m₀ = .ok m → P m := by
    intro ps
    induction ps with
    | nil =>
      intro m₀ m hm h
      cases h
      exact hm
    | cons p ps ih =>
      intro m₀ m hm h
      rw [List.foldlM_cons] at h
      cases hp : addPair m₀ p with
      | error e =>
        rw [hp] at h
        cases h
      | ok m₁ =>
        rw [hp] at h
        refine ih m₁ m ?_ h
        rcases of_addPair hp with rfl | ⟨head, steps, s, u, hne, hnamed, hu, rfl⟩
        · exact hm
        · exact hinsert m₀ head steps s u hm hne hnamed hu
  exact hfold _ [] m hnil h

def Value.IsList (v : Value) : Prop := ∃ items, v = .list items

/-- What a decoded value is like where one looks at it. -/
structure Regular (w : Value) : Prop where
  keys_increase : KeysIncrease w
  keys_free : ∀ entries, w = .map entries → ∀ e ∈ entries, e.1 ≠ "" ∧ ']' ∉ e.1.toList
  nonempty : w ≠ .list [] ∧ w ≠ .map []
  lists_apart : ∀ items, w = .list items → items.IsChain fun a b => ¬(a.IsList ∧ b.IsList)

theorem regular_text (s : String) : Regular (.text s) := by
  constructor
  · intro _ h
    cases h
  · intro _ h
    cases h
  · simp
  · intro _ h
    cases h

theorem regular_insert {k : String} {u : Value} {entries : List (String × Value)}
    (hk : k ≠ "" ∧ ']' ∉ k.toList) (h : entries ≠ [] → Regular (.map entries)) :
    Regular (.map (Entries.insert k u entries)) := by
  constructor
  · exact keysIncrease_insert fun hne => (h hne).keys_increase
  · rintro _ ⟨⟩ e he
    rcases Entries.mem_of_mem_insert he with rfl | he
    · exact hk
    · exact (h (List.ne_nil_of_mem he)).keys_free _ rfl e he
  · simpa using Entries.insert_ne_nil k u entries
  · intro _ he
    cases he

theorem regular_list {items : List Value} (hne : items ≠ [])
    (h : items.IsChain fun a b => ¬(a.IsList ∧ b.IsList)) : Regular (.list items) := by
  constructor
  · intro _ he
    cases he
  · intro _ he
    cases he
  · simpa using hne
  · rintro _ ⟨⟩
    exact h

theorem Placed.isList_of_takesPath {v u last : Value} {p : List Step} {cur : Option Value}
    (h : Placed v p cur u) (htakes : last.takesPath p = true) (hu : u.IsList) : last.IsList := by
  match last, p with
  | .list items, _ => exact ⟨items, rfl⟩
  | .map _, .key _ :: _ =>
    obtain ⟨items, rfl⟩ := hu
    obtain ⟨entries, he⟩ := h.exists_map
    cases he
  | .map _, .push :: _ => simp [takesPath] at htakes
  | .map _, [] => simp [takesPath] at htakes
  | .text _, _ => simp [takesPath] at htakes

/-- A list that starts after an item starts there because the item is none. -/
theorem Placed.not_isList_of_not_takesPath {s : String} {u last : Value} {p : List Step}
    (h : Placed (.text s) p none u) (htakes : last.takesPath p = false) :
    ¬(last.IsList ∧ u.IsList) := by
  rintro ⟨⟨items, rfl⟩, ⟨items', rfl⟩⟩
  match p with
  | [] => cases h
  | .key _ :: _ =>
    obtain ⟨entries, he⟩ := h.exists_map
    cases he
  | .push :: _ => simp [takesPath] at htakes

theorem Placed.regular {s : String} {p : List Step} {cur : Option Value} {w : Value}
    (h : Placed (.text s) p cur w) (hkeys : ∀ k, .key k ∈ p → k ≠ "" ∧ ']' ∉ k.toList)
    (hcur : ∀ c ∈ cur, c.All Regular) : w.All Regular := by
  apply h.all (all_text.mpr (regular_text s)) hcur
  · intro k entries u hk
    exact regular_insert (hkeys k hk)
  · intro rest init last u htakes hu hlist
    have hchain := List.isChain_append.mp (hlist.lists_apart _ rfl)
    refine regular_list (by simp) (List.isChain_append.mpr ⟨hchain.1, by simp, ?_⟩)
    rintro x hx _ ⟨⟩ ⟨hxl, hul⟩
    exact hchain.2.2 x hx last rfl ⟨hxl, hu.isList_of_takesPath htakes hul⟩
  · intro rest items u hnew hu hlist
    refine regular_list (by simp) (List.isChain_append.mpr ⟨?_, by simp, ?_⟩)
    · by_cases hne : items = []
      · simp [hne]
      · exact (hlist hne).lists_apart _ rfl
    · rintro x hx _ ⟨⟩
      exact hu.not_isList_of_not_takesPath (hnew x hx)

theorem Placed.mem_leaves {s : String} {p : List Step} {cur : Option Value} {w : Value} {l : Leaf}
    (h : Placed (.text s) p cur w) (hl : l ∈ w.leaves) : l.1 = p ∨ ∃ c ∈ cur, l ∈ c.leaves := by
  induction h generalizing l with
  | here cur =>
    rw [leaves_text, List.mem_singleton] at hl
    exact Or.inl (by rw [hl])
  | @entry k rest cur entries u hc _ ih =>
    have hold : ∀ l ∈ (map entries).leaves, ∃ c ∈ cur, l ∈ c.leaves := by
      intro l hl
      cases cur with
      | none =>
        cases hc
        simp at hl
      | some c =>
        cases hc
        exact ⟨_, rfl, hl⟩
    rw [leaves_map] at hl
    obtain ⟨e, he, hunder⟩ := mem_mapLeaves.mp hl
    rcases Entries.mem_of_mem_insert he with rfl | he
    · obtain ⟨l', hl', rfl⟩ := mem_under.mp hunder
      rcases ih hl' with hp | ⟨c, hfind, hl'⟩
      · exact Or.inl (by rw [hp])
      · refine Or.inr (hold _ ?_)
        rw [leaves_map]
        exact mem_mapLeaves.mpr ⟨(k, c), Entries.mem_of_find? hfind, mem_under.mpr ⟨l', hl', rfl⟩⟩
    · refine Or.inr (hold _ ?_)
      rw [leaves_map]
      exact mem_mapLeaves.mpr ⟨e, he, hunder⟩
  | @taken rest init last u _ _ ih =>
    rw [leaves_list, listLeaves_append] at hl
    have hinit : ∀ l, l ∈ listLeaves init ∨ l ∈ listLeaves [last] →
        ∃ c ∈ some (list (init ++ [last])), l ∈ c.leaves := by
      intro l hl
      refine ⟨_, rfl, ?_⟩
      rw [leaves_list, listLeaves_append]
      exact List.mem_append.mpr hl
    rcases List.mem_append.mp hl with hl | hl
    · exact Or.inr (hinit l (Or.inl hl))
    · rw [listLeaves_cons, listLeaves_nil, List.append_nil] at hl
      obtain ⟨l', hl', rfl⟩ := mem_under.mp hl
      rcases ih hl' with hp | ⟨c, hc, hl'⟩
      · exact Or.inl (by rw [hp])
      · cases hc
        refine Or.inr (hinit _ (Or.inr ?_))
        rw [listLeaves_cons]
        exact List.mem_append_left _ (mem_under.mpr ⟨l', hl', rfl⟩)
  | @new rest cur items u hc _ _ ih =>
    rw [leaves_list, listLeaves_append] at hl
    rcases List.mem_append.mp hl with hl | hl
    · cases cur with
      | none =>
        cases hc
        simp at hl
      | some c =>
        cases hc
        exact Or.inr ⟨_, rfl, by rwa [leaves_list]⟩
    · rw [listLeaves_cons, listLeaves_nil, List.append_nil] at hl
      obtain ⟨l', hl', rfl⟩ := mem_under.mp hl
      rcases ih hl' with hp | ⟨c, hc, -⟩
      · exact Or.inl (by rw [hp])
      · cases hc

structure Decoded (m : QueryMap) : Prop where
  sorted : Entries.Sorted m
  heads : ∀ e ∈ m, e.1 ≠ "" ∧ '[' ∉ e.1.toList
  values : ∀ e ∈ m, e.2.All Regular
  depth : ∀ e ∈ m, ∀ l ∈ e.2.leaves, l.1.length < maxNesting

theorem Decoded.insert {m : QueryMap} (hm : Decoded m) {head : String} {steps : List Step}
    {s : String} {u : Value} (hne : head ≠ "") (hnamed : Named head steps)
    (hu : Placed (.text s) steps (m.find? head) u) : Decoded (m.insert head u) := by
  constructor
  · exact hm.sorted.insert head u
  · intro e he
    rcases Entries.mem_of_mem_insert he with rfl | he
    · exact ⟨hne, hnamed.head_free⟩
    · exact hm.heads e he
  · intro e he
    rcases Entries.mem_of_mem_insert he with rfl | he
    · exact hu.regular hnamed.keys_free fun c hc => hm.values _ (Entries.mem_of_find? hc)
    · exact hm.values e he
  · intro e he l hl
    rcases Entries.mem_of_mem_insert he with rfl | he
    · rcases hu.mem_leaves hl with hp | ⟨c, hc, hl⟩
      · rw [hp]
        exact hnamed.length_lt
      · exact hm.depth _ (Entries.mem_of_find? hc) l hl
    · exact hm.depth e he l hl

theorem decoded_of_decode {q : String} {m : QueryMap} (h : decode q = .ok m) : Decoded m := by
  refine decode_induct ?_ ?_ h
  · exact ⟨Entries.sorted_nil, by simp, by simp, by simp⟩
  · intro m head steps s u hm hne hnamed hu
    exact hm.insert hne hnamed hu

end Signpost.Query
