import Signpost.Proofs.Query.Decoded
import Signpost.Proofs.Query.Rebuild

/-! # The round trip of query strings

Writing parameters and reading them again gives the same parameters exactly when they are
canonical. Each condition is needed: keys must be told from brackets, empty containers are not
written, names have a greatest length, and the items of a list are written without a mark
between them, so that a reader has to see where one ends.
-/
namespace Signpost.Query
open Value Value.leaves

def Value.at? : List String → Value → Option Value
  | [], v => some v
  | k :: keys, .map entries => (Entries.find? k entries).bind (Value.at? keys)
  | _ :: _, _ => none

/-- `b` is the item after `a`. -/
def Adjacent (a b : Value) (items : List Value) : Prop :=
  ∃ before after, items = before ++ a :: b :: after

structure Canonical (m : QueryMap) : Prop where
  heads_free : ∀ e ∈ m, e.1 ≠ "" ∧ '[' ∉ e.1.toList
  keys_free : ∀ e ∈ m, ∀ entries, Part (.map entries) e.2 →
    ∀ e' ∈ entries, e'.1 ≠ "" ∧ ']' ∉ e'.1.toList
  nonempty : ∀ e ∈ m, ∀ w, Part w e.2 → w ≠ .list [] ∧ w ≠ .map []
  /-- Every text is reached by at most `maxNesting` steps. -/
  depth : ∀ l ∈ (Value.map m).leaves, l.1.length ≤ maxNesting
  lists_apart : ∀ e ∈ m, ∀ items, Part (.list items) e.2 →
    ∀ a b, Adjacent a b items → ¬(a.IsList ∧ b.IsList)
  /-- The first leaf of a map after a map is reached through keys that lead to something in the
  map before it. -/
  maps_apart : ∀ e ∈ m, ∀ items, Part (.list items) e.2 →
    ∀ before after, Adjacent (.map before) (.map after) items →
    ∀ l ∈ (Value.map after).leaves.head?,
      ∃ keys, l.1 = keys.map .key ∧ ((Value.map before).at? keys).isSome = true

theorem hasPath_iff {v : Value} {p : List Step} :
    v.hasPath p = true ↔ ∃ keys, p = keys.map .key ∧ (v.at? keys).isSome = true := by
  induction p generalizing v with
  | nil => simp [hasPath, Value.at?]
  | cons step p ih =>
    constructor
    · intro h
      cases step with
      | push => simp [hasPath] at h
      | key k =>
        cases v with
        | text _ => simp [hasPath] at h
        | list _ => simp [hasPath] at h
        | map entries =>
          simp only [hasPath] at h
          cases hfind : Entries.find? k entries with
          | none => simp [hfind] at h
          | some u =>
            rw [hfind] at h
            obtain ⟨keys, rfl, hat⟩ := ih.mp h
            exact ⟨k :: keys, rfl, by simpa [Value.at?, hfind] using hat⟩
    · rintro ⟨keys, hkeys, hat⟩
      cases keys with
      | nil => cases hkeys
      | cons k keys =>
        cases hkeys
        cases v with
        | text _ => simp [Value.at?] at hat
        | list _ => simp [Value.at?] at hat
        | map entries =>
          simp only [Value.at?] at hat
          cases hfind : Entries.find? k entries with
          | none => simp [hfind] at hat
          | some u =>
            rw [hfind] at hat
            simp only [hasPath, hfind]
            exact ih.mpr ⟨keys, rfl, hat⟩

/-- Where an item starts can be seen exactly if the item and the one before it are not two lists,
and of two maps the first leaf of the second is in the first. -/
theorem splits_iff {a b : Value} (hb : b.Full) : Splits a b ↔ ¬(a.IsList ∧ b.IsList) ∧
    ∀ before after, a = .map before → b = .map after → ∀ l ∈ b.leaves.head?,
      ∃ keys, l.1 = keys.map .key ∧ (a.at? keys).isSome = true := by
  obtain ⟨l, rest, hleaves⟩ := List.exists_cons_of_ne_nil hb.leaves_ne_nil
  have hsplits : Splits a b ↔ a.takesPath l.1 = false := by
    rw [Splits, hleaves]
    simp
  have hfirst : (∀ l ∈ b.leaves.head?, ∃ keys, l.1 = keys.map .key ∧ (a.at? keys).isSome = true) ↔
      a.hasPath l.1 = true := by
    rw [hleaves, hasPath_iff]
    simp
  rw [hsplits, hfirst]
  have hmem : l ∈ b.leaves := by
    rw [hleaves]
    exact List.mem_cons_self
  have hnil : ∀ w : Value, w.takesPath [] = false := fun w => by cases w <;> rfl
  cases b with
  | text s =>
    rw [leaves_text, List.mem_singleton] at hmem
    subst hmem
    simp [hnil, IsList]
  | list items =>
    rw [leaves_list] at hmem
    obtain ⟨p, hp⟩ := eq_push_of_mem_listLeaves hmem
    rw [hp]
    cases a <;> simp [takesPath, IsList]
  | map entries =>
    rw [leaves_map] at hmem
    obtain ⟨k, p, hp⟩ := eq_key_of_mem_mapLeaves hmem
    rw [hp]
    cases a <;> simp [takesPath, IsList]

theorem exists_part_of_key_mem {v : Value} {l : Leaf} (hl : l ∈ v.leaves) {k : String}
    (hk : .key k ∈ l.1) : ∃ entries, Part (.map entries) v ∧ ∃ e ∈ entries, e.1 = k := by
  induction v using Value.induct generalizing l with
  | text s =>
    rw [leaves_text, List.mem_singleton] at hl
    simp [hl] at hk
  | list items ih =>
    rw [leaves_list] at hl
    obtain ⟨u, hu, hunder⟩ := mem_listLeaves.mp hl
    obtain ⟨l', hl', rfl⟩ := mem_under.mp hunder
    have hk : .key k ∈ l'.1 := by simpa using hk
    obtain ⟨entries, hpart, he⟩ := ih u hu hl' hk
    exact ⟨entries, .item hu hpart, he⟩
  | map entries ih =>
    rw [leaves_map] at hl
    obtain ⟨e, he, hunder⟩ := mem_mapLeaves.mp hl
    obtain ⟨l', hl', rfl⟩ := mem_under.mp hunder
    rcases List.mem_cons.mp hk with hk | hk
    · cases hk
      exact ⟨entries, .self _, e, he, rfl⟩
    · obtain ⟨entries', hpart, he'⟩ := ih e he hl' hk
      exact ⟨entries', .entry he hpart, he'⟩

/-- Maps whose leaves can all be named. -/
structure Nameable (m : QueryMap) : Prop where
  heads_free : ∀ e ∈ m, e.1 ≠ "" ∧ '[' ∉ e.1.toList
  keys_free : ∀ e ∈ m, ∀ entries, Part (.map entries) e.2 →
    ∀ e' ∈ entries, e'.1 ≠ "" ∧ ']' ∉ e'.1.toList
  depth : ∀ e ∈ m, ∀ l ∈ e.2.leaves, l.1.length < maxNesting

theorem Nameable.named {m : QueryMap} (hm : Nameable m) {l : Leaf}
    (hl : l ∈ (Value.map m).leaves) :
    ∃ head steps, l.1 = .key head :: steps ∧ head ≠ "" ∧ Named head steps := by
  rw [leaves_map] at hl
  obtain ⟨e, he, hunder⟩ := mem_mapLeaves.mp hl
  obtain ⟨l', hl', rfl⟩ := mem_under.mp hunder
  obtain ⟨hne, hfree⟩ := hm.heads_free e he
  refine ⟨e.1, l'.1, rfl, hne, hfree, fun k hk => ?_, hm.depth e he l' hl'⟩
  obtain ⟨entries, hpart, e', he', rfl⟩ := exists_part_of_key_mem hl' hk
  exact hm.keys_free e he entries hpart e' he'

theorem foldlM_pairText_eq_ok_iff {ls : List Leaf} {m m' : QueryMap}
    (hls : ∀ l ∈ ls, ∃ head steps, l.1 = .key head :: steps ∧ head ≠ "" ∧ Named head steps) :
    (ls.map pairText).foldlM addPair m = .ok m' ↔
      placeAll ls (some (.map m)) = some (some (.map m')) := by
  induction ls generalizing m with
  | nil => simp [pure, Except.pure]
  | cons l rest ih =>
    obtain ⟨head, steps, hl, hne, hnamed⟩ := hls l List.mem_cons_self
    rw [List.map_cons, List.foldlM_cons, addPair_pairText hl hnamed hne, placeAll_cons, hl,
      insertAt_eq, place_key_map]
    cases place (.text l.2) steps (m.find? head) with
    | none => simp [bind, Except.bind]
    | some u => exact ih fun l hl => hls l (List.mem_cons_of_mem _ hl)

theorem Nameable.decode_encode_iff {m m' : QueryMap} (hm : Nameable m) :
    decode (encode m) = .ok m' ↔
      placeAll (mapLeaves m) (some (.map [])) = some (some (.map m')) := by
  rw [decode, rawPairs_encode, foldlM_pairText_eq_ok_iff fun l hl => hm.named hl, leaves_map]

theorem Decoded.nameable {m : QueryMap} (hm : Decoded m) : Nameable m :=
  ⟨hm.heads, fun e he _ hpart => (hm.values e he _ hpart).keys_free _ rfl, hm.depth⟩

theorem Canonical.nameable {m : QueryMap} (hm : Canonical m) : Nameable m := by
  refine ⟨hm.heads_free, hm.keys_free, fun e he l hl => ?_⟩
  have := hm.depth (.key e.1 :: l.1, l.2) (by
    rw [leaves_map]
    exact mem_mapLeaves.mpr ⟨e, he, mem_under.mpr ⟨l, hl, rfl⟩⟩)
  exact this

theorem all_splitsItems_iff {v : Value} (hv : v.Full) : v.All SplitsItems ↔
    (∀ items, Part (.list items) v → ∀ a b, Adjacent a b items → ¬(a.IsList ∧ b.IsList)) ∧
    ∀ items, Part (.list items) v → ∀ before after,
      Adjacent (.map before) (.map after) items → ∀ l ∈ (Value.map after).leaves.head?,
      ∃ keys, l.1 = keys.map .key ∧ ((Value.map before).at? keys).isSome = true := by
  have hitem : ∀ {items}, Part (.list items) v → ∀ {b}, b ∈ items → b.Full :=
    fun hpart b hb w hw => hv w (.trans (.item hb hw) hpart)
  constructor
  · intro h
    have hsplits : ∀ items, Part (.list items) v → ∀ a b, Adjacent a b items →
        Splits a b ∧ b.Full := by
      rintro items hpart a b ⟨before, after, rfl⟩
      exact ⟨List.isChain_iff_forall_rel_of_append_cons_cons.mp (h _ hpart _ rfl) rfl,
        hitem hpart (by simp)⟩
    constructor
    · intro items hpart a b hab
      obtain ⟨hs, hb⟩ := hsplits items hpart a b hab
      exact ((splits_iff hb).mp hs).1
    · intro items hpart before after hab
      obtain ⟨hs, hb⟩ := hsplits items hpart _ _ hab
      exact ((splits_iff hb).mp hs).2 before after rfl rfl
  · rintro ⟨hlists, hmaps⟩ w hpart items rfl
    refine List.isChain_iff_forall_rel_of_append_cons_cons.mpr ?_
    rintro a b before after rfl
    refine (splits_iff (hitem hpart (by simp))).mpr ⟨hlists _ hpart a b ⟨before, after, rfl⟩, ?_⟩
    rintro M₁ M₂ rfl rfl
    exact hmaps _ hpart M₁ M₂ ⟨before, after, rfl⟩

/-- Parameters come back from their query string exactly if they are a canonical map. -/
theorem decode_encode_eq_ok_iff (m : QueryMap) :
    decode (encode m) = .ok m ↔ (Value.map m).Ordered ∧ Canonical m := by
  have hbuilt : Entries.Sorted m → (∀ e ∈ m, e.2.Full) → (∀ e ∈ m, e.2.Ordered) → Nameable m →
      (decode (encode m) = .ok m ↔ ∀ e ∈ m, e.2.All SplitsItems) := by
    intro hsorted hfull hordered hnameable
    have hiff : placeAll (mapLeaves m) (some (.map [])) = some (some (.map m)) ↔
        ∀ e ∈ m, e.2.Rebuilt :=
      placeAll_mapLeaves_eq_iff hsorted hfull
    rw [hnameable.decode_encode_iff, hiff]
    exact forall₂_congr fun e he => rebuilt_iff (hfull e he) (hordered e he)
  constructor
  · intro h
    have hm := decoded_of_decode h
    have hfull : ∀ e ∈ m, e.2.Full := fun e he w hw => (hm.values e he w hw).nonempty
    have hordered : ∀ e ∈ m, e.2.Ordered := fun e he w hw => (hm.values e he w hw).keys_increase
    have hsplits := (hbuilt hm.sorted hfull hordered hm.nameable).mp h
    refine ⟨ordered_map.mpr ⟨hm.sorted, hordered⟩, hm.heads, hm.nameable.keys_free, hfull, ?_, ?_, ?_⟩
    · intro l hl
      obtain ⟨head, steps, heq, -, hnamed⟩ := hm.nameable.named hl
      rw [heq]
      exact hnamed.length_lt
    · exact fun e he => ((all_splitsItems_iff (hfull e he)).mp (hsplits e he)).1
    · exact fun e he => ((all_splitsItems_iff (hfull e he)).mp (hsplits e he)).2
  · rintro ⟨hordered, hm⟩
    obtain ⟨hsorted, hvalues⟩ := ordered_map.mp hordered
    refine (hbuilt hsorted hm.nonempty hvalues hm.nameable).mpr fun e he => ?_
    exact (all_splitsItems_iff (hm.nonempty e he)).mpr ⟨hm.lists_apart e he, hm.maps_apart e he⟩

end Signpost.Query
