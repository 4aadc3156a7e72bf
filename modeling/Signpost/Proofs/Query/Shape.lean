import Signpost.Proofs.Query.RoundTrip

/-! # The shape of what was read

Every map that is read from a query string has the same shape, whatever the pairs were and in
whichever order they came: its keys can be written in a name, nothing below it is empty, no list
in it stands beside a list, and no text lies deeper than a name may reach.
-/
namespace Signpost.Query
open Value Value.leaves

variable {m : QueryMap}

theorem Decoded.full (hm : Decoded m) : ∀ e ∈ m, e.2.Full :=
  fun e he w hw => (hm.values e he w hw).nonempty

theorem Decoded.ordered (hm : Decoded m) : ∀ e ∈ m, e.2.Ordered :=
  fun e he w hw => (hm.values e he w hw).keys_increase

theorem Decoded.lists_apart (hm : Decoded m) {e : String × Value} (he : e ∈ m)
    {items : List Value} (hpart : Part (.list items) e.2) {a b : Value} (hab : Adjacent a b items) :
    ¬(a.IsList ∧ b.IsList) := by
  obtain ⟨before, after, rfl⟩ := hab
  have hchain := (hm.values e he _ hpart).lists_apart _ rfl
  exact List.isChain_iff_forall_rel_of_append_cons_cons.mp hchain rfl

theorem Decoded.length_le (hm : Decoded m) {l : Leaf} (hl : l ∈ (Value.map m).leaves) :
    l.1.length ≤ maxNesting := by
  obtain ⟨head, steps, hpath, -, hnamed⟩ := hm.nameable.named hl
  rw [hpath]
  exact hnamed.length_lt

/-- What can be said of parameters without saying which query string they were read from. -/
structure Shaped (m : QueryMap) : Prop where
  ordered : (Value.map m).Ordered
  heads_free : ∀ e ∈ m, e.1 ≠ "" ∧ '[' ∉ e.1.toList
  keys_free : ∀ e ∈ m, ∀ entries, Part (.map entries) e.2 →
    ∀ e' ∈ entries, e'.1 ≠ "" ∧ ']' ∉ e'.1.toList
  nonempty : ∀ e ∈ m, ∀ w, Part w e.2 → w ≠ .list [] ∧ w ≠ .map []
  lists_apart : ∀ e ∈ m, ∀ items, Part (.list items) e.2 →
    ∀ a b, Adjacent a b items → ¬(a.IsList ∧ b.IsList)
  /-- The steps to a text are its top-level key, then one for each nested key and each list. -/
  depth : ∀ l ∈ (Value.map m).leaves, l.1.length ≤ maxNesting

theorem Decoded.shaped (hm : Decoded m) : Shaped m where
  ordered := ordered_map.mpr ⟨hm.sorted, hm.ordered⟩
  heads_free := hm.heads
  keys_free := hm.nameable.keys_free
  nonempty := hm.full
  lists_apart := fun _ he _ hpart _ _ hab => hm.lists_apart he hpart hab
  depth := fun _ hl => hm.length_le hl

theorem shaped_of_decode {q : String} {m : QueryMap} (h : decode q = .ok m) : Shaped m :=
  (decoded_of_decode h).shaped

/-- A list that takes a list, a map, a text and a list again, and a key that is not a name. -/
theorem shaped_of_decode_mixed :
    decode "l[][]=1&l[][]=2&l[][a]b=3&l[]=4&l[][]=5&=6&k[]][=7" =
      .ok [("k", .list [.text "7"]),
        ("l", .list [.list [.text "1", .text "2"], .map [("a", .text "3")], .text "4",
          .list [.text "5"]])] ∧
    Shaped [("k", .list [.text "7"]),
      ("l", .list [.list [.text "1", .text "2"], .map [("a", .text "3")], .text "4",
        .list [.text "5"]])] := by
  have hread : decode "l[][]=1&l[][]=2&l[][a]b=3&l[]=4&l[][]=5&=6&k[]][=7" =
      .ok [("k", .list [.text "7"]),
        ("l", .list [.list [.text "1", .text "2"], .map [("a", .text "3")], .text "4",
          .list [.text "5"]])] := by decide +kernel
  exact ⟨hread, shaped_of_decode hread⟩

end Signpost.Query
