import Signpost.Proofs.Query.Conflict
import Signpost.Proofs.Query.Shape

/-! # Writing again what was read

Parameters that were read have a name for every text and no two lists side by side. What may be
lost when they are written again is where a map in a list starts: it was seen from the first key
that arrived, and is written with the least key first.
-/
namespace Signpost.Query
open Value Value.leaves

/-- The map that is written behind the other is not taken for more of it: its first leaf is reached
through keys that lead to something in the other. -/
def StartsAgain (before after : List (String × Value)) : Prop :=
  ∀ l ∈ (Value.map after).leaves.head?,
    ∃ keys, l.1 = keys.map .key ∧ ((Value.map before).at? keys).isSome = true

/-- Of two maps side by side in a list the second starts again. -/
def MapsApart (m : QueryMap) : Prop :=
  ∀ e ∈ m, ∀ items, Part (.list items) e.2 → ∀ before after,
    Adjacent (.map before) (.map after) items → StartsAgain before after

theorem Decoded.all_splitsItems_iff {m : QueryMap} (hm : Decoded m) :
    (∀ e ∈ m, e.2.All SplitsItems) ↔ MapsApart m := by
  refine forall₂_congr fun e he => ?_
  rw [Query.all_splitsItems_iff (hm.full e he)]
  exact and_iff_right fun items hpart a b hab => hm.lists_apart he hpart hab

theorem Shaped.canonical_iff {m : QueryMap} (hm : Shaped m) : Canonical m ↔ MapsApart m := by
  constructor
  · intro hcanonical
    exact hcanonical.maps_apart
  · intro hmaps
    exact ⟨hm.heads_free, hm.keys_free, hm.nonempty, hm.depth, hm.lists_apart, hmaps⟩

/-- What was read is read again after it is written exactly if its maps are apart. -/
theorem decode_encode_of_decode {q : String} {m : QueryMap} (h : decode q = .ok m) :
    decode (encode m) = .ok m ↔ MapsApart m := by
  have hm := decoded_of_decode h
  have hplaced : placeAll (mapLeaves m) (some (.map [])) = some (some (.map m)) ↔
      ∀ e ∈ m, e.2.Rebuilt := placeAll_mapLeaves_eq_iff hm.sorted hm.full
  rw [hm.nameable.decode_encode_iff, hplaced, ← hm.all_splitsItems_iff]
  exact forall₂_congr fun e he => rebuilt_iff (hm.full e he) (hm.ordered e he)

theorem decode_encode_of_decode_in_order :
    decode "l[][a]=1&l[][b]=2&l[][a]=3" =
      .ok [("l", .list [.map [("a", .text "1"), ("b", .text "2")], .map [("a", .text "3")]])] ∧
    MapsApart
      [("l", .list [.map [("a", .text "1"), ("b", .text "2")], .map [("a", .text "3")]])] := by
  have hpairs : readPairs "l[][a]=1&l[][b]=2&l[][a]=3" =
      .ok [⟨"l[][a]", [.key "l", .push, .key "a"], "1"⟩,
        ⟨"l[][b]", [.key "l", .push, .key "b"], "2"⟩,
        ⟨"l[][a]", [.key "l", .push, .key "a"], "3"⟩] := by decide +kernel
  have hread : decode "l[][a]=1&l[][b]=2&l[][a]=3" =
      .ok [("l", .list [.map [("a", .text "1"), ("b", .text "2")], .map [("a", .text "3")]])] := by
    rw [decode_eq_of_readPairs hpairs]
    decide
  have hwritten : encode [("l", .list [.map [("a", .text "1"), ("b", .text "2")],
      .map [("a", .text "3")]])] = "l[][a]=1&l[][b]=2&l[][a]=3" := by decide +kernel
  exact ⟨hread, (decode_encode_of_decode hread).mp (hwritten ▸ hread)⟩

/-- The second map starts with the key `b`, and is written with `a` first. -/
theorem decode_encode_ne_of_out_of_order :
    decode "a[][b]=1&a[][b]=2&a[][a]=3" =
      .ok [("a", .list [.map [("b", .text "1")], .map [("a", .text "3"), ("b", .text "2")]])] ∧
    decode (encode [("a", .list [.map [("b", .text "1")],
      .map [("a", .text "3"), ("b", .text "2")]])]) =
      .ok [("a", .list [.map [("a", .text "3"), ("b", .text "1")], .map [("b", .text "2")]])] := by
  have hpairs : readPairs "a[][b]=1&a[][b]=2&a[][a]=3" =
      .ok [⟨"a[][b]", [.key "a", .push, .key "b"], "1"⟩,
        ⟨"a[][b]", [.key "a", .push, .key "b"], "2"⟩,
        ⟨"a[][a]", [.key "a", .push, .key "a"], "3"⟩] := by decide +kernel
  have hwritten : readPairs (encode [("a", .list [.map [("b", .text "1")],
      .map [("a", .text "3"), ("b", .text "2")]])]) =
      .ok [⟨"a[][b]", [.key "a", .push, .key "b"], "1"⟩,
        ⟨"a[][a]", [.key "a", .push, .key "a"], "3"⟩,
        ⟨"a[][b]", [.key "a", .push, .key "b"], "2"⟩] := by decide +kernel
  rw [decode_eq_of_readPairs hpairs, decode_eq_of_readPairs hwritten]
  decide

end Signpost.Query
