import Signpost.Proofs.Query.Conflict
import Signpost.Proofs.Query.RoundTrip

/-! # When written parameters can be read

Written parameters are read leaf by leaf. That comes to a map unless the name of a leaf goes on
from a shorter name as something else than what the names before it made of that, and it does so
only in items of one list that do not agree.
-/
namespace Signpost.Query
open Value Value.leaves

/-- The paths to the texts as they are written, the last one first. -/
def written (m : QueryMap) : List (List Step) := (paths (Value.map m).leaves).reverse

def mismatch (l : Leaf) : QueryError := .typeMismatch (String.ofList (pathText String.toList l.1))

/-- The pair of a leaf as it is read. -/
def leafPair (l : Leaf) : ReadPair := ⟨String.ofList (pathText String.toList l.1), l.1, l.2⟩

theorem readPair_pairText {l : Leaf} {head : String} {steps : List Step}
    (hl : l.1 = .key head :: steps) (hnamed : Named head steps) :
    readPair (pairText l) = .ok (leafPair l) := by
  have hpath : keyPath (String.ofList (pathText String.toList l.1)) = .ok l.1 := by
    rw [hl]
    exact hnamed.keyPath_eq
  simp only [readPair, splitPair_pairText, decodeComponent_pathText, decodeComponent_written, bind,
    Except.bind, hpath]
  rfl

theorem placedPaths_map_leafPair {ls : List Leaf} (h : ∀ l ∈ ls, (leafPair l).Headed) :
    placedPaths (ls.map leafPair) = paths ls := by
  have hall : (ls.map leafPair).filter (fun p => p.Headed) = ls.map leafPair :=
    List.filter_eq_self.mpr (List.forall_mem_map.mpr fun l hl => decide_eq_true (h l hl))
  rw [placedPaths, hall, List.map_map]
  rfl

theorem Nameable.headed {m : QueryMap} (hm : Nameable m) :
    ∀ l ∈ (Value.map m).leaves, (leafPair l).Headed := by
  intro l hl
  obtain ⟨head, steps, hpath, hne, -⟩ := hm.named hl
  simpa [ReadPair.Headed, leafPair, hpath] using hne

theorem Nameable.readPairs_encode {m : QueryMap} (hm : Nameable m) :
    readPairs (encode m) = .ok ((Value.map m).leaves.map leafPair) := by
  rw [readPairs, rawPairs_encode, mapM_eq_ok_iff, List.forall₂_map_left_iff,
    List.forall₂_map_right_iff, List.forall₂_same]
  intro l hl
  obtain ⟨head, steps, hpath, -, hnamed⟩ := hm.named hl
  exact readPair_pairText hpath hnamed

theorem Nameable.decode_encode_cases {m : QueryMap} (hm : Nameable m) :
    (∃ m', decode (encode m) = .ok m' ∧ Consistent (written m)) ∨
    ∃ front l back, (Value.map m).leaves = front ++ l :: back ∧
      decode (encode m) = .error (mismatch l) ∧ Consistent (paths front).reverse ∧
      ¬ GoesOn (paths front).reverse l.1 := by
  have hheaded := hm.headed
  have hcases := decode_cases_of_readPairs hm.readPairs_encode
  rw [placedPaths_map_leafPair hheaded] at hcases
  rcases hcases with hread | ⟨front, p, back, hsplit, -, hread, hfront, hnot⟩
  · exact Or.inl hread
  · obtain ⟨front, rest, hleaves, rfl, hrest⟩ := List.map_eq_append_iff.mp hsplit
    obtain ⟨l, back, rfl, rfl, -⟩ := List.map_eq_cons_iff.mp hrest
    rw [placedPaths_map_leafPair fun l hl => hheaded l (by simp [hleaves, hl])] at hfront hnot
    exact Or.inr ⟨front, l, back, hleaves, hread, hfront, hnot⟩

theorem not_consistent_of_leaves {m : QueryMap} {front back : List Leaf} {l : Leaf}
    (hleaves : (Value.map m).leaves = front ++ l :: back)
    (hnot : ¬ GoesOn (paths front).reverse l.1) : ¬ Consistent (written m) := fun h =>
  hnot (consistent_iff.mp h (paths back).reverse l.1 _ (by simp [written, hleaves, paths]))

/-- Parameters that are named, nested and filled as names allow can be read again exactly if every
written name goes on from what the names before it made, and always if the items of all their lists
agree. If not, the first name that does not go on is reported. -/
theorem exists_decode_encode_iff {m : QueryMap} (hordered : (Value.map m).Ordered)
    (hnameable : Nameable m) (hfull : ∀ e ∈ m, e.2.Full) :
    ((∃ m', decode (encode m) = .ok m') ↔ Consistent (written m)) ∧
    ((Value.map m).All AgreesItems → ∃ m', decode (encode m) = .ok m') ∧
    ∀ e, decode (encode m) = .error e → ∃ front l back,
      (Value.map m).leaves = front ++ l :: back ∧ e = mismatch l ∧
      Consistent (paths front).reverse ∧ ¬ GoesOn (paths front).reverse l.1 := by
  have hiff : (∃ m', decode (encode m) = .ok m') ↔ Consistent (written m) := by
    rcases hnameable.decode_encode_cases with
      ⟨m', hread, hm⟩ | ⟨front, l, back, hls, hread, -, hnot⟩
    · exact iff_of_true ⟨m', hread⟩ hm
    · refine iff_of_false ?_ (not_consistent_of_leaves hls hnot)
      rintro ⟨m', hok⟩
      rw [hok] at hread
      cases hread
  refine ⟨hiff, fun hagree => hiff.mpr ?_, fun e herror => ?_⟩
  · have hitems := (all_map.mp hagree).2
    obtain ⟨hsorted, hvalues⟩ := ordered_map.mp hordered
    have hsteady : Steady (paths (mapLeaves m)) := steady_mapLeaves hsorted fun e he =>
      steady_leaves (hfull e he) (hvalues e he) (hitems e he)
    rw [written, leaves_map]
    exact hsteady.consistent
  · rcases hnameable.decode_encode_cases with ⟨m', hread, -⟩ | ⟨front, l, back, hls, hread, hfirst⟩
    · rw [hread] at herror
      cases herror
    · rw [hread] at herror
      exact ⟨front, l, back, hls, (Except.error.inj herror).symm, hfirst⟩

theorem nameable_of_all {m : QueryMap} (hheads : ∀ e ∈ m, e.1 ≠ "" ∧ '[' ∉ e.1.toList)
    (hkeys : ∀ e ∈ m, e.2.All fun w => ∀ entries, w = .map entries →
      ∀ e' ∈ entries, e'.1 ≠ "" ∧ ']' ∉ e'.1.toList)
    (hdepth : ∀ e ∈ m, ∀ l ∈ e.2.leaves, l.1.length < maxNesting) : Nameable m :=
  ⟨hheads, fun e he entries hpart => hkeys e he _ hpart entries rfl, hdepth⟩

/-- A text, a map and a list between maps that use one name for a text and for a map. -/
def separatedItems : QueryMap :=
  [("l", .list [.map [("a", .text "1")], .text "x", .map [("a", .map [("b", .text "2")])],
    .list [.text "y"], .map [("a", .text "3")]])]

theorem exists_decode_encode_separatedItems :
    (∃ m', decode (encode separatedItems) = .ok m') ∧ Consistent (written separatedItems) := by
  have hordered : (Value.map separatedItems).Ordered := by
    simp [separatedItems, ordered_map, ordered_list, ordered_text, Entries.Sorted]
  have hfull : ∀ e ∈ separatedItems, e.2.Full := by
    simp [separatedItems, Full, all_map, all_list, all_text]
  have hnameable : Nameable separatedItems := nameable_of_all (by simp [separatedItems])
    (by simp [separatedItems, all_map, all_list, all_text]) (by decide)
  have hagree : (Value.map separatedItems).All AgreesItems := by
    have hlist : AgreesItems (.list [.map [("a", .text "1")], .text "x",
        .map [("a", .map [("b", .text "2")])], .list [.text "y"], .map [("a", .text "3")]]) :=
      agreesItems_of_isChain (by simp [Value.kind])
    have hsingle : AgreesItems (.list [.text "y"]) := agreesItems_of_isChain (by simp)
    simp [separatedItems, all_map, all_list, all_text, agreesItems_text, agreesItems_map, hlist,
      hsingle]
  have h := exists_decode_encode_iff hordered hnameable hfull
  exact ⟨h.2.1 hagree, h.1.mp (h.2.1 hagree)⟩

def conflictingItems : QueryMap :=
  [("l", .list [.map [("a", .text "1")], .map [("a", .map [("b", .text "2")])]])]

theorem decode_encode_conflictingItems :
    (Value.map conflictingItems).Ordered ∧ Nameable conflictingItems ∧
    (∀ e ∈ conflictingItems, e.2.Full) ∧
    decode (encode conflictingItems) = .error (.typeMismatch "l[][a][b]") := by
  refine ⟨?_, nameable_of_all (by simp [conflictingItems]) ?_ (by decide), ?_,
    by decide +kernel⟩
  · simp [conflictingItems, ordered_map, ordered_list, ordered_text, Entries.Sorted]
  · simp [conflictingItems, all_map, all_list, all_text]
  · simp [conflictingItems, Full, all_map, all_list, all_text]

end Signpost.Query
