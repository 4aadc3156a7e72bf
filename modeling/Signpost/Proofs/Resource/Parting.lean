import Signpost.Proofs.Resource.Extra

/-! # Paths behind a slash

What stands behind the path of a collection is a slash, a segment and what ends the segment. There is
one way to read it so, and the reading says which forms it fits.
-/
namespace Signpost.Resource
open Template Signpost.Path

/-- A slash, a segment and what ends the segment. -/
structure Parts (rest value tail : List Char) : Prop where
  eq : rest = '/' :: (value ++ tail)
  segment : IsSegment value
  ends : ∀ c, tail.head? = some c → endsSegment c = true

variable {rest value tail : List Char} {found : List (Nat × List Char)}

theorem Parts.unique {value' tail' : List Char} (h : Parts rest value tail)
    (h' : Parts rest value' tail') : value' = value ∧ tail' = tail := by
  have heq := h'.eq.symm.trans h.eq
  exact segment_eq_of_append_eq (List.cons.inj heq).2 h'.segment.2 h.segment.2 h'.ends h.ends

theorem parts_extension (hvalue : IsSegment value) {format : Option (List Char)}
    (hrest : rest = '/' :: (value ++ extension format)) : Parts rest value (extension format) :=
  ⟨hrest, hvalue, head?_extension_endsSegment format⟩

theorem parts_segment (hvalue : IsSegment value) (hrest : rest = '/' :: value) :
    Parts rest value [] := by
  have hnone : rest = '/' :: (value ++ extension none) := by rw [hrest, extension, List.append_nil]
  exact parts_extension hvalue hnone

theorem parts_action (hvalue : IsSegment value) {c : Char} (hc : endsSegment c = true)
    {action : List Char} (hrest : rest = '/' :: (value ++ c :: action)) :
    Parts rest value (c :: action) := by
  refine ⟨hrest, hvalue, ?_⟩
  rintro _ ⟨⟩
  exact hc

theorem Parts.ne_extension (h : Parts rest value tail) (format : Option (List Char)) :
    rest ≠ extension format ∧ rest ≠ '/' :: extension format := by
  obtain ⟨c, front, hvalue⟩ := List.exists_cons_of_ne_nil h.segment.1
  have hc : endsSegment c = false := h.segment.2 c (by rw [hvalue]; exact List.mem_cons_self)
  constructor
  · intro hrest
    cases format with
    | none =>
      rw [h.eq] at hrest
      cases hrest
    | some f =>
      rw [h.eq] at hrest
      cases hrest
  · intro hrest
    rw [h.eq, hvalue] at hrest
    have htail := (List.cons.inj hrest).2
    have hends := head?_extension_endsSegment format c (by rw [← htail]; rfl)
    rw [hc] at hends
    cases hends

theorem Parts.not_fits_collection (h : Parts rest value tail) :
    ¬ Path.Fits 0 collectionForm.pieces found rest := by
  rw [fits_collection_iff]
  rintro ⟨format, -, -, hrest | hrest⟩
  · exact (h.ne_extension format).1 hrest
  · exact (h.ne_extension format).2 hrest

theorem isSegment_index : IsSegment "index".toList := by decide

theorem isSegment_new : IsSegment "new".toList := by decide

theorem Parts.of_fits_index (h : Parts rest value tail)
    (hfits : Path.Fits 0 indexForm.pieces found rest) :
    value = "index".toList ∧ ∃ format, tail = extension format := by
  obtain ⟨format, -, -, hrest⟩ := fits_index_iff.mp hfits
  obtain ⟨rfl, rfl⟩ := (parts_extension isSegment_index hrest).unique h
  exact ⟨rfl, format, rfl⟩

theorem Parts.of_fits_new (h : Parts rest value tail)
    (hfits : Path.Fits 0 newForm.pieces found rest) : value = "new".toList ∧ tail = [] := by
  obtain ⟨-, hrest⟩ := fits_new_iff.mp hfits
  obtain ⟨rfl, rfl⟩ := (parts_segment isSegment_new hrest).unique h
  exact ⟨rfl, rfl⟩

theorem Parts.of_fits_member (h : Parts rest value tail)
    (hfits : Path.Fits 0 memberForm.pieces found rest) :
    ∃ format, tail = extension format ∧ found = (1, value) :: formatGroups 1 format := by
  obtain ⟨id, format, hid, -, hfound, hrest⟩ := fits_member_iff.mp hfits
  obtain ⟨rfl, rfl⟩ := (parts_extension hid hrest).unique h
  exact ⟨format, rfl, hfound⟩

theorem Parts.of_fits_memberAction {slashFirst : Bool} {action : List Char}
    (h : Parts rest value tail)
    (hfits : Path.Fits 0 (memberActionForm slashFirst action).pieces found rest) :
    found = [(1, value)] ∧ (tail = '/' :: action ∨ tail = ';' :: action) := by
  obtain ⟨id, hid, hfound, hrest | hrest⟩ := fits_memberAction_iff.mp hfits
  · obtain ⟨rfl, rfl⟩ := (parts_action hid (by decide) hrest).unique h
    exact ⟨hfound, Or.inl rfl⟩
  · obtain ⟨rfl, rfl⟩ := (parts_action hid (by decide) hrest).unique h
    exact ⟨hfound, Or.inr rfl⟩

theorem Parts.of_fits_collectionAction {action : List Char} (h : Parts rest value tail)
    (haction : IsSegment action)
    (hfits : Path.Fits 0 (collectionActionForm action).pieces found rest) :
    value = action ∧ tail = [] := by
  obtain ⟨-, hrest | hrest⟩ := fits_collectionAction_iff.mp hfits
  · obtain ⟨rfl, rfl⟩ := (parts_segment haction hrest).unique h
    exact ⟨rfl, rfl⟩
  · rw [h.eq] at hrest
    cases hrest

theorem found_of_fits_collection {format : Option (List Char)}
    (hrest : rest = extension format ∨ rest = '/' :: extension format)
    (hfits : Path.Fits 0 collectionForm.pieces found rest) : found = formatGroups 0 format := by
  obtain ⟨format', -, rfl, hrest'⟩ := fits_collection_iff.mp hfits
  have hslash : ∀ f f' : Option (List Char), extension f ≠ '/' :: extension f' := by
    intro f f' heq
    cases f <;> cases heq
  rcases hrest with rfl | rfl
  · rcases hrest' with heq | heq
    · rw [extension_injective heq]
    · exact absurd heq (hslash _ _)
  · rcases hrest' with heq | heq
    · exact absurd heq.symm (hslash _ _)
    · rw [extension_injective (List.cons.inj heq).2]

end Signpost.Resource
