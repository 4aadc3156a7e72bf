import Signpost.Proofs.Resource.Route

/-! # The usual actions

The usual actions of a plural resource have paths of five forms: the collection itself, its index and
new by name, a member, and the editing of a member.
-/
namespace Signpost.Resource
open Entries Placeholder Scope Template Signpost.Path

def collectionForm : Form := ⟨[.maybeSlash, .format], none, some 2⟩

def indexForm : Form := ⟨"/index".toList.map .char ++ [.format], none, some 2⟩

def newForm : Form := ⟨"/new".toList.map .char ++ [], none, none⟩

def memberForm : Form := ⟨[.char '/', .hole, .format], some 1, some 3⟩

def memberActionForm (slashFirst : Bool) (action : List Char) : Form :=
  ⟨.char '/' :: .hole :: .separator slashFirst :: (action.map .char ++ []), some 1, none⟩

def pluralForms : List Form :=
  [collectionForm, indexForm, newForm, collectionForm, memberForm,
    memberActionForm false "edit".toList, memberForm, memberForm]

instance (f : Form) (path : String) : Decidable (f.Written path) :=
  decidable_of_iff
    (substitute path.toList = (Path.source f.pieces, f.marks) ∧
      Level.isEmptyPath .path path = false)
    ⟨fun h => ⟨h.1, h.2⟩, fun h => ⟨h.1, h.2⟩⟩

theorem written_plural :
    List.Forall₂ (fun a f => Form.Written f (UsualAction.path a)) pluralActions pluralForms := by
  decide +kernel

section Fits
variable {found : List (Nat × List Char)} {rest : List Char}

theorem fits_collection_iff :
    Path.Fits 0 collectionForm.pieces found rest ↔
      ∃ format, (∀ f ∈ format, IsSegment f) ∧ found = formatGroups 0 format ∧
        (rest = extension format ∨ rest = '/' :: extension format) := by
  simp only [collectionForm, fits_maybeSlash_iff, fits_format_iff]
  constructor
  · rintro ⟨_, ⟨format, hformat, rfl, rfl⟩, hrest⟩
    exact ⟨format, hformat, rfl, hrest⟩
  · rintro ⟨format, hformat, rfl, hrest⟩
    exact ⟨_, ⟨format, hformat, rfl, rfl⟩, hrest⟩

theorem fits_index_iff :
    Path.Fits 0 indexForm.pieces found rest ↔
      ∃ format, (∀ f ∈ format, IsSegment f) ∧ found = formatGroups 0 format ∧
        rest = "/index".toList ++ extension format := by
  have hpieces : indexForm.pieces = "/index".toList.map .char ++ [.format] := rfl
  rw [hpieces]
  simp only [fits_chars_iff, fits_format_iff]
  constructor
  · rintro ⟨_, ⟨format, hformat, rfl, rfl⟩, hrest⟩
    exact ⟨format, hformat, rfl, hrest⟩
  · rintro ⟨format, hformat, rfl, hrest⟩
    exact ⟨_, ⟨format, hformat, rfl, rfl⟩, hrest⟩

theorem fits_new_iff :
    Path.Fits 0 newForm.pieces found rest ↔ found = [] ∧ rest = "/new".toList := by
  have hpieces : newForm.pieces = "/new".toList.map .char ++ [] := rfl
  rw [hpieces]
  simp only [fits_chars_iff, fits_nil_iff]
  constructor
  · rintro ⟨_, ⟨rfl, rfl⟩, hrest⟩
    exact ⟨rfl, hrest⟩
  · rintro ⟨rfl, hrest⟩
    exact ⟨[], ⟨rfl, rfl⟩, hrest⟩

theorem fits_member_iff :
    Path.Fits 0 memberForm.pieces found rest ↔
      ∃ id format, IsSegment id ∧ (∀ f ∈ format, IsSegment f) ∧
        found = (1, id) :: formatGroups 1 format ∧ rest = '/' :: (id ++ extension format) := by
  simp only [memberForm, fits_char_iff, fits_hole_iff, fits_format_iff]
  constructor
  · rintro ⟨_, ⟨id, _, _, hid, ⟨format, hformat, rfl, rfl⟩, rfl, rfl⟩, rfl⟩
    exact ⟨id, format, hid, hformat, rfl, rfl⟩
  · rintro ⟨id, format, hid, hformat, rfl, rfl⟩
    exact ⟨_, ⟨id, _, _, hid, ⟨format, hformat, rfl, rfl⟩, rfl, rfl⟩, rfl⟩

theorem fits_memberAction_iff {slashFirst : Bool} {action : List Char} :
    Path.Fits 0 (memberActionForm slashFirst action).pieces found rest ↔
      ∃ id, IsSegment id ∧ found = [(1, id)] ∧
        (rest = '/' :: (id ++ '/' :: action) ∨ rest = '/' :: (id ++ ';' :: action)) := by
  simp only [memberActionForm, fits_char_iff, fits_hole_iff, fits_separator_iff, fits_chars_iff,
    fits_nil_iff]
  constructor
  · rintro ⟨_, ⟨id, _, _, hid, ⟨_, ⟨_, ⟨rfl, rfl⟩, rfl⟩, h⟩, rfl, rfl⟩, rfl⟩
    refine ⟨id, hid, rfl, ?_⟩
    rcases h with rfl | rfl
    · exact Or.inl (by simp)
    · exact Or.inr (by simp)
  · rintro ⟨id, hid, rfl, h⟩
    rcases h with rfl | rfl
    · exact ⟨_, ⟨id, [], _, hid, ⟨action, ⟨[], ⟨rfl, rfl⟩, by simp⟩, Or.inl rfl⟩, rfl, rfl⟩, rfl⟩
    · exact ⟨_, ⟨id, [], _, hid, ⟨action, ⟨[], ⟨rfl, rfl⟩, by simp⟩, Or.inr rfl⟩, rfl, rfl⟩, rfl⟩

end Fits

section Answer

/-- The parameters of an action with a controller, an identifier and a format, each if there is
one. -/
def answer (action : String) (controller : Option String) (id format : Option (List Char)) : Params :=
  ("action", action) :: (controller.toList.map ("controller", ·) ++
    (format.toList.map (fun value => ("format", String.ofList value)) ++
      id.toList.map fun value => ("id", String.ofList value)))

variable (action : String) (controller : Option String) (id : List Char)
  (format : Option (List Char))

theorem answer_collection :
    collectionForm.answer action controller (formatGroups 0 format) =
      answer action controller none format := by
  cases format <;> rfl

theorem answer_index :
    indexForm.answer action controller (formatGroups 0 format) =
      answer action controller none format := by
  cases format <;> rfl

theorem answer_new : newForm.answer action controller [] = answer action controller none none := rfl

theorem answer_member :
    memberForm.answer action controller ((1, id) :: formatGroups 1 format) =
      answer action controller (some id) format := by
  cases format <;> rfl

theorem answer_memberAction (slashFirst : Bool) (member : List Char) :
    (memberActionForm slashFirst member).answer action controller [(1, id)] =
      answer action controller (some id) none := rfl

end Answer

def usualRow (a : UsualAction) (f : Form) : Row :=
  ⟨a.path, f, a.action, .symbol a.method, wordRegex a.method.toList⟩

def usualRows : List Row := List.zipWith usualRow pluralActions pluralForms

theorem method_plural : ∀ a ∈ pluralActions,
    substitute ((Pattern.symbol a.method).source .method).toList =
        (wordSource a.method.toList, []) ∧
      (wordNode a.method.toList).programSize ≤ Regex.Node.maxProgramSize ∧
      (∀ c ∈ a.method.toList, asciiLower c = true) ∧ PlainName a.action := by
  decide +kernel

theorem exists_usualRow {row : Row} (h : row ∈ usualRows) :
    ∃ a ∈ pluralActions, ∃ f, f.Written a.path ∧ row = usualRow a f := by
  rw [usualRows, ← List.map_uncurry_zip_eq_zipWith] at h
  obtain ⟨⟨a, f⟩, hpair, rfl⟩ := List.mem_map.mp h
  exact ⟨a, (List.of_mem_zip hpair).1, f, (List.forall₂_iff_zip.mp written_plural).2 hpair, rfl⟩

theorem ready_usual {row : Row} (h : row ∈ usualRows) : row.Ready := by
  obtain ⟨a, ha, f, hwritten, rfl⟩ := exists_usualRow h
  obtain ⟨htested, -, -, haction⟩ := method_plural a ha
  exact
    { written := hwritten
      action := haction
      tested := by
        rw [usualRow, htested, wordRegex, String.toList_ofList]
      compiled := compile_word a.method.toList }

theorem isSome_captures?_method {a : UsualAction} (ha : a ∈ pluralActions) {method : String}
    (hmethod : ∀ c ∈ method.toList, asciiLower c = true) :
    ((wordRegex a.method.toList).captures? method).isSome ↔ method = a.method := by
  rw [isSome_captures?_word, sameWord_iff (method_plural a ha).2.2.1 hmethod, String.toList_inj]

end Signpost.Resource
