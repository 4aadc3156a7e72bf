import Signpost.Proofs.Resource.Usual

/-! # Extra actions

An extra action stands behind a member or behind the collection, after a slash or a semicolon, and
answers to any of its methods. It is told from the others by its name.
-/
namespace Signpost.Resource
open Entries Placeholder Scope Template Signpost.Path

/-- A name of small letters, digits and underscores. -/
def WordName (text : String) : Prop := text ≠ "" ∧ ∀ c ∈ text.toList, isNameChar c = true

instance (text : String) : Decidable (WordName text) := inferInstanceAs (Decidable (_ ∧ _))

/-- The name of an extra action is a word, and so are its methods. -/
structure ReadyExtra (a : ExtraAction) : Prop where
  action : WordName a.action
  methods : ∀ m ∈ a.methods, ∀ c ∈ m.toList, isPlain c = true

def collectionActionForm (action : List Char) : Form :=
  ⟨.separator true :: (action.map .char ++ []), none, none⟩

def words (a : ExtraAction) : List (List Char) :=
  a.methods.map fun m => (Unicode.lowercase m).toList

/-- The row of an extra action with an expression for what stands before its name. -/
def extraRow (opening : String) (form : List Char → Form) (a : ExtraAction) : Row :=
  ⟨opening ++ a.action ++ "$", form a.action.toList, a.action, methodsPattern a.methods,
    wordsRegex (words a)⟩

def memberRow (a : ExtraAction) : Row := extraRow "^/:id[/;]" (memberActionForm true) a

def collectionRow (a : ExtraAction) : Row := extraRow "^[/;]" collectionActionForm a

theorem WordName.plainName {text : String} (h : WordName text) : PlainName text :=
  ⟨h.1, fun c hc => isPlain_of_isNameChar (h.2 c hc)⟩

theorem WordName.escape_eq {text : String} (h : WordName text) :
    Pattern.escape text.toList = text.toList :=
  escape_of_ordinary fun c hc => Or.inl (h.2 c hc)

theorem isEmptyPath_of_lt_length {path : String} (h : 2 < path.toList.length) :
    Level.isEmptyPath .path path = false := by
  have hempty : path ≠ "" := by
    rintro rfl
    exact absurd h (by decide)
  have hanchors : path ≠ "^$" := by
    rintro rfl
    exact absurd h (by decide)
  simp [Level.isEmptyPath, hempty, hanchors]

theorem WordName.written_chars {text : String} (h : WordName text) :
    Path.written (text.toList.map .char) = text.toList := by
  rw [Path.written_chars, h.escape_eq]

theorem written_collectionAction {action : String} (h : WordName action) :
    (collectionActionForm action.toList).Written ("^[/;]" ++ action ++ "$") := by
  have hcolon : ':' ∉ ("^[/;]" ++ action ++ "$").toList := by
    have hmem : ':' ∉ action.toList := h.plainName.notMem (by decide)
    simpa using hmem
  refine ⟨?_, isEmptyPath_of_lt_length (by simp)⟩
  have hsource : Path.source (collectionActionForm action.toList).pieces =
      '^' :: ("[/;]".toList ++ (action.toList ++ ['$'])) := by
    rw [Path.source, collectionActionForm, List.append_nil, Path.written_cons, h.written_chars]
    simp [Piece.written, Piece.separators]
  rw [substitute_of_notMem hcolon, hsource]
  simp [collectionActionForm, Form.marks]

theorem written_memberAction {action : String} (h : WordName action) :
    (memberActionForm true action.toList).Written ("^/:id[/;]" ++ action ++ "$") := by
  let behind := "[/;]".toList ++ (action.toList ++ ['$'])
  have hcolon : ':' ∉ behind := by
    have hmem : ':' ∉ action.toList := h.plainName.notMem (by decide)
    simpa [behind] using hmem
  have hstart : atStart? (':' :: 'i' :: ("d".toList ++ behind)) =
      some (.named ('i' :: "d".toList), behind) :=
    atStart?_named (by decide) (by decide) (stops_cons (by decide) _)
  have hchars : ("^/:id[/;]" ++ action ++ "$").toList =
      "^/".toList ++ ':' :: 'i' :: ("d".toList ++ behind) := by
    simp [behind]
  have hsource : Path.source (memberActionForm true action.toList).pieces =
      "^/".toList ++ (capture ++ behind) := by
    rw [Path.source, memberActionForm, List.append_nil, Path.written_cons, Path.written_cons,
      Path.written_cons, h.written_chars]
    simp [Piece.written, Piece.separators, behind, Pattern.escape, Pattern.isSpecial]
  refine ⟨?_, isEmptyPath_of_lt_length (by simp)⟩
  have hinert : Inert "^/".toList := inert_of_notMem (by decide)
  have hmarks : marks (countGroups "^/".toList)
      (.hole (.named ('i' :: "d".toList)) :: behind.map .text) = [("id", 1)] := by
    have hnone := marks_text_append (countGroups "^/".toList + 1) behind []
    rw [List.append_nil] at hnone
    rw [marks, hnone]
    rfl
  rw [hchars, substitute_append hinert, tokens_of_atStart? hstart,
    tokens_of_first?_none (first?_of_notMem hcolon), spelled_cons, spelled_text, hmarks, hsource]
  rfl

theorem mem_intercalate {α : Type} {sep a : α} {parts : List (List α)}
    (h : a ∈ [sep].intercalate parts) : a = sep ∨ ∃ part ∈ parts, a ∈ part := by
  induction parts with
  | nil => cases h
  | cons part parts ih =>
    cases parts with
    | nil =>
      rw [List.intercalate_singleton] at h
      exact Or.inr ⟨part, List.mem_cons_self, h⟩
    | cons next parts =>
      rw [List.intercalate_cons_cons, List.mem_append, List.mem_append, List.mem_singleton] at h
      rcases h with (h | h) | h
      · exact Or.inr ⟨part, List.mem_cons_self, h⟩
      · exact Or.inl h
      · rcases ih h with h | ⟨other, hother, h⟩
        · exact Or.inl h
        · exact Or.inr ⟨other, List.mem_cons_of_mem _ hother, h⟩

theorem toLower_ne_colon {c : Char} (h : isPlain c = true) : c.toLower ≠ ':' := by
  have hall : ∀ n < 128, isPlain (Char.ofNat n) = true → (Char.ofNat n).toLower ≠ ':' := by
    decide
  have hc := hall c.toNat (toNat_lt_of_isPlain h)
  rw [Char.ofNat_toNat] at hc
  exact hc h

variable {a : ExtraAction}

theorem ReadyExtra.toNat_lt (h : ReadyExtra a) {m : String} (hm : m ∈ a.methods) :
    ∀ c ∈ m.toList, c.toNat < 128 :=
  fun c hc => toNat_lt_of_isPlain (h.methods m hm c hc)

theorem ReadyExtra.colon_notMem (h : ReadyExtra a) : ':' ∉ wordsSource (words a) := by
  intro hmem
  simp only [wordsSource, List.mem_cons, List.mem_append, List.not_mem_nil, or_false] at hmem
  rcases hmem with hmem | hmem | hmem | hmem | hmem
  · cases hmem
  · cases hmem
  · rcases mem_intercalate hmem with hmem | ⟨part, hpart, hmem⟩
    · cases hmem
    obtain ⟨w, hw, rfl⟩ := List.mem_map.mp hpart
    obtain ⟨m, hm, rfl⟩ := List.mem_map.mp hw
    rcases mem_escape hmem with hmem | hmem
    · cases hmem
    rw [toList_lowercase (h.toNat_lt hm)] at hmem
    obtain ⟨c, hc, heq⟩ := List.mem_map.mp hmem
    exact toLower_ne_colon (h.methods m hm c hc) heq
  · cases hmem
  · cases hmem

theorem ReadyExtra.tested (h : ReadyExtra a) :
    substitute ((methodsPattern a.methods).source .method).toList = (wordsSource (words a), []) := by
  have hsource : ((methodsPattern a.methods).source .method).toList = wordsSource (words a) := by
    simp [methodsPattern, Pattern.source, wordsSource, words, String.toList_intercalate,
      Function.comp_def]
  rw [hsource, substitute_of_notMem h.colon_notMem]

theorem ReadyExtra.isSome_captures? (h : ReadyExtra a) {m : String} (hm : m ∈ a.methods) :
    ((wordsRegex (words a)).captures? (Unicode.lowercase m)).isSome := by
  have hmem : (Unicode.lowercase m).toList ∈ words a := List.mem_map.mpr ⟨m, hm, rfl⟩
  have hlower := asciiLower_of_mem_lowercase (h.toNat_lt hm)
  rw [isSome_captures?_words (List.ne_nil_of_mem hmem)]
  exact ⟨_, hmem, (sameWord_iff hlower hlower).mpr rfl⟩

theorem ReadyExtra.programSize_le (h : ReadyExtra a) :
    (wordsNode (words a)).programSize ≤
      260 + (a.methods.map fun m => 68 + 80 * m.length).sum := by
  have hascii : ∀ w ∈ words a, ∀ c ∈ w, c.toNat < 128 := by
    intro w hw c hc
    obtain ⟨m, hm, rfl⟩ := List.mem_map.mp hw
    have hlower := asciiLower_of_mem_lowercase (h.toNat_lt hm) c hc
    simp only [asciiLower, Bool.and_eq_true, decide_eq_true_eq] at hlower
    exact hlower.1
  have hle := programSize_wordsNode_le hascii
  have hsum : (words a).map (fun w => 68 + 80 * w.length) =
      a.methods.map fun m => 68 + 80 * m.length := by
    rw [words, List.map_map]
    refine List.map_congr_left fun m hm => ?_
    rw [Function.comp_apply, toList_lowercase (h.toNat_lt hm), List.length_map,
      String.length_toList]
  rw [hsum] at hle
  exact hle

theorem ReadyExtra.ready_extraRow (h : ReadyExtra a) {opening : String} {form : List Char → Form}
    (hwritten : (form a.action.toList).Written (opening ++ a.action ++ "$")) :
    (extraRow opening form a).Ready where
  written := hwritten
  action := h.action.plainName
  tested := by
    rw [extraRow, h.tested, wordsRegex, String.toList_ofList]
  compiled := compile_words (words a)

theorem ReadyExtra.ready_memberRow (h : ReadyExtra a) : (memberRow a).Ready :=
  h.ready_extraRow (written_memberAction h.action)

theorem ReadyExtra.ready_collectionRow (h : ReadyExtra a) : (collectionRow a).Ready :=
  h.ready_extraRow (written_collectionAction h.action)

theorem fits_collectionAction_iff {found : List (Nat × List Char)} {rest action : List Char} :
    Path.Fits 0 (collectionActionForm action).pieces found rest ↔
      found = [] ∧ (rest = '/' :: action ∨ rest = ';' :: action) := by
  simp only [collectionActionForm, fits_separator_iff, fits_chars_iff, fits_nil_iff]
  constructor
  · rintro ⟨_, ⟨_, ⟨rfl, rfl⟩, rfl⟩, hrest⟩
    simpa using hrest
  · rintro ⟨rfl, hrest⟩
    exact ⟨action, ⟨[], ⟨rfl, rfl⟩, by simp⟩, hrest⟩

end Signpost.Resource
