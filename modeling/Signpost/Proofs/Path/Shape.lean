import Signpost.Proofs.Path.Fit

/-! # The shapes of paths

What fits a path is told piece by piece: its first characters, then what the next piece takes. A
format at the end is an extension, which may be missing, and the size of a path's program grows with
its characters.
-/
namespace Signpost.Path
open Placeholder Regex Template

section Pieces
variable {g : Nat} {ps : List Piece} {found : List (Nat × List Char)} {cs : List Char}

@[simp] theorem fits_nil_iff : Fits g [] found cs ↔ found = [] ∧ cs = [] := by
  constructor
  · intro h
    cases h
    exact ⟨rfl, rfl⟩
  · rintro ⟨rfl, rfl⟩
    exact .nil

@[simp] theorem fits_char_iff {c : Char} :
    Fits g (.char c :: ps) found cs ↔ ∃ rest, Fits g ps found rest ∧ cs = c :: rest := by
  rw [fits_cons_iff]
  constructor
  · rintro ⟨_, _, later, rest, ⟨⟩, h, rfl, rfl⟩
    exact ⟨rest, h, rfl⟩
  · rintro ⟨rest, h, rfl⟩
    exact ⟨[], [c], found, rest, .char c, h, rfl, rfl⟩

@[simp] theorem fits_chars_iff {ds : List Char} :
    Fits g (ds.map .char ++ ps) found cs ↔ ∃ rest, Fits g ps found rest ∧ cs = ds ++ rest := by
  induction ds generalizing cs with
  | nil => simp
  | cons d ds ih =>
    rw [List.map_cons, List.cons_append, fits_char_iff]
    constructor
    · rintro ⟨rest, htail, rfl⟩
      obtain ⟨rest, h, rfl⟩ := ih.mp htail
      exact ⟨rest, h, rfl⟩
    · rintro ⟨rest, h, rfl⟩
      exact ⟨ds ++ rest, ih.mpr ⟨rest, h, rfl⟩, rfl⟩

theorem fits_maybeSlash_iff :
    Fits g (.maybeSlash :: ps) found cs ↔
      ∃ rest, Fits g ps found rest ∧ (cs = rest ∨ cs = '/' :: rest) := by
  rw [fits_cons_iff]
  constructor
  · rintro ⟨_, _, later, rest, h, hrest, rfl, rfl⟩
    cases h with
    | noSlash => exact ⟨rest, hrest, Or.inl rfl⟩
    | slash => exact ⟨rest, hrest, Or.inr rfl⟩
  · rintro ⟨rest, h, rfl | rfl⟩
    · exact ⟨[], [], found, cs, .noSlash, h, rfl, rfl⟩
    · exact ⟨[], ['/'], found, rest, .slash, h, rfl, rfl⟩

theorem fits_separator_iff {slashFirst : Bool} :
    Fits g (.separator slashFirst :: ps) found cs ↔
      ∃ rest, Fits g ps found rest ∧ (cs = '/' :: rest ∨ cs = ';' :: rest) := by
  rw [fits_cons_iff]
  constructor
  · rintro ⟨_, _, later, rest, h, hrest, rfl, rfl⟩
    cases h with | separator _ hc => ?_
    simp only [List.mem_cons, List.not_mem_nil, or_false] at hc
    rcases hc with rfl | rfl
    · exact ⟨rest, hrest, Or.inl rfl⟩
    · exact ⟨rest, hrest, Or.inr rfl⟩
  · rintro ⟨rest, h, rfl | rfl⟩
    · exact ⟨[], ['/'], found, rest, .separator _ (by decide), h, rfl, rfl⟩
    · exact ⟨[], [';'], found, rest, .separator _ (by decide), h, rfl, rfl⟩

theorem fits_hole_iff :
    Fits g (.hole :: ps) found cs ↔
      ∃ value later rest, IsSegment value ∧ Fits (g + 1) ps later rest ∧
        found = (g + 1, value) :: later ∧ cs = value ++ rest := by
  rw [fits_cons_iff]
  constructor
  · rintro ⟨_, value, later, rest, h, hrest, rfl, rfl⟩
    cases h with
    | hole h => exact ⟨value, later, rest, h, hrest, rfl, rfl⟩
  · rintro ⟨value, later, rest, h, hrest, rfl, rfl⟩
    exact ⟨[(g + 1, value)], value, later, rest, .hole h, hrest, rfl, rfl⟩

def extension : Option (List Char) → List Char
  | none => []
  | some format => '.' :: format

def formatGroups (g : Nat) : Option (List Char) → List (Nat × List Char)
  | none => []
  | some format => [(g + 1, '.' :: format), (g + 2, format)]

theorem fits_format_iff :
    Fits g [.format] found cs ↔ ∃ format, (∀ f ∈ format, IsSegment f) ∧
      found = formatGroups g format ∧ cs = extension format := by
  simp only [fits_cons_iff, fits_nil_iff]
  constructor
  · rintro ⟨_, _, _, _, h, ⟨rfl, rfl⟩, rfl, rfl⟩
    cases h with
    | noFormat => exact ⟨none, by simp, rfl, rfl⟩
    | @format value h =>
      exact ⟨some value, by simpa using h, by simp [formatGroups], by simp [extension]⟩
  · rintro ⟨format, hformat, rfl, rfl⟩
    cases format with
    | none => exact ⟨[], [], [], [], .noFormat, ⟨rfl, rfl⟩, rfl, rfl⟩
    | some value =>
      exact ⟨_, _, [], [], .format (hformat value rfl), ⟨rfl, rfl⟩,
        by simp [formatGroups], by simp [extension]⟩

end Pieces

theorem extension_injective {f f' : Option (List Char)} (h : extension f = extension f') :
    f = f' := by
  cases f <;> cases f' <;> simp_all [extension]

theorem head?_extension_endsSegment (f : Option (List Char)) :
    ∀ c, (extension f).head? = some c → endsSegment c = true := by
  intro c hc
  cases f with
  | none => cases hc
  | some f =>
    cases hc
    decide

theorem programSize_catAll {n : Node} (ns : List Node) :
    (Node.catAll (n :: ns)).programSize = ((n :: ns).map Node.programSize).sum := by
  induction ns generalizing n with
  | nil => rfl
  | cons m ns ih =>
    rw [List.map_cons, List.sum_cons, ← ih]
    rfl

def Piece.size : Piece → Nat
  | char c => 32 * c.utf8Size
  | maybeSlash => 104
  | separator _ => 80
  | hole => 664
  | format => 832

theorem Piece.programSize_node (g : Nat) (p : Piece) : (p.node g).programSize = p.size := by
  cases p with
  | char c => simp [Piece.node, Piece.size, CharSet.single, Node.programSize, CharSet.storage]
  | separator slashFirst => cases slashFirst <;> rfl
  | maybeSlash | hole | format => rfl

/-- The program of a path takes what its pieces and two anchors take. -/
theorem programSize_node (ps : List Piece) :
    (node ps).programSize = 64 + (ps.map Piece.size).sum := by
  have hnodes : ∀ g, ((nodes g ps).map Node.programSize).sum = (ps.map Piece.size).sum := by
    induction ps with
    | nil => exact fun _ => rfl
    | cons p ps ih =>
      intro g
      rw [nodes, List.map_cons, List.sum_cons, ih, Piece.programSize_node, List.map_cons,
        List.sum_cons]
  rw [node, programSize_catAll, List.map_cons, List.map_append, List.sum_cons, List.sum_append,
    hnodes]
  simp only [Node.programSize, List.map_cons, List.map_nil, List.sum_cons, List.sum_nil]
  omega

theorem sum_size_chars {cs : List Char} (h : ∀ c ∈ cs, c.utf8Size = 1) :
    ((cs.map Piece.char).map Piece.size).sum = 32 * cs.length := by
  induction cs with
  | nil => rfl
  | cons c cs ih =>
    obtain ⟨hc, hcs⟩ := List.forall_mem_cons.mp h
    simp only [List.map_cons, List.sum_cons, List.length_cons, ih hcs, Piece.size, hc]
    omega

theorem sum_size_chars_le (cs : List Char) :
    ((cs.map Piece.char).map Piece.size).sum ≤ 128 * cs.length := by
  induction cs with
  | nil => exact Nat.le_refl 0
  | cons c cs ih =>
    have hsize := Char.utf8Size_le_four c
    simp only [List.map_cons, List.sum_cons, List.length_cons, Piece.size] at ih ⊢
    omega

end Signpost.Path
