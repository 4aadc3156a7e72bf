import Signpost.Proofs.Template.Language

/-! # Hand-written paths, piece by piece

The paths of usual actions are written by hand from few kinds of pieces: characters, a slash that may
be missing, a slash or a semicolon, a placeholder, and a format that may be missing. An expression of
such pieces between two anchors is a pattern, and its tree has a node for each piece.
-/
namespace Signpost.Path
open Placeholder Regex Template

/-- A piece of a hand-written path. -/
inductive Piece where
  | char (c : Char)
  | maybeSlash
  /-- A slash or a semicolon, written in either order. -/
  | separator (slashFirst : Bool)
  | hole
  | format
  deriving DecidableEq

namespace Piece

def separators (slashFirst : Bool) : List Char :=
  if slashFirst then ['/', ';'] else [';', '/']

def written : Piece → List Char
  | char c => Pattern.escape [c]
  | maybeSlash => ['/', '?']
  | separator slashFirst => '[' :: (separators slashFirst ++ [']'])
  | hole => capture
  | format => '(' :: '\\' :: '.' :: (capture ++ [')', '?'])

def groups : Piece → Nat
  | hole => 1
  | format => 2
  | _ => 0

def node (g : Nat) : Piece → Node
  | char c => .read (.single c)
  | maybeSlash => .loop (.read (.single '/')) 0 (some 1) true
  | separator slashFirst => .read (.ofList (separators slashFirst))
  | hole => holeNode (g + 1)
  | format =>
    .loop (.group (g + 1) (.cat (.read (.single '.')) (holeNode (g + 2)))) 0 (some 1) true

def depth : Piece → Nat
  | char _ => 0
  | maybeSlash => 1
  | separator _ => 2
  | hole => 4
  | format => 7

end Piece

open Piece

def written (ps : List Piece) : List Char := ps.flatMap Piece.written

def nodes : Nat → List Piece → List Node
  | _, [] => []
  | g, p :: ps => p.node g :: nodes (g + p.groups) ps

def groups (ps : List Piece) : Nat := (ps.map Piece.groups).sum

def node (ps : List Piece) : Node :=
  Node.catAll (.look .textStart :: (nodes 0 ps ++ [.look .textEnd]))

@[simp] theorem written_cons (p : Piece) (ps : List Piece) :
    written (p :: ps) = p.written ++ written ps := rfl

@[simp] theorem written_append (ps qs : List Piece) :
    written (ps ++ qs) = written ps ++ written qs :=
  List.flatMap_append

theorem written_chars (cs : List Char) : written (cs.map .char) = Pattern.escape cs := by
  rw [written, List.flatMap_map]
  simp [Piece.written, Pattern.escape]

def after (st : ReadState) (p : Piece) : ReadState :=
  { st with
    terms := ⟨p.node st.captures, p.depth, true⟩ :: st.terms
    captures := st.captures + p.groups }

theorem openBracket_separator {c : Char} (hc : c ∈ ['/', ';']) (rest : List Char) :
    openBracket {} (c :: rest) = (false, [], c :: rest) := by
  simp only [List.mem_cons, List.not_mem_nil, or_false] at hc
  rcases hc with rfl | rfl <;> rfl

theorem bracketed_separator {c d : Char} (hc : c ∈ ['/', ';']) (hd : d ∈ ['/', ';'])
    (rest : List Char) :
    bracketed {} (c :: d :: ']' :: rest) = .ok (⟨.ofList [c, d], 2⟩, rest) := by
  have hmark : ∀ {c : Char}, c ∈ ['/', ';'] → c ∈ ['/', '.', ',', ';', '?'] := by
    intro c hc
    simp only [List.mem_cons, List.not_mem_nil, or_false] at hc ⊢
    tauto
  have hnext : d ∈ ['/', '.', ',', ';', '?', ']'] := List.mem_append_left [']'] (hmark hd)
  have hloop : ∀ fuel, setLoop {} (fuel + 3) [.bracket [] false] [] (c :: d :: ']' :: rest) =
      .ok (⟨.ofList [c, d], 2⟩, rest) := by
    intro fuel
    rw [setLoop_mark {} (hmark hc) hnext, setLoop_mark {} (hmark hd) (by decide), setLoop,
      skipBlank_of_mark (by decide) (by decide +kernel)]
    rfl
  rw [bracketed, openBracket_separator hc]
  have hfuel : 2 * (c :: d :: ']' :: rest).length + 2 = (2 * rest.length + 5) + 3 := by
    simp only [List.length_cons]
    omega
  simp only [bind, Except.bind, hfuel, hloop]
  rfl

section Reads
variable {st : ReadState} (hst : st.flags = {})
include hst

theorem reads_char (c : Char) (rest : List Char) :
    Reads st (Pattern.escape [c] ++ rest) (after st (.char c)) rest := by
  by_cases hc : Pattern.isSpecial c = true
  · rw [escape_cons_of_isSpecial hc]
    exact reads_escaped hst hc rest
  · rw [escape_cons_of_not hc]
    exact reads_ordinary hst hc rest

theorem reads_repeat {n : Node} {depth : Nat} {before : List Term} {rest : List Char}
    (hterms : st.terms = ⟨n, depth, true⟩ :: before) (hn : n.readsNothing = false)
    (hrest : rest.head? ≠ some '?') :
    Reads st ('?' :: rest)
      { st with terms := ⟨.loop n 0 (some 1) true, 1 + depth, true⟩ :: before } rest := by
  refine Reads.element (by rw [hst]) ?_ (Nat.le_refl _)
  simp only [ReadState.element, lazyMark_of_ne hrest, ReadState.repeatLast, hterms, if_true,
    Node.repeated, hn, hst]
  rfl

theorem reads_maybeSlash {rest : List Char} (hrest : rest.head? ≠ some '?') :
    Reads st ('/' :: '?' :: rest) (after st .maybeSlash) rest := by
  have hslash : Reads st ('/' :: '?' :: rest) (after st (.char '/')) ('?' :: rest) :=
    reads_char hst '/' ('?' :: rest)
  have hterms : (after st (.char '/')).terms = ⟨.read (.single '/'), 0, true⟩ :: st.terms := rfl
  exact hslash.trans
    (reads_repeat (show (after st (.char '/')).flags = {} from hst) hterms rfl hrest)

theorem reads_separator (slashFirst : Bool) (rest : List Char) :
    Reads st ('[' :: (separators slashFirst ++ ']' :: rest)) (after st (.separator slashFirst))
      rest := by
  have hset : bracketed {} (separators slashFirst ++ ']' :: rest) =
      .ok (⟨.ofList (separators slashFirst), 2⟩, rest) := by
    cases slashFirst
    · exact bracketed_separator (by decide) (by decide) rest
    · exact bracketed_separator (by decide) (by decide) rest
  refine Reads.element (by rw [hst]) ?_ (by simp; omega)
  simp only [ReadState.element, hst, hset, bind, Except.bind]
  rfl

theorem reads_format {rest : List Char} (hrest : rest.head? ≠ some '?') :
    Reads st ('(' :: '\\' :: '.' :: (capture ++ ')' :: '?' :: rest)) (after st .format) rest := by
  obtain ⟨groups, terms, branches, flags, captures, names⟩ := st
  cases hst
  let inside : ReadState :=
    ⟨⟨terms, branches, {}, some (captures + 1)⟩ :: groups, [], [], {}, captures + 1, names⟩
  let dotted : ReadState := inside.push ⟨.read (.single '.'), 0, true⟩
  let captured : ReadState :=
    { dotted with
      terms := ⟨holeNode (captures + 2), 4, true⟩ :: dotted.terms
      captures := captures + 2 }
  let body : Node := .cat (.read (.single '.')) (holeNode (captures + 2))
  let closed : ReadState :=
    ⟨groups, ⟨.group (captures + 1) body, 6, true⟩ :: terms, branches, {}, captures + 2, names⟩
  have hopen : Reads ⟨groups, terms, branches, {}, captures, names⟩
      ('(' :: '\\' :: '.' :: (capture ++ ')' :: '?' :: rest)) inside
      ('\\' :: '.' :: (capture ++ ')' :: '?' :: rest)) :=
    Reads.element rfl rfl (Nat.le_refl _)
  have hdot : Reads inside ('\\' :: '.' :: (capture ++ ')' :: '?' :: rest)) dotted
      (capture ++ ')' :: '?' :: rest) :=
    reads_escaped rfl (by decide) _
  have hcapture : Reads dotted (capture ++ ')' :: '?' :: rest) captured (')' :: '?' :: rest) :=
    reads_capture rfl _
  have hclose : Reads captured (')' :: '?' :: rest) closed ('?' :: rest) :=
    Reads.element rfl rfl (Nat.le_refl _)
  have hterms : closed.terms = ⟨.group (captures + 1) body, 6, true⟩ :: terms := rfl
  have hrepeat := reads_repeat (show closed.flags = {} from rfl) hterms rfl hrest
  exact hopen.trans (hdot.trans (hcapture.trans (hclose.trans hrepeat)))

theorem reads_piece (p : Piece) {rest : List Char} (hrest : rest.head? ≠ some '?') :
    Reads st (p.written ++ rest) (after st p) rest := by
  cases p with
  | char c => exact reads_char hst c rest
  | maybeSlash => exact reads_maybeSlash hst hrest
  | separator slashFirst =>
    have hread := reads_separator hst slashFirst rest
    simpa [Piece.written] using hread
  | hole => exact reads_capture hst rest
  | format =>
    have hread := reads_format hst hrest
    simpa [Piece.written] using hread

end Reads

/-- No piece begins with a question mark, which would make a piece before it lazy. -/
theorem head?_written_append_ne (p : Piece) (rest : List Char) :
    (p.written ++ rest).head? ≠ some '?' := by
  cases p with
  | char c => exact head?_escape_cons_append_ne c [] rest
  | maybeSlash => simp [Piece.written]
  | separator slashFirst => simp [Piece.written]
  | hole =>
    rw [Piece.written, List.head?_append, head?_capture]
    simp
  | format => simp [Piece.written]

theorem head?_written_ne (ps : List Piece) {rest : List Char} (hrest : rest.head? ≠ some '?') :
    (written ps ++ rest).head? ≠ some '?' := by
  cases ps with
  | nil => exact hrest
  | cons p ps =>
    rw [written_cons, List.append_assoc]
    exact head?_written_append_ne p _

def terms : Nat → List Piece → List Term
  | _, [] => []
  | g, p :: ps => terms (g + p.groups) ps ++ [⟨p.node g, p.depth, true⟩]

theorem reads_pieces {st : ReadState} (hst : st.flags = {}) (ps : List Piece) {rest : List Char}
    (hrest : rest.head? ≠ some '?') :
    Reads st (written ps ++ rest)
      { st with
        terms := terms st.captures ps ++ st.terms
        captures := st.captures + groups ps } rest := by
  induction ps generalizing st with
  | nil => exact Reads.refl st rest
  | cons p ps ih =>
    have hfirst := reads_piece hst p (head?_written_ne ps hrest)
    have hrest' := ih (show (after st p).flags = {} from hst)
    have hall := hfirst.trans hrest'
    rw [← List.append_assoc] at hall
    simpa [after, terms, groups, Nat.add_assoc] using hall

theorem map_node_terms (g : Nat) (ps : List Piece) :
    (terms g ps).reverse.map Term.node = nodes g ps := by
  induction ps generalizing g with
  | nil => rfl
  | cons p ps ih => simp [terms, nodes, ← ih]

theorem depth_le_of_mem_terms {g : Nat} {ps : List Piece} {t : Term} (h : t ∈ terms g ps) :
    t.depth ≤ 7 := by
  induction ps generalizing g with
  | nil => cases h
  | cons p ps ih =>
    rcases List.mem_append.mp h with h | h
    · exact ih h
    · rw [List.mem_singleton.mp h]
      cases p <;> simp [Piece.depth]

/-- An expression of pieces between anchors is a pattern, and its tree is that of the pieces. -/
theorem parse_written (ps : List Piece) :
    parse ('^' :: (written ps ++ ['$'])) false = .ok (node ps, groups ps) := by
  let start : ReadState := ⟨[], [], [], {}, 0, []⟩
  let opened := start.push ⟨.look .textStart, 0, true⟩
  let all : List Term :=
    ⟨.look .textEnd, 0, true⟩ :: (terms 0 ps ++ [⟨.look .textStart, 0, true⟩])
  let last : ReadState := ⟨[], all, [], {}, 0 + groups ps, []⟩
  have hdollar : ['$'].head? ≠ some '?' := by decide
  have hpieces := reads_pieces (show opened.flags = {} from rfl) ps hdollar
  have hreads : Reads start ('^' :: (written ps ++ ['$'])) last [] :=
    (reads_anchor rfl _).1.trans (hpieces.trans (reads_anchor rfl _).2)
  have hterm := @branchTerm_of_two all (by simp [all])
  have hnode : (branchTerm all).node = node ps := by
    rw [hterm]
    simp only [all, List.reverse_cons, List.reverse_append, List.map_append, List.map_cons,
      List.map_nil, List.reverse_nil, List.nil_append, map_node_terms, List.cons_append]
    rfl
  have hle : (branchTerm all).depth ≤ maxDepth := by
    have hfold : (all.reverse.map Term.depth).foldl max 0 ≤ 7 := by
      refine foldl_max_le (fun d hd => ?_) (Nat.zero_le 7)
      obtain ⟨t, ht, rfl⟩ := List.mem_map.mp hd
      rcases List.mem_cons.mp (List.mem_reverse.mp ht) with rfl | ht
      · exact Nat.zero_le 7
      · rcases List.mem_append.mp ht with ht | ht
        · exact depth_le_of_mem_terms ht
        · rw [List.mem_singleton.mp ht]
          exact Nat.zero_le 7
    rw [hterm]
    change 1 + _ ≤ 250
    omega
  have hbound : ¬ maxDepth < (groupBody last.branches last.terms).depth := Nat.not_lt.mpr hle
  simp only [parse, bind, Except.bind]
  rw [hreads.run_eq]
  simp only [last, List.isEmpty_nil, Bool.not_true, Bool.false_eq_true, if_false] at hbound ⊢
  rw [if_neg hbound]
  simp only [groupBody, hnode, Nat.zero_add]
  rfl

end Signpost.Path
