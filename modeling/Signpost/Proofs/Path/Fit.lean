import Signpost.Proofs.Output
import Signpost.Proofs.Path.Piece
import Signpost.Proofs.Template.Link

/-! # Texts that hand-written paths accept

A text fits pieces when it is made of what the pieces can take, one after the other. The runs of the
pieces' nodes are exactly these fits, and the groups that a run saves are the texts that the groups of
the pieces took.
-/
namespace Signpost.Path
open Placeholder Regex Template

/-- What a piece behind `g` groups can take, with the texts of its groups. -/
inductive Takes (g : Nat) : Piece → List (Nat × List Char) → List Char → Prop
  | char (c : Char) : Takes g (.char c) [] [c]
  | noSlash : Takes g .maybeSlash [] []
  | slash : Takes g .maybeSlash [] ['/']
  | separator (slashFirst : Bool) {c : Char} (hc : c ∈ ['/', ';']) :
      Takes g (.separator slashFirst) [] [c]
  | hole {value : List Char} (h : IsSegment value) : Takes g .hole [(g + 1, value)] value
  | noFormat : Takes g .format [] []
  | format {value : List Char} (h : IsSegment value) :
      Takes g .format [(g + 1, '.' :: value), (g + 2, value)] ('.' :: value)

/-- The text is made of what the pieces take, with the texts of their groups. -/
inductive Fits : Nat → List Piece → List (Nat × List Char) → List Char → Prop
  | nil {g : Nat} : Fits g [] [] []
  | cons {g : Nat} {p : Piece} {ps : List Piece} {found found' : List (Nat × List Char)}
      {part rest : List Char} (hp : Takes g p found part) (h : Fits (g + p.groups) ps found' rest) :
      Fits g (p :: ps) (found ++ found') (part ++ rest)

theorem fits_cons_iff {g : Nat} {p : Piece} {ps : List Piece} {found : List (Nat × List Char)}
    {cs : List Char} :
    Fits g (p :: ps) found cs ↔ ∃ here part later rest, Takes g p here part ∧
      Fits (g + p.groups) ps later rest ∧ found = here ++ later ∧ cs = part ++ rest := by
  constructor
  · intro h
    cases h with
    | cons hp h => exact ⟨_, _, _, _, hp, h, rfl, rfl⟩
  · rintro ⟨here, part, later, rest, hp, h, rfl, rfl⟩
    exact .cons hp h

theorem Takes.group_of_mem {g : Nat} {p : Piece} {found : List (Nat × List Char)} {cs : List Char}
    (h : Takes g p found cs) {e : Nat × List Char} (he : e ∈ found) :
    g < e.1 ∧ e.1 ≤ g + p.groups := by
  cases h with
  | char | noSlash | slash | separator | noFormat => cases he
  | hole =>
    rw [List.mem_singleton.mp he]
    simp [Piece.groups]
  | format =>
    simp only [List.mem_cons, List.not_mem_nil, or_false] at he
    rcases he with rfl | rfl
    · simp [Piece.groups]
    · simp [Piece.groups]

theorem Fits.lt_group_of_mem {g : Nat} {ps : List Piece} {found : List (Nat × List Char)}
    {cs : List Char} (h : Fits g ps found cs) {e : Nat × List Char} (he : e ∈ found) : g < e.1 := by
  induction h with
  | nil => cases he
  | cons hp h ih =>
    rcases List.mem_append.mp he with he | he
    · exact (hp.group_of_mem he).1
    · have hlt := ih he
      omega

theorem lookup_eq_none {found : List (Nat × List Char)} {k : Nat} (h : ∀ e ∈ found, e.1 ≠ k) :
    found.lookup k = none := by
  induction found with
  | nil => rfl
  | cons e found ih =>
    obtain ⟨he, hfound⟩ := List.forall_mem_cons.mp h
    rw [List.lookup_cons, beq_false_of_ne (Ne.symm he)]
    exact ih hfound

theorem lookup_append (found later : List (Nat × List Char)) (k : Nat) :
    (found ++ later).lookup k = (found.lookup k).or (later.lookup k) := by
  induction found with
  | nil => rfl
  | cons e found ih =>
    rw [List.cons_append, List.lookup_cons, List.lookup_cons]
    split
    · rfl
    · exact ih

/-- The positions that a piece behind `g` groups saves when it takes a text. -/
def saves (g : Nat) (start : Nat) (cs : List Char) : Piece → List (Nat × Nat)
  | .hole => [(2 * (g + 1) + 1, start + cs.length), (2 * (g + 1), start)]
  | .format =>
    if cs = [] then []
    else [(2 * (g + 1) + 1, start + cs.length), (2 * (g + 2) + 1, start + cs.length),
      (2 * (g + 2), start + 1), (2 * (g + 1), start)]
  | _ => []

variable {cs : List Char} {s t : Spot}

theorem run_optional {n : Node} {text : Array Char} {greedy : Bool} :
    (Node.loop n 0 (some 1) greedy).Run text s t ↔ s = t ∨ n.Run text s t := by
  simp only [Node.Run]
  constructor
  · rintro ⟨count, -, hmost, hrun⟩
    have hle : count ≤ max 1 0 := hmost 1 rfl
    rcases count with _ | _ | count
    · exact Or.inl hrun
    · obtain ⟨u, hu, rfl⟩ := hrun
      exact Or.inr hu
    · omega
  · rintro (rfl | hrun)
    · exact ⟨0, Nat.le_refl 0, fun _ _ => Nat.zero_le _, rfl⟩
    · refine ⟨1, Nat.zero_le 1, ?_, t, hrun, rfl⟩
      rintro most ⟨⟩
      exact Nat.le_max_left 1 0

theorem run_char {c : Char} :
    (Node.read (.single c)).Run cs.toArray s t ↔
      cs.drop s.pos = c :: cs.drop t.pos ∧ t = ⟨s.pos + 1, s.saved⟩ := by
  simp only [run_read, mem_single]
  constructor
  · rintro ⟨d, rfl, h⟩
    exact h
  · intro h
    exact ⟨c, rfl, h⟩

theorem run_dot_hole {group : Nat} :
    (Node.cat (.read (.single '.')) (holeNode group)).Run cs.toArray s t ↔
      ∃ value, IsSegment value ∧ cs.drop s.pos = '.' :: (value ++ cs.drop t.pos) ∧
        t = ⟨s.pos + 1 + value.length,
          (2 * group + 1, s.pos + 1 + value.length) :: (2 * group, s.pos + 1) :: s.saved⟩ := by
  constructor
  · rintro ⟨u, hdot, hhole⟩
    obtain ⟨hdrop, rfl⟩ := run_char.mp hdot
    obtain ⟨value, hne, hvalue, hdrop', rfl⟩ := run_holeNode.mp hhole
    exact ⟨value, ⟨hne, hvalue⟩, hdrop.trans (congrArg ('.' :: ·) hdrop'), rfl⟩
  · rintro ⟨value, h, hdrop, rfl⟩
    have hnext : cs.drop (s.pos + 1) = value ++ cs.drop (s.pos + 1 + value.length) := by
      rw [← List.drop_drop, hdrop]
      rfl
    refine ⟨⟨s.pos + 1, s.saved⟩, run_char.mpr ⟨?_, rfl⟩,
      run_holeNode.mpr ⟨value, h.1, h.2, hnext, rfl⟩⟩
    rw [hdrop, hnext]

/-- A run of a piece takes what the piece can take, and saves where its groups stand. -/
theorem run_piece {g : Nat} {p : Piece} :
    (p.node g).Run cs.toArray s t ↔ ∃ found part, Takes g p found part ∧
      cs.drop s.pos = part ++ cs.drop t.pos ∧
      t = ⟨s.pos + part.length, saves g s.pos part p ++ s.saved⟩ := by
  cases p with
  | char c =>
    rw [Piece.node, run_char]
    constructor
    · rintro ⟨hdrop, rfl⟩
      exact ⟨_, _, .char c, hdrop, rfl⟩
    · rintro ⟨found, part, ⟨⟩, hdrop, rfl⟩
      exact ⟨hdrop, rfl⟩
  | maybeSlash =>
    rw [Piece.node, run_optional, run_char]
    constructor
    · rintro (rfl | ⟨hdrop, rfl⟩)
      · exact ⟨_, _, .noSlash, rfl, rfl⟩
      · exact ⟨_, _, .slash, hdrop, rfl⟩
    · rintro ⟨found, part, h, hdrop, rfl⟩
      cases h with
      | noSlash => exact Or.inl rfl
      | slash => exact Or.inr ⟨hdrop, rfl⟩
  | separator slashFirst =>
    have hmem : ∀ c, c ∈ Piece.separators slashFirst ↔ c ∈ ['/', ';'] := by
      intro c
      cases slashFirst
      · simp [Piece.separators, or_comm]
      · simp [Piece.separators]
    rw [Piece.node, run_read]
    simp only [mem_ofList, hmem]
    constructor
    · rintro ⟨c, hc, hdrop, rfl⟩
      exact ⟨_, _, .separator slashFirst hc, hdrop, rfl⟩
    · rintro ⟨found, part, h, hdrop, rfl⟩
      cases h with
      | separator _ hc => exact ⟨_, hc, hdrop, rfl⟩
  | hole =>
    rw [Piece.node, run_holeNode]
    constructor
    · rintro ⟨value, hne, hvalue, hdrop, rfl⟩
      exact ⟨_, value, .hole ⟨hne, hvalue⟩, hdrop, rfl⟩
    · rintro ⟨found, part, h, hdrop, rfl⟩
      cases h with
      | hole h => exact ⟨part, h.1, h.2, hdrop, rfl⟩
  | format =>
    rw [Piece.node, run_optional]
    constructor
    · rintro (rfl | ⟨u, hrun, rfl⟩)
      · exact ⟨_, _, .noFormat, rfl, rfl⟩
      · obtain ⟨value, hvalue, hdrop, rfl⟩ := run_dot_hole.mp hrun
        refine ⟨_, '.' :: value, .format hvalue, hdrop, ?_⟩
        simp [saves, Spot.save, Nat.add_assoc, Nat.add_comm 1]
    · rintro ⟨found, part, h, hdrop, rfl⟩
      cases h with
      | noFormat => exact Or.inl rfl
      | @format value h =>
        have hlength : s.pos + ('.' :: value).length = s.pos + 1 + value.length := by
          simp [Nat.add_assoc, Nat.add_comm 1]
        have hdrop : cs.drop s.pos = '.' :: (value ++ cs.drop (s.pos + 1 + value.length)) := by
          rw [← hlength]
          exact hdrop
        have hrun : (Node.cat (.read (.single '.')) (holeNode (g + 2))).Run cs.toArray
            (s.save (2 * (g + 1))) ⟨s.pos + 1 + value.length, _⟩ :=
          run_dot_hole.mpr ⟨value, h, hdrop, rfl⟩
        refine Or.inr ⟨_, hrun, ?_⟩
        simp [saves, Spot.save, Nat.add_assoc, Nat.add_comm 1]

theorem groupText?_of_lookup {saved : List (Nat × Nat)} {k start stop : Nat}
    (hstart : saved.lookup (2 * k) = some start) (hstop : saved.lookup (2 * k + 1) = some stop) :
    groupText? cs saved k = some ((cs.drop start).take (stop - start)) := by
  rw [groupText?, hstart, hstop]

theorem groupText?_cons_of_ne {slot : Nat} (pos : Nat) (saved : List (Nat × Nat)) {k : Nat}
    (hstart : 2 * k ≠ slot) (hstop : 2 * k + 1 ≠ slot) :
    groupText? cs ((slot, pos) :: saved) k = groupText? cs saved k := by
  rw [groupText?, lookup_cons_of_ne hstart, lookup_cons_of_ne hstop, groupText?]

theorem groupText?_saves {g start : Nat} {p : Piece} {found : List (Nat × List Char)}
    {part rest : List Char} (h : Takes g p found part) (hdrop : cs.drop start = part ++ rest)
    (saved : List (Nat × Nat)) (k : Nat) :
    groupText? cs (saves g start part p ++ saved) k =
      (found.lookup k).or (groupText? cs saved k) := by
  cases h with
  | char | noSlash | slash | separator | noFormat => rfl
  | hole =>
    simp only [saves, List.cons_append, List.nil_append]
    by_cases hk : k = g + 1
    · rw [hk, groupText?_save_self, hdrop, Nat.add_sub_cancel_left, List.take_left,
        List.lookup_cons_self]
      rfl
    · rw [groupText?_save_of_ne hk, lookup_eq_none (by simpa using Ne.symm hk), Option.none_or]
  | @format value h =>
    simp only [saves, reduceCtorEq, if_false, List.cons_append, List.nil_append]
    by_cases hk : k = g + 1
    · subst hk
      have hstart : ((2 * (g + 1) + 1, start + ('.' :: value).length) ::
          (2 * (g + 2) + 1, start + ('.' :: value).length) :: (2 * (g + 2), start + 1) ::
            (2 * (g + 1), start) :: saved).lookup (2 * (g + 1)) = some start := by
        rw [lookup_cons_of_ne (by omega), lookup_cons_of_ne (by omega),
          lookup_cons_of_ne (by omega), List.lookup_cons_self]
      rw [groupText?_of_lookup hstart List.lookup_cons_self, Nat.add_sub_cancel_left, hdrop,
        List.take_left, List.lookup_cons_self]
      rfl
    · rw [groupText?_cons_of_ne _ _ (by omega) (by omega), List.lookup_cons, beq_false_of_ne hk]
      by_cases hk' : k = g + 2
      · subst hk'
        have hinner : cs.drop (start + 1) = value ++ rest := by
          rw [← List.drop_drop, hdrop]
          rfl
        have hlength : start + ('.' :: value).length - (start + 1) = value.length := by
          rw [List.length_cons]
          omega
        rw [groupText?_save_self, hlength, hinner, List.take_left, List.lookup_cons_self]
        rfl
      · rw [groupText?_save_of_ne hk', groupText?_cons_of_ne _ _ (by omega) (by omega),
          lookup_eq_none (by simpa using Ne.symm hk'), Option.none_or]

/-- A run of pieces takes a text that fits them and saves where their groups stand. -/
theorem exists_fits_of_runAll {g : Nat} {ps : List Piece}
    (h : RunAll cs.toArray (nodes g ps) s t) :
    ∃ found part, Fits g ps found part ∧ cs.drop s.pos = part ++ cs.drop t.pos ∧
      ∀ k, groupText? cs t.saved k = (found.lookup k).or (groupText? cs s.saved k) := by
  induction ps generalizing g s with
  | nil =>
    cases h
    exact ⟨[], [], .nil, rfl, fun k => rfl⟩
  | cons p ps ih =>
    obtain ⟨u, hfirst, hrest⟩ := h
    obtain ⟨here, part, htakes, hdrop, rfl⟩ := run_piece.mp hfirst
    obtain ⟨later, rest, hfits, hdrop', hgroups⟩ := ih hrest
    refine ⟨here ++ later, part ++ rest, .cons htakes hfits, ?_, fun k => ?_⟩
    · rw [hdrop, hdrop', List.append_assoc]
    · rw [hgroups, groupText?_saves htakes hdrop, lookup_append, ← Option.or_assoc]
      -- a group is saved by one piece at most
      cases hlookup : here.lookup k with
      | none => simp
      | some value =>
        have hbound : k ≤ g + p.groups := by
          by_contra hlt
          have hnone : here.lookup k = none :=
            lookup_eq_none fun e he => by have := (htakes.group_of_mem he).2; omega
          rw [hnone] at hlookup
          cases hlookup
        have hnone : later.lookup k = none :=
          lookup_eq_none fun e he => by have := hfits.lt_group_of_mem he; omega
        rw [hnone]
        rfl

theorem exists_runAll_of_fits {g : Nat} {ps : List Piece} {found : List (Nat × List Char)}
    {part rest : List Char} (h : Fits g ps found part) (s : Spot)
    (hs : cs.drop s.pos = part ++ rest) :
    ∃ t, RunAll cs.toArray (nodes g ps) s t ∧ cs.drop t.pos = rest := by
  induction h generalizing s with
  | nil => exact ⟨s, rfl, hs⟩
  | @cons g p ps here later part more htakes hfits ih =>
    have hnext : cs.drop (s.pos + part.length) = more ++ rest := by
      rw [← List.drop_drop, hs, List.append_assoc, List.drop_left]
    obtain ⟨t, hrun, ht⟩ := ih ⟨s.pos + part.length, saves g s.pos part p ++ s.saved⟩ hnext
    refine ⟨t, ⟨_, run_piece.mpr ⟨_, part, htakes, ?_, rfl⟩, hrun⟩, ht⟩
    rw [hs, hnext, List.append_assoc]

theorem fits_of_run {ps : List Piece} {start : Nat} (hstart : start ≤ cs.length)
    (h : (node ps).Run cs.toArray ⟨start, []⟩ t) :
    ∃ found, Fits 0 ps found cs ∧ ∀ k, groupText? cs t.saved k = found.lookup k := by
  obtain ⟨rfl, hnodes, hend⟩ := (run_anchored hstart).mp h
  obtain ⟨found, part, hfits, hpart, hgroups⟩ := exists_fits_of_runAll hnodes
  rw [hend, List.append_nil] at hpart
  have hwhole : part = cs := hpart.symm
  subst hwhole
  refine ⟨found, hfits, fun k => ?_⟩
  have hnone : groupText? part [] k = none := rfl
  rw [hgroups, hnone, Option.or_none]

theorem exists_run_of_fits {ps : List Piece} {found : List (Nat × List Char)}
    (h : Fits 0 ps found cs) : ∃ t, (node ps).Run cs.toArray ⟨0, []⟩ t := by
  have hall : cs.drop 0 = cs ++ [] := (List.append_nil cs).symm
  obtain ⟨t, hrun, hend⟩ := exists_runAll_of_fits h ⟨0, []⟩ hall
  exact ⟨t, (run_anchored (Nat.zero_le _)).mpr ⟨rfl, hrun, hend⟩⟩

theorem get?_eq_map_groupText? {k : Nat} (hk : k ≠ 0) (start stop : Nat)
    (saved : List (Nat × Nat)) :
    (Captures.mk cs.toArray start stop saved).get? k = (groupText? cs saved k).map String.ofList := by
  rw [Captures.get?, if_neg hk, groupText?]
  dsimp only
  split <;> simp_all [Captures.slice]

def source (ps : List Piece) : List Char := '^' :: (written ps ++ ['$'])

def regex (ps : List Piece) : Regex :=
  ⟨String.ofList (source ps), groups ps, node ps, (node ps).code.toArray⟩

theorem compile_source (ps : List Piece) :
    compile (String.ofList (source ps)) false =
      if Node.maxProgramSize < (node ps).programSize then .error .tooLarge else .ok (regex ps) :=
  compile_of_parse (parse_written ps)

/-- What the groups of a match captured are the texts of a fit. -/
theorem fits_of_captures? {ps : List Piece} {path : String} {c : Captures}
    (h : (regex ps).captures? path = some c) :
    ∃ found, Fits 0 ps found path.toList ∧
      ∀ k, k ≠ 0 → c.get? k = (found.lookup k).map String.ofList := by
  obtain ⟨⟨start, f⟩, hsearch, rfl⟩ := Option.map_eq_some_iff.mp h
  obtain ⟨hle, hrun⟩ := search_eq_some hsearch
  obtain ⟨found, hfits, hgroups⟩ := fits_of_run (by simpa using hle) hrun
  refine ⟨found, hfits, fun k hk => ?_⟩
  exact (get?_eq_map_groupText? hk _ _ _).trans (congrArg _ (hgroups k))

theorem captures?_isSome_iff {ps : List Piece} {path : String} :
    ((regex ps).captures? path).isSome ↔ ∃ found, Fits 0 ps found path.toList := by
  constructor
  · intro h
    obtain ⟨c, hc⟩ := Option.isSome_iff_exists.mp h
    obtain ⟨found, hfits, -⟩ := fits_of_captures? hc
    exact ⟨found, hfits⟩
  · rintro ⟨found, hfits⟩
    obtain ⟨t, hrun⟩ := exists_run_of_fits hfits
    rw [captures?, Option.isSome_map]
    exact search_isSome_iff.mpr ⟨0, t, Nat.zero_le _, hrun⟩

end Signpost.Path
