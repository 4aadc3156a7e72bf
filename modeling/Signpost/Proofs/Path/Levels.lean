import Signpost.Proofs.Path.Shape
import Signpost.Proofs.Template.Segments

/-! # Levels inside one another

A path may name its levels one inside the other: each level is a slash and a segment, and what it
holds further is one group that may be missing. Such an expression takes as many segments as there
are levels or fewer, but one at least; the segment of a level stands in every second group.
-/
namespace Signpost.Path
open Placeholder Regex Template

/-- The nodes of a level with `n` levels inside it, behind `g` groups. -/
def levels (g : Nat) : Nat → List Node
  | 0 => [.read (.single '/'), holeNode (g + 1)]
  | n + 1 => [.read (.single '/'), holeNode (g + 1),
      .loop (.group (g + 2) (Node.catAll (levels (g + 2) n))) 0 (some 1) true]

/-- Segments behind slashes. -/
def rooted (values : List (List Char)) : List Char := values.flatMap ('/' :: ·)

@[simp] theorem rooted_nil : rooted [] = [] := rfl

@[simp] theorem rooted_cons (value : List Char) (values : List (List Char)) :
    rooted (value :: values) = '/' :: (value ++ rooted values) := rfl

section Runs
variable {cs : List Char} {s t u : Spot}

theorem run_slash_hole {group : Nat} :
    (∃ v, (Node.read (.single '/')).Run cs.toArray s v ∧ (holeNode group).Run cs.toArray v t) ↔
      ∃ value, IsSegment value ∧ cs.drop s.pos = '/' :: (value ++ cs.drop t.pos) ∧
        t = ⟨s.pos + 1 + value.length,
          (2 * group + 1, s.pos + 1 + value.length) :: (2 * group, s.pos + 1) :: s.saved⟩ := by
  constructor
  · rintro ⟨v, hslash, hhole⟩
    obtain ⟨hdrop, rfl⟩ := run_char.mp hslash
    obtain ⟨value, hne, hvalue, hdrop', rfl⟩ := run_holeNode.mp hhole
    exact ⟨value, ⟨hne, hvalue⟩, hdrop.trans (congrArg ('/' :: ·) hdrop'), rfl⟩
  · rintro ⟨value, h, hdrop, rfl⟩
    have hnext : cs.drop (s.pos + 1) = value ++ cs.drop (s.pos + 1 + value.length) := by
      rw [← List.drop_drop, hdrop]
      rfl
    refine ⟨⟨s.pos + 1, s.saved⟩, run_char.mpr ⟨?_, rfl⟩,
      run_holeNode.mpr ⟨value, h.1, h.2, hnext, rfl⟩⟩
    rw [hdrop, hnext]

/-- What a run over levels behind `g` groups took, and what it left of the groups before. -/
structure Took (cs : List Char) (g : Nat) (values : List (List Char)) (s t : Spot) : Prop where
  segments : ∀ value ∈ values, IsSegment value
  drop : cs.drop s.pos = rooted values ++ cs.drop t.pos
  group : ∀ k, groupText? cs t.saved (g + 1 + 2 * k) =
    (values[k]?).or (groupText? cs s.saved (g + 1 + 2 * k))
  frame : ∀ k ≤ g, groupText? cs t.saved k = groupText? cs s.saved k

theorem took_slash_hole {g : Nat} {value : List Char} (h : IsSegment value)
    (hdrop : cs.drop s.pos = '/' :: (value ++ cs.drop t.pos))
    (ht : t = ⟨s.pos + 1 + value.length, (2 * (g + 1) + 1, s.pos + 1 + value.length) ::
      (2 * (g + 1), s.pos + 1) :: s.saved⟩) : Took cs g [value] s t := by
  subst ht
  have hnext : cs.drop (s.pos + 1) = value ++ cs.drop (s.pos + 1 + value.length) := by
    rw [← List.drop_drop, hdrop]
    rfl
  constructor
  · simpa using h
  · simpa using hdrop
  · intro k
    by_cases hk : k = 0
    · subst hk
      rw [Nat.mul_zero, Nat.add_zero, groupText?_save_self, hnext, Nat.add_sub_cancel_left,
        List.take_left]
      rfl
    · obtain ⟨k, rfl⟩ := Nat.exists_eq_succ_of_ne_zero hk
      rw [groupText?_save_of_ne (by omega)]
      rfl
  · intro k hk
    rw [groupText?_save_of_ne (by omega)]

theorem Took.cons {g : Nat} {value : List Char} {values : List (List Char)}
    (h : Took cs g [value] s t) (hrest : Took cs (g + 2) values (t.save (2 * (g + 2))) u) :
    Took cs g (value :: values) s (u.save (2 * (g + 2) + 1)) := by
  -- the group around the further levels is none of those that segments stand in
  have hinner : ∀ k, k ≠ g + 2 →
      groupText? cs (u.save (2 * (g + 2) + 1)).saved k = groupText? cs u.saved k ∧
        groupText? cs (t.save (2 * (g + 2))).saved k = groupText? cs t.saved k := by
    intro k hk
    exact ⟨groupText?_cons_of_ne _ _ (by omega) (by omega),
      groupText?_cons_of_ne _ _ (by omega) (by omega)⟩
  have hframe : ∀ k ≤ g + 1,
      groupText? cs (u.save (2 * (g + 2) + 1)).saved k = groupText? cs t.saved k := by
    intro k hk
    rw [(hinner k (by omega)).1, hrest.frame k (by omega), (hinner k (by omega)).2]
  constructor
  · exact List.forall_mem_cons.mpr ⟨h.segments value List.mem_cons_self, hrest.segments⟩
  · have hdrop : cs.drop t.pos = rooted values ++ cs.drop u.pos := hrest.drop
    rw [h.drop, hdrop]
    simp [Spot.save]
  · intro k
    cases k with
    | zero =>
      have hfirst := h.group 0
      rw [Nat.mul_zero, Nat.add_zero] at hfirst ⊢
      rw [hframe _ (Nat.le_refl _), hfirst]
      rfl
    | succ k =>
      have hindex : g + 1 + 2 * (k + 1) = g + 2 + 1 + 2 * k := by omega
      have hlater := h.group (k + 1)
      have hnone : [value][k + 1]? = none := rfl
      rw [hnone, Option.none_or] at hlater
      rw [hindex] at hlater ⊢
      rw [(hinner _ (by omega)).1, hrest.group, (hinner _ (by omega)).2, hlater]
      rfl
  · intro k hk
    rw [hframe k (by omega), h.frame k hk]

/-- A run over a level and those inside it takes one segment for each level that is there. -/
theorem exists_took_of_runAll {g n : Nat} (h : RunAll cs.toArray (levels g n) s t) :
    ∃ values, values ≠ [] ∧ values.length ≤ n + 1 ∧ Took cs g values s t := by
  induction n generalizing g s t with
  | zero =>
    obtain ⟨v, hslash, w, hhole, rfl⟩ := h
    obtain ⟨value, hvalue, hdrop, hw⟩ := run_slash_hole.mp ⟨v, hslash, hhole⟩
    exact ⟨[value], by simp, by simp, took_slash_hole hvalue hdrop hw⟩
  | succ n ih =>
    obtain ⟨v, hslash, w, hhole, x, hrest, rfl⟩ := h
    obtain ⟨value, hvalue, hdrop, hw⟩ := run_slash_hole.mp ⟨v, hslash, hhole⟩
    have hfirst : Took cs g [value] s w := took_slash_hole hvalue hdrop hw
    rcases run_optional.mp hrest with rfl | ⟨y, hinner, rfl⟩
    · exact ⟨[value], by simp, by simp, hfirst⟩
    · obtain ⟨values, -, hlength, htook⟩ := ih (run_catAll.mp hinner)
      exact ⟨value :: values, by simp, by simpa using hlength, hfirst.cons htook⟩

theorem exists_run_slash_hole (group : Nat) {value rest : List Char} (h : IsSegment value)
    (hs : cs.drop s.pos = '/' :: (value ++ rest)) :
    ∃ t, (∃ v, (Node.read (.single '/')).Run cs.toArray s v ∧
      (holeNode group).Run cs.toArray v t) ∧ cs.drop t.pos = rest := by
  have hnext : cs.drop (s.pos + 1 + value.length) = rest := by
    rw [← List.drop_drop, ← List.drop_drop, hs]
    simp
  refine ⟨⟨s.pos + 1 + value.length, _⟩, run_slash_hole.mpr ⟨value, h, ?_, rfl⟩, hnext⟩
  rw [hs, hnext]

/-- Segments behind slashes are taken by a run, if there are not more of them than levels. -/
theorem exists_runAll_of_rooted {g n : Nat} {values : List (List Char)} {rest : List Char}
    (hne : values ≠ []) (hlength : values.length ≤ n + 1) (h : ∀ value ∈ values, IsSegment value)
    (s : Spot) (hs : cs.drop s.pos = rooted values ++ rest) :
    ∃ t, RunAll cs.toArray (levels g n) s t ∧ cs.drop t.pos = rest := by
  induction n generalizing g s values with
  | zero =>
    obtain ⟨value, rfl⟩ : ∃ value, values = [value] :=
      List.length_eq_one_iff.mp (by have := List.length_pos_iff.mpr hne; omega)
    have hhere : cs.drop s.pos = '/' :: (value ++ rest) := by simpa using hs
    obtain ⟨t, ⟨v, hslash, hhole⟩, ht⟩ :=
      exists_run_slash_hole (g + 1) (h value List.mem_cons_self) hhere
    exact ⟨t, ⟨v, hslash, t, hhole, rfl⟩, ht⟩
  | succ n ih =>
    obtain ⟨value, more, rfl⟩ := List.exists_cons_of_ne_nil hne
    obtain ⟨hvalue, hmore⟩ := List.forall_mem_cons.mp h
    have hhere : cs.drop s.pos = '/' :: (value ++ (rooted more ++ rest)) := by simpa using hs
    obtain ⟨t, ⟨v, hslash, hhole⟩, ht⟩ := exists_run_slash_hole (g + 1) hvalue hhere
    by_cases hnil : more = []
    · subst hnil
      exact ⟨t, ⟨v, hslash, t, hhole, t, run_optional.mpr (Or.inl rfl), rfl⟩, ht⟩
    · obtain ⟨u, hrun, hu⟩ := ih (g := g + 2) hnil (by simpa using hlength) hmore
        (t.save (2 * (g + 2))) ht
      have hgroup : (Node.group (g + 2) (Node.catAll (levels (g + 2) n))).Run cs.toArray t
          (u.save (2 * (g + 2) + 1)) := ⟨u, run_catAll.mpr hrun, rfl⟩
      exact ⟨_, ⟨v, hslash, t, hhole, _, run_optional.mpr (Or.inr hgroup), rfl⟩, hu⟩

end Runs

/-- Segments behind slashes and a format behind them are read in one way. -/
theorem rooted_append_extension_inj {values values' : List (List Char)}
    {format format' : Option (List Char)} (hvalues : ∀ value ∈ values, IsSegment value)
    (hvalues' : ∀ value ∈ values', IsSegment value)
    (h : rooted values ++ extension format = rooted values' ++ extension format') :
    values = values' ∧ format = format' := by
  have hends : ∀ (values : List (List Char)) (format : Option (List Char)) (c : Char),
      (rooted values ++ extension format).head? = some c → endsSegment c = true := by
    intro values format c hc
    cases values with
    | nil => exact head?_extension_endsSegment format c hc
    | cons value values =>
      cases hc
      decide
  have hslash : ∀ (value : List Char) (values : List (List Char)) (format format' : Option (List Char)),
      rooted (value :: values) ++ extension format ≠ extension format' := by
    intro value values format format' heq
    cases format' <;> cases heq
  induction values generalizing values' with
  | nil =>
    cases values' with
    | nil => exact ⟨rfl, extension_injective (by simpa using h)⟩
    | cons value' values' => exact absurd h.symm (hslash value' values' format' format)
  | cons value values ih =>
    cases values' with
    | nil => exact absurd h (hslash value values format format')
    | cons value' values' =>
      obtain ⟨hvalue, hmore⟩ := List.forall_mem_cons.mp hvalues
      obtain ⟨hvalue', hmore'⟩ := List.forall_mem_cons.mp hvalues'
      have htail : value ++ (rooted values ++ extension format) =
          value' ++ (rooted values' ++ extension format') := by simpa using h
      obtain ⟨rfl, hrest⟩ := segment_eq_of_append_eq htail hvalue.2 hvalue'.2 (hends values format)
        (hends values' format')
      obtain ⟨rfl, rfl⟩ := ih hmore hmore' hrest
      exact ⟨rfl, rfl⟩

/-- The path is made of segments behind slashes, at most `n + 1` of them, and maybe a format. -/
structure Spells (n : Nat) (values : List (List Char)) (format : Option (List Char))
    (path : List Char) : Prop where
  nonempty : values ≠ []
  length_le : values.length ≤ n + 1
  segments : ∀ value ∈ values, IsSegment value
  format_segment : ∀ f ∈ format, IsSegment f
  eq : path = rooted values ++ extension format

theorem Spells.unique {n n' : Nat} {values values' : List (List Char)}
    {format format' : Option (List Char)} {path : List Char} (h : Spells n values format path)
    (h' : Spells n' values' format' path) : values = values' ∧ format = format' :=
  rooted_append_extension_inj h.segments h'.segments (h.eq.symm.trans h'.eq)

def levelsNode (n : Nat) : Node :=
  Node.catAll (.look .textStart ::
    ((levels 0 n ++ [Piece.format.node (2 * n + 1)]) ++ [.look .textEnd]))

section Whole
variable {cs : List Char} {t : Spot} {n : Nat}

/-- A run of a whole path saves the segment of each level that is there, and the format. -/
theorem exists_spells_of_run {start : Nat} (hstart : start ≤ cs.length)
    (h : (levelsNode n).Run cs.toArray ⟨start, []⟩ t) :
    ∃ values format, Spells n values format cs ∧
      (∀ k ≤ n, groupText? cs t.saved (2 * k + 1) = values[k]?) ∧
      groupText? cs t.saved (2 * n + 3) = format := by
  obtain ⟨rfl, hrun, hend⟩ := (run_anchored hstart).mp h
  obtain ⟨u, hlevels, v, hformat, rfl⟩ := runAll_append.mp hrun
  obtain ⟨values, hne, hlength, htook⟩ := exists_took_of_runAll hlevels
  obtain ⟨found, part, htakes, hdrop, rfl⟩ := run_piece.mp hformat
  have hnone : ∀ k, groupText? cs [] k = none := fun k => rfl
  have hfits : Fits (2 * n + 1) [.format] found part := by
    have hall := Fits.cons htakes (.nil (g := 2 * n + 1 + Piece.format.groups))
    simpa using hall
  obtain ⟨format, hsegment, rfl, rfl⟩ := fits_format_iff.mp hfits
  have hsaved : ∀ k, groupText? cs (saves (2 * n + 1) u.pos (extension format) .format ++ u.saved) k =
      ((formatGroups (2 * n + 1) format).lookup k).or (groupText? cs u.saved k) :=
    groupText?_saves htakes hdrop u.saved
  refine ⟨values, format, ⟨hne, hlength, htook.segments, hsegment, ?_⟩, fun k hk => ?_, ?_⟩
  · have hwhole := htook.drop
    rw [hdrop, hend] at hwhole
    simpa using hwhole
  · have hgroup := htook.group k
    have hindex : 0 + 1 + 2 * k = 2 * k + 1 := by omega
    rw [hindex, hnone, Option.or_none] at hgroup
    have hother : (formatGroups (2 * n + 1) format).lookup (2 * k + 1) = none := by
      refine lookup_eq_none fun e he => ?_
      have := (htakes.group_of_mem he).1
      omega
    rw [hsaved, hother, Option.none_or, hgroup]
  · have hvalues : values[n + 1]? = none := List.getElem?_eq_none hlength
    have hgroup := htook.group (n + 1)
    have hindex : 0 + 1 + 2 * (n + 1) = 2 * n + 3 := by omega
    rw [hindex, hvalues, hnone] at hgroup
    rw [hsaved, hgroup]
    cases format with
    | none => rfl
    | some f =>
      rw [formatGroups, List.lookup_cons, beq_false_of_ne (by omega), List.lookup_cons_self]
      rfl

theorem exists_run_of_spells {values : List (List Char)} {format : Option (List Char)}
    (h : Spells n values format cs) : ∃ t, (levelsNode n).Run cs.toArray ⟨0, []⟩ t := by
  obtain ⟨u, hlevels, hu⟩ :=
    exists_runAll_of_rooted (g := 0) h.nonempty h.length_le h.segments ⟨0, []⟩ h.eq
  have hfits : Fits (2 * n + 1) [.format] (formatGroups (2 * n + 1) format) (extension format) :=
    fits_format_iff.mpr ⟨format, h.format_segment, rfl, rfl⟩
  obtain ⟨t, hformat, ht⟩ := exists_runAll_of_fits hfits u (hu.trans (List.append_nil _).symm)
  exact ⟨t, (run_anchored (Nat.zero_le _)).mpr
    ⟨rfl, runAll_append.mpr ⟨u, hlevels, hformat⟩, ht⟩⟩

end Whole

end Signpost.Path
