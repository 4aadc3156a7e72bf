import Signpost.Proofs.Regex.Search
import Signpost.Proofs.Template.Reading

/-! # Texts that a literal path accepts

A text fits tokens when every character token stands for itself and every placeholder for a segment.
The runs of the nodes of tokens are exactly these fits, and the groups that a run saves are the
texts of the placeholders in order.
-/
namespace Signpost.Template
open Placeholder Regex

/-- What holds of the characters of a text is decided by going through the text, not through all
characters there are. -/
instance decidableForallMem (cs : List Char) (p : Char → Prop) [DecidablePred p] :
    Decidable (∀ c ∈ cs, p c) :=
  List.decidableBAll p cs

/-- The characters that end a segment. -/
def endsSegment (c : Char) : Bool := ['/', '.', ',', ';', '?'].contains c

/-- The text is made of the tokens, with the given segments for the placeholders in order. -/
inductive Fits : List Token → List (List Char) → List Char → Prop
  | nil : Fits [] [] []
  | text (c : Char) {ts : List Token} {values : List (List Char)} {cs : List Char}
      (h : Fits ts values cs) : Fits (.text c :: ts) values (c :: cs)
  | hole (p : Placeholder) {value : List Char} {ts : List Token} {values : List (List Char)}
      {cs : List Char} (hne : value ≠ []) (hvalue : ∀ c ∈ value, endsSegment c = false)
      (h : Fits ts values cs) : Fits (.hole p :: ts) (value :: values) (value ++ cs)

theorem mem_single {c d : Char} : (CharSet.single c).mem d = true ↔ d = c := by
  simp only [CharSet.single, CharSet.mem, Bool.and_eq_true, decide_eq_true_eq]
  exact ⟨fun h => Char.le_antisymm h.2 h.1, fun h => h ▸ ⟨Char.le_refl _, Char.le_refl _⟩⟩

theorem mem_ofList {cs : List Char} {c : Char} : (CharSet.ofList cs).mem c = true ↔ c ∈ cs := by
  induction cs with
  | nil => simp [CharSet.ofList, CharSet.mem]
  | cons d cs ih =>
    change ((CharSet.single d).mem c || (CharSet.ofList cs).mem c) = true ↔ _
    rw [Bool.or_eq_true, mem_single, ih, List.mem_cons]

theorem mem_segmentSet {c : Char} : segmentSet.mem c = true ↔ endsSegment c = false := by
  have hends : endsSegment c = true ↔ (CharSet.ofList ['/', '.', ',', ';', '?']).mem c = true := by
    rw [mem_ofList, endsSegment, List.contains_iff_mem]
  rw [segmentSet, CharSet.mem, Bool.not_eq_true', ← Bool.not_eq_true, ← hends, Bool.not_eq_true]

variable {cs : List Char} {s t : Spot}

theorem run_read {set : CharSet} :
    (Node.read set).Run cs.toArray s t ↔
      ∃ c, set.mem c = true ∧ cs.drop s.pos = c :: cs.drop t.pos ∧ t = ⟨s.pos + 1, s.saved⟩ := by
  simp only [Node.Run, List.getElem?_toArray]
  constructor
  · rintro ⟨c, hc, hset, rfl⟩
    refine ⟨c, hset, ?_, rfl⟩
    rw [List.drop_eq_getElem?_toList_append, hc]
    rfl
  · rintro ⟨c, hset, hdrop, rfl⟩
    refine ⟨c, ?_, hset, rfl⟩
    rw [← List.head?_drop, hdrop]
    rfl

theorem iterate_read {set : CharSet} {n : Nat} :
    Iterate ((Node.read set).Run cs.toArray) n s t ↔
      ∃ part, part.length = n ∧ (∀ c ∈ part, set.mem c = true) ∧
        cs.drop s.pos = part ++ cs.drop t.pos ∧ t = ⟨s.pos + n, s.saved⟩ := by
  induction n generalizing s with
  | zero =>
    constructor
    · rintro rfl
      exact ⟨[], rfl, by simp, rfl, rfl⟩
    · rintro ⟨part, -, -, -, rfl⟩
      rfl
  | succ n ih =>
    simp only [Iterate, run_read, ih]
    constructor
    · rintro ⟨u, ⟨c, hc, hdrop, rfl⟩, part, rfl, hpart, hrest, rfl⟩
      refine ⟨c :: part, rfl, List.forall_mem_cons.mpr ⟨hc, hpart⟩, ?_, ?_⟩
      · rw [hdrop, hrest]
        rfl
      · simp [Nat.add_assoc, Nat.add_comm 1]
    · rintro ⟨part, hlength, hpart, hdrop, rfl⟩
      cases part with
      | nil => cases hlength
      | cons c part =>
        obtain ⟨hc, hpart⟩ := List.forall_mem_cons.mp hpart
        have htail : cs.drop (s.pos + 1) = part ++ cs.drop (s.pos + (n + 1)) := by
          have htail := congrArg (List.drop 1) hdrop
          rwa [List.drop_drop] at htail
        refine ⟨⟨s.pos + 1, s.saved⟩, ⟨c, hc, ?_, rfl⟩, part, Nat.succ.inj hlength, hpart, ?_, ?_⟩
        · rw [hdrop, htail]
          rfl
        · exact htail
        · rw [Nat.add_assoc, Nat.add_comm 1]

/-- The text that a group saved. -/
def groupText? (cs : List Char) (saved : List (Nat × Nat)) (group : Nat) : Option (List Char) :=
  match saved.lookup (2 * group), saved.lookup (2 * group + 1) with
  | some start, some stop => some ((cs.drop start).take (stop - start))
  | _, _ => none

theorem lookup_cons_of_ne {k k' : Nat} (h : k ≠ k') (v : Nat) (saved : List (Nat × Nat)) :
    ((k', v) :: saved).lookup k = saved.lookup k := by
  rw [List.lookup_cons, beq_false_of_ne h]

theorem groupText?_save_self (saved : List (Nat × Nat)) (group start stop : Nat) :
    groupText? cs ((2 * group + 1, stop) :: (2 * group, start) :: saved) group =
      some ((cs.drop start).take (stop - start)) := by
  rw [groupText?, lookup_cons_of_ne (by omega), List.lookup_cons_self, List.lookup_cons_self]

theorem groupText?_save_of_ne {group other : Nat} (h : group ≠ other) (saved : List (Nat × Nat))
    (start stop : Nat) :
    groupText? cs ((2 * other + 1, stop) :: (2 * other, start) :: saved) group =
      groupText? cs saved group := by
  rw [groupText?, lookup_cons_of_ne (by omega), lookup_cons_of_ne (by omega),
    lookup_cons_of_ne (by omega), lookup_cons_of_ne (by omega), groupText?]

theorem run_holeNode {group : Nat} :
    (holeNode group).Run cs.toArray s t ↔
      ∃ value, value ≠ [] ∧ (∀ c ∈ value, endsSegment c = false) ∧
        cs.drop s.pos = value ++ cs.drop t.pos ∧
        t = ⟨s.pos + value.length,
          (2 * group + 1, s.pos + value.length) :: (2 * group, s.pos) :: s.saved⟩ := by
  constructor
  · rintro ⟨u, ⟨n, hn, -, hloop⟩, rfl⟩
    obtain ⟨value, rfl, hvalue, hdrop, rfl⟩ := iterate_read.mp hloop
    exact ⟨value, List.length_pos_iff.mp hn, fun c hc => mem_segmentSet.mp (hvalue c hc), hdrop, rfl⟩
  · rintro ⟨value, hne, hvalue, hdrop, rfl⟩
    refine ⟨⟨s.pos + value.length, (2 * group, s.pos) :: s.saved⟩,
      ⟨value.length, List.length_pos_iff.mpr hne, by simp, ?_⟩, rfl⟩
    exact iterate_read.mpr
      ⟨value, rfl, fun c hc => mem_segmentSet.mpr (hvalue c hc), hdrop, rfl⟩

theorem exists_fits_of_runAll {groups : Nat} {ts : List Token}
    (h : RunAll cs.toArray (nodes groups ts) s t) :
    ∃ values part, Fits ts values part ∧ cs.drop s.pos = part ++ cs.drop t.pos ∧
      (∀ k value, values[k]? = some value →
        groupText? cs t.saved (groups + 1 + k) = some value) ∧
      ∀ group ≤ groups, groupText? cs t.saved group = groupText? cs s.saved group := by
  induction ts generalizing groups s with
  | nil =>
    cases h
    exact ⟨[], [], .nil, rfl, by simp, fun _ _ => rfl⟩
  | cons token ts ih =>
    cases token with
    | text c =>
      obtain ⟨u, hfirst, hrest⟩ := h
      obtain ⟨d, hd, hdrop, rfl⟩ := run_read.mp hfirst
      obtain ⟨values, part, hfits, hpart, hgroups, hframe⟩ := ih hrest
      rw [mem_single.mp hd] at hdrop
      exact ⟨values, c :: part, .text c hfits, by rw [hdrop, hpart]; rfl, hgroups, hframe⟩
    | hole p =>
      obtain ⟨u, hfirst, hrest⟩ := h
      obtain ⟨value, hne, hvalue, hdrop, rfl⟩ := run_holeNode.mp hfirst
      obtain ⟨values, part, hfits, hpart, hgroups, hframe⟩ := ih hrest
      refine ⟨value :: values, value ++ part, .hole p hne hvalue hfits, ?_, ?_, ?_⟩
      · rw [hdrop, hpart, List.append_assoc]
      · intro k found hk
        cases k with
        | zero =>
          cases hk
          rw [Nat.add_zero, hframe _ (Nat.le_refl _), groupText?_save_self, hdrop,
            Nat.add_sub_cancel_left, List.take_left]
        | succ k =>
          have hlater := hgroups k found hk
          rwa [Nat.add_assoc (groups + 1), Nat.add_comm 1] at hlater
      · intro group hle
        rw [hframe group (Nat.le_succ_of_le hle), groupText?_save_of_ne (by omega)]

theorem exists_runAll_of_fits {ts : List Token} {values : List (List Char)} {part rest : List Char}
    (h : Fits ts values part) (groups : Nat) (s : Spot) (hs : cs.drop s.pos = part ++ rest) :
    ∃ t, RunAll cs.toArray (nodes groups ts) s t ∧ cs.drop t.pos = rest := by
  induction h generalizing groups s with
  | nil => exact ⟨s, rfl, hs⟩
  | @text c ts values part h ih =>
    have hnext : cs.drop (s.pos + 1) = part ++ rest := by
      rw [← List.drop_drop, hs]
      rfl
    obtain ⟨t, hrun, ht⟩ := ih groups ⟨s.pos + 1, s.saved⟩ hnext
    refine ⟨t, ⟨_, run_read.mpr ⟨c, mem_single.mpr rfl, ?_, rfl⟩, hrun⟩, ht⟩
    rw [hs, hnext]
    rfl
  | @hole p value ts values part hne hvalue h ih =>
    have hnext : cs.drop (s.pos + value.length) = part ++ rest := by
      rw [← List.drop_drop, hs, List.append_assoc, List.drop_left]
    obtain ⟨t, hrun, ht⟩ := ih (groups + 1) ⟨s.pos + value.length, _⟩ hnext
    refine ⟨t, ⟨_, run_holeNode.mpr ⟨value, hne, hvalue, ?_, rfl⟩, hrun⟩, ht⟩
    rw [hs, hnext, List.append_assoc]

theorem run_anchored {ns : List Node} {start : Nat} {saved : List (Nat × Nat)}
    (hstart : start ≤ cs.length) :
    (Node.catAll (.look .textStart :: (ns ++ [.look .textEnd]))).Run cs.toArray ⟨start, saved⟩ t ↔
      start = 0 ∧ RunAll cs.toArray ns ⟨start, saved⟩ t ∧ cs.drop t.pos = [] := by
  have hbegin : charBefore cs.toArray start = none ↔ start = 0 :=
    charBefore_eq_none_iff (by simpa using hstart)
  have hend : ∀ u : Spot, cs.toArray[u.pos]? = none ↔ cs.drop u.pos = [] := by
    intro u
    rw [List.getElem?_toArray, List.getElem?_eq_none_iff, List.drop_eq_nil_iff]
  rw [run_catAll]
  constructor
  · rintro ⟨_, ⟨hbefore, rfl⟩, hrun⟩
    obtain ⟨u, hnodes, _, ⟨hafter, rfl⟩, rfl⟩ := runAll_append.mp hrun
    exact ⟨hbegin.mp (Option.isNone_iff_eq_none.mp hbefore), hnodes,
      (hend u).mp (Option.isNone_iff_eq_none.mp hafter)⟩
  · rintro ⟨hzero, hnodes, hdrop⟩
    have hbefore := Option.isNone_iff_eq_none.mpr (hbegin.mpr hzero)
    have hafter := Option.isNone_iff_eq_none.mpr ((hend t).mpr hdrop)
    exact ⟨_, ⟨hbefore, rfl⟩, runAll_append.mpr ⟨t, hnodes, t, ⟨hafter, rfl⟩, rfl⟩⟩

theorem fits_of_run {ts : List Token} {start : Nat} {saved : List (Nat × Nat)}
    (hstart : start ≤ cs.length) (h : (pathNode ts).Run cs.toArray ⟨start, saved⟩ t) :
    ∃ values, Fits ts values cs ∧
      ∀ k value, values[k]? = some value → groupText? cs t.saved (k + 1) = some value := by
  obtain ⟨rfl, hnodes, hend⟩ := (run_anchored hstart).mp h
  obtain ⟨values, part, hfits, hpart, hgroups, -⟩ := exists_fits_of_runAll hnodes
  rw [hend, List.append_nil] at hpart
  have hwhole : part = cs := hpart.symm
  subst hwhole
  refine ⟨values, hfits, fun k value hk => ?_⟩
  have hgroup := hgroups k value hk
  rwa [Nat.zero_add, Nat.add_comm] at hgroup

theorem exists_run_of_fits {ts : List Token} {values : List (List Char)} (h : Fits ts values cs) :
    ∃ t, (pathNode ts).Run cs.toArray ⟨0, []⟩ t := by
  have hall : cs.drop 0 = cs ++ [] := (List.append_nil cs).symm
  obtain ⟨t, hrun, hend⟩ := exists_runAll_of_fits h 0 ⟨0, []⟩ hall
  exact ⟨t, (run_anchored (Nat.zero_le _)).mpr ⟨rfl, hrun, hend⟩⟩

end Signpost.Template
