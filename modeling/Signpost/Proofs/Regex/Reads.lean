import Signpost.Proofs.Path.Fit

/-! # Texts that a node reads

What a run of a node reads does not depend on what stands around it, if the node looks at nothing
but the characters it reads. Such a node is known by the texts it reads, from any spot of a text.
-/
namespace Signpost.Regex
open Template

/-- From any spot, the runs of the node are over the texts with the property that begin there. -/
def Node.Reads (n : Node) (L : List Char → Prop) : Prop :=
  ∀ (cs : List Char) (s : Spot) (stop : Nat),
    (∃ saved, n.Run cs.toArray s ⟨stop, saved⟩) ↔
      ∃ w, L w ∧ w <+: cs.drop s.pos ∧ stop = s.pos + w.length

theorem append_prefix_drop_iff {cs w v : List Char} {i : Nat} :
    w ++ v <+: cs.drop i ↔ w <+: cs.drop i ∧ v <+: cs.drop (i + w.length) := by
  rw [← List.drop_drop]
  constructor
  · rintro ⟨rest, hrest⟩
    rw [← hrest, List.append_assoc, List.drop_left]
    exact ⟨List.prefix_append _ _, List.prefix_append _ _⟩
  · rintro ⟨⟨more, hmore⟩, hv⟩
    rw [← hmore, List.drop_left] at hv
    rw [← hmore]
    exact (List.prefix_append_right_inj w).mpr hv

namespace Node.Reads
variable {n m : Node} {L M : List Char → Prop}

theorem congr (h : n.Reads L) (hLM : ∀ w, L w ↔ M w) : n.Reads M := by
  intro cs s stop
  simp only [h cs s stop, hLM]

theorem read (set : CharSet) : (Node.read set).Reads fun w => ∃ c, set.mem c = true ∧ w = [c] := by
  intro cs s stop
  simp only [run_read]
  constructor
  · rintro ⟨saved, c, hc, hdrop, heq⟩
    cases heq
    exact ⟨[c], ⟨c, hc, rfl⟩, ⟨_, hdrop.symm⟩, rfl⟩
  · rintro ⟨_, ⟨c, hc, rfl⟩, ⟨rest, hrest⟩, rfl⟩
    refine ⟨s.saved, c, hc, ?_, rfl⟩
    change cs.drop s.pos = c :: cs.drop (s.pos + 1)
    rw [← List.drop_drop, ← hrest]
    rfl

theorem single (c : Char) : (Node.read (.single c)).Reads (· = [c]) := by
  refine (Node.Reads.read (.single c)).congr fun w => ?_
  simp only [mem_single, exists_eq_left]

theorem loop_read (set : CharSet) (min : Nat) (greedy : Bool) :
    (Node.loop (.read set) min none greedy).Reads fun w =>
      min ≤ w.length ∧ ∀ c ∈ w, set.mem c = true := by
  intro cs s stop
  constructor
  · rintro ⟨saved, count, hmin, -, hrun⟩
    obtain ⟨w, rfl, hw, hdrop, heq⟩ := iterate_read.mp hrun
    cases heq
    exact ⟨w, ⟨hmin, hw⟩, ⟨_, hdrop.symm⟩, rfl⟩
  · rintro ⟨w, ⟨hmin, hw⟩, ⟨rest, hrest⟩, rfl⟩
    refine ⟨s.saved, w.length, hmin, by simp, iterate_read.mpr ⟨w, rfl, hw, ?_, rfl⟩⟩
    change cs.drop s.pos = w ++ cs.drop (s.pos + w.length)
    rw [← List.drop_drop, ← hrest, List.drop_left]

theorem group (h : n.Reads L) (index : Nat) : (Node.group index n).Reads L := by
  intro cs s stop
  refine Iff.trans ?_ (h cs (s.save (2 * index)) stop)
  constructor
  · rintro ⟨saved, u, hrun, heq⟩
    obtain ⟨pos, usaved⟩ := u
    cases heq
    exact ⟨usaved, hrun⟩
  · rintro ⟨saved, hrun⟩
    exact ⟨_, _, hrun, rfl⟩

theorem cat (h : n.Reads L) (h' : m.Reads M) :
    (Node.cat n m).Reads fun w => ∃ u v, L u ∧ M v ∧ w = u ++ v := by
  intro cs s stop
  constructor
  · rintro ⟨saved, ⟨pos, usaved⟩, hn, hm⟩
    obtain ⟨u, hu, hupre, rfl⟩ := (h cs s pos).mp ⟨usaved, hn⟩
    obtain ⟨v, hv, hvpre, rfl⟩ := (h' cs _ stop).mp ⟨saved, hm⟩
    refine ⟨u ++ v, ⟨u, v, hu, hv, rfl⟩, append_prefix_drop_iff.mpr ⟨hupre, hvpre⟩, ?_⟩
    simp [Nat.add_assoc]
  · rintro ⟨_, ⟨u, v, hu, hv, rfl⟩, hpre, rfl⟩
    obtain ⟨hupre, hvpre⟩ := append_prefix_drop_iff.mp hpre
    obtain ⟨usaved, hn⟩ := (h cs s _).mpr ⟨u, hu, hupre, rfl⟩
    obtain ⟨saved, hm⟩ := (h' cs ⟨s.pos + u.length, usaved⟩ _).mpr ⟨v, hv, hvpre, rfl⟩
    refine ⟨saved, _, hn, ?_⟩
    rwa [List.length_append, ← Nat.add_assoc]

theorem alt (h : n.Reads L) (h' : m.Reads M) : (Node.alt n m).Reads fun w => L w ∨ M w := by
  intro cs s stop
  simp only [Node.Run, exists_or, h cs s stop, h' cs s stop, or_and_right]

theorem optional (h : n.Reads L) (greedy : Bool) :
    (Node.loop n 0 (some 1) greedy).Reads fun w => w = [] ∨ L w := by
  intro cs s stop
  simp only [Path.run_optional, exists_or, h cs s stop, or_and_right, exists_eq_left]
  refine or_congr_left ⟨?_, ?_⟩
  · rintro ⟨saved, rfl⟩
    exact ⟨List.nil_prefix, rfl⟩
  · rintro ⟨-, rfl⟩
    exact ⟨s.saved, rfl⟩

end Node.Reads

end Signpost.Regex
